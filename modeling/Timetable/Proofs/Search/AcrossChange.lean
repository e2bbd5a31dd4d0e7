import Mathlib.Data.Int.Range
import Timetable.Proofs.Clock.Ordinary
import Timetable.Proofs.Search.OpenReadings
import Timetable.Proofs.Search.Soundness

namespace Timetable

namespace DayInterval

structure Regular (w : DayInterval) (z : Zone) (d : Int) : Prop where
  start : z.Passes (Reading.on d w.interval.first) (z.instantOf d w.interval.first)
  stop : z.Passes (Reading.on d w.interval.last + Span.minute)
    (z.instantOf d w.interval.last + Span.minute)

theorem regular_of_passes {w : DayInterval} {z : Zone} {d : Int}
    (hfirst : ∃ t, z.Passes (Reading.on d w.interval.first) t)
    (hlast : ∀ r, Reading.on d w.interval.last ≤ r →
      r ≤ Reading.on d w.interval.last + Span.minute → ∃ t, z.Passes r t) : w.Regular z d := by
  have hminute := Span.minute_pos
  obtain ⟨t, ht⟩ := hfirst
  obtain ⟨u, hu⟩ := hlast _ (Int.le_refl _) (by omega)
  constructor
  · rw [ht.instantOf_eq]
    exact ht
  · rw [hu.instantOf_eq]
    exact hu.add (Int.le_of_lt hminute) hlast

def RegularAround (w : DayInterval) (m : Moment) : Prop :=
  ∀ d, Reading.date m.reading - 2 ≤ d → d < Reading.date m.reading + 14 →
    Date.weekday d = w.day → w.Regular m.zone d

namespace RegularAround

variable {w : DayInterval} {m : Moment} {b x : Int}

theorem covers_iff (h : w.RegularAround m) (hx : m.instant ≤ x)
    (hback : m.zone.reading x < m.reading) :
    w.Covers (m.zone.reading x) ↔ w.Covers m.reading := by
  have hnear : m.reading < m.instant + Span.day := m.zone.reading_lt_add_day m.instant
  have hnear' := m.zone.lt_reading_add_day x
  have hdate := Reading.date_mul_le m.reading
  have hdate' := Reading.lt_date_add_one_mul m.reading
  have hregular {d : Int} (hd : Date.weekday d = w.day)
      (hfirst : Reading.on d w.interval.first ≤ m.reading)
      (hlast : m.zone.reading x < Reading.on d w.interval.last + Span.minute) :
      w.Regular m.zone d := by
    have hlow := Reading.le_on d w.interval.first
    have hhigh := Reading.on_add_minute_le d w.interval.last
    simp only [Span.day] at *
    exact h d (by omega) (by omega) hd
  constructor
  · rintro ⟨d, hd, hfirst, hlast⟩
    have hstop := (hregular hd (by omega) hlast).stop
    have hm : m.reading < _ ↔ m.instant < _ := hstop.lt_iff m.instant
    have hlt := (hstop.lt_iff x).1 hlast
    exact ⟨d, hd, by omega, by omega⟩
  · rintro ⟨d, hd, hfirst, hlast⟩
    have hstart := (hregular hd hfirst (by omega)).start
    have hm : _ ≤ m.reading ↔ _ ≤ m.instant := hstart.le_iff m.instant
    have hle := hm.1 hfirst
    exact ⟨d, hd, (hstart.le_iff x).2 (by omega), by omega⟩

theorem exists_nextStart (h : w.RegularAround m) :
    ∃ d, Date.weekday d = w.day ∧ m.reading ≤ Reading.on d w.interval.first ∧
      Reading.on d w.interval.first ≤ m.reading + Span.week ∧
      m.zone.Passes (Reading.on d w.interval.first) (w.nextStart m).instant := by
  have hday := Date.weekday_onOrAfter (Reading.date m.reading) w.day
  have hle := Date.le_onOrAfter (Reading.date m.reading) w.day
  have hlt := Date.onOrAfter_lt (Reading.date m.reading) w.day
  obtain ⟨hbefore, hafter⟩ := Reading.onOrAfter_within_week m.reading w.day w.interval.first
  generalize hd : Date.onOrAfter (Reading.date m.reading) w.day = d at *
  have hday' : Date.weekday (d + 7) = w.day := (Date.weekday_add_seven d).trans hday
  have hthis := (h d (by omega) (by omega) hday).start
  have hnext := (h (d + 7) (by omega) (by omega) hday').start
  have hm : _ ≤ m.reading ↔ _ ≤ m.instant := hthis.le_iff m.instant
  have hon := Reading.on_add_seven d w.interval.first
  have hminute := Span.minute_pos
  simp only [nextStart, hd]
  split
  · next hle' =>
    refine ⟨d, hday, ?_, by omega, hthis⟩
    rcases Int.lt_or_eq_of_le hle' with hlt' | heq
    · omega
    · rw [Moment.reading, heq, hthis.reading_eq]
  · exact ⟨d + 7, hday', by omega, by omega, hnext⟩

theorem exists_nextEnd (h : w.RegularAround m) :
    ∃ d, Date.weekday d = w.day ∧ m.reading < Reading.on d w.interval.last + Span.minute ∧
      Reading.on d w.interval.last + Span.minute ≤ m.reading + Span.week ∧
      m.zone.Passes (Reading.on d w.interval.last + Span.minute) (w.nextEnd m).instant := by
  have hday := Date.weekday_onOrAfter (Reading.date m.reading) w.day
  have hle := Date.le_onOrAfter (Reading.date m.reading) w.day
  have hlt := Date.onOrAfter_lt (Reading.date m.reading) w.day
  obtain ⟨hbefore, hafter⟩ := Reading.onOrAfter_within_week m.reading w.day w.interval.last
  generalize hd : Date.onOrAfter (Reading.date m.reading) w.day = d at *
  have hday' : Date.weekday (d + 7) = w.day := (Date.weekday_add_seven d).trans hday
  have hthis := (h d (by omega) (by omega) hday).stop
  have hnext := (h (d + 7) (by omega) (by omega) hday').stop
  have hm : _ ≤ m.reading ↔ _ ≤ m.instant := hthis.le_iff m.instant
  have hon := Reading.on_add_seven d w.interval.last
  have hminute := Span.minute_pos
  simp only [nextEnd, hd]
  split
  · exact ⟨d, hday, by omega, hbefore, hthis⟩
  · exact ⟨d + 7, hday', by omega, by omega, hnext⟩

theorem passes_nextStart (h : w.RegularAround m) (hb : w.Starts b) (hmb : m.reading < b)
    (hlt : b < m.reading + Span.week) : m.zone.Passes b (w.nextStart m).instant := by
  obtain ⟨d, hd, rfl⟩ := hb
  obtain ⟨e, he, hle', hlt', hpasses⟩ := h.exists_nextStart
  have hde : d < e + 7 := Reading.lt_of_on_lt (t := w.interval.first) (by omega)
  have hed : e < d + 7 := Reading.lt_of_on_lt (t := w.interval.first) (by omega)
  rwa [Date.eq_of_weekday_eq (hd.trans he.symm) hde hed]

theorem passes_nextEnd (h : w.RegularAround m) (hb : w.Ends b) (hlt : m.reading < b)
    (hle : b ≤ m.reading + Span.week) : m.zone.Passes b (w.nextEnd m).instant := by
  obtain ⟨d, hd, rfl⟩ := hb
  obtain ⟨e, he, hlt', hle', hpasses⟩ := h.exists_nextEnd
  have hde : d < e + 7 := Reading.lt_of_on_lt (t := w.interval.last) (by omega)
  have hed : e < d + 7 := Reading.lt_of_on_lt (t := w.interval.last) (by omega)
  rwa [Date.eq_of_weekday_eq (hd.trans he.symm) hde hed]

end RegularAround

end DayInterval

namespace Schedule

section Regular

variable {s : Schedule} {m : Moment} {x : Int}

theorem open_iff_of_reading_lt
    (h : ∀ w ∈ s.allowed ++ s.forbidden, w.RegularAround (m.inZone s.zone)) (hx : m.instant ≤ x)
    (hback : s.zone.reading x < s.zone.reading m.instant) :
    s.Open (s.zone.reading x) ↔ s.Open (s.zone.reading m.instant) := by
  refine and_congr (exists_congr fun w => and_congr_right fun hw => ?_)
    (forall_congr' fun g => imp_congr_right fun hg => not_congr ?_)
  · exact (h w (List.mem_append_left _ hw)).covers_iff hx hback
  · exact (h g (List.mem_append_right _ hg)).covers_iff hx hback

theorem exists_open_candidate_le
    (h : ∀ w ∈ s.allowed ++ s.forbidden, w.RegularAround (m.inZone s.zone)) (hx : m.instant ≤ x)
    (hweek : s.zone.reading x < s.zone.reading m.instant + Span.week)
    (hopen : s.Open (s.zone.reading x)) :
    ∃ c ∈ s.candidates (m.inZone s.zone), s.Open (s.zone.reading c.instant) ∧ c.instant ≤ x := by
  have hself : m.inZone s.zone ∈ s.candidates (m.inZone s.zone) :=
    mem_candidates.2 (.inr (.inr rfl))
  rcases Int.lt_or_le (s.zone.reading x) (s.zone.reading m.instant) with hback | hforth
  · exact ⟨_, hself, (open_iff_of_reading_lt h hx hback).1 hopen, hx⟩
  · obtain ⟨b, hbx, hboundary, hfrom⟩ := hopen.exists_boundary
    rcases Int.lt_or_le (s.zone.reading m.instant) b with hmb | hbm
    · rcases hboundary with ⟨w, hw, hstart⟩ | ⟨g, hg, hend⟩
      · have hpasses := (h w (List.mem_append_left _ hw)).passes_nextStart hstart hmb
          (Int.lt_of_le_of_lt hbx hweek)
        refine ⟨_, mem_candidates.2 (.inl ⟨w, hw, rfl⟩), ?_, (hpasses.le_iff x).1 hbx⟩
        rw [← hpasses.reading_eq] at hfrom hbx
        exact hfrom _ (Int.le_refl _) hbx
      · have hpasses := (h g (List.mem_append_right _ hg)).passes_nextEnd hend hmb
          (Int.le_of_lt (Int.lt_of_le_of_lt hbx hweek))
        refine ⟨_, mem_candidates.2 (.inr (.inl ⟨g, hg, rfl⟩)), ?_, (hpasses.le_iff x).1 hbx⟩
        rw [← hpasses.reading_eq] at hfrom hbx
        exact hfrom _ (Int.le_refl _) hbx
    -- Since `b` nothing has closed, so the moment itself is allowed.
    · exact ⟨_, hself, hfrom _ hbm hforth, hx⟩

theorem candidate_le_of_week_le
    (h : ∀ w ∈ s.allowed ++ s.forbidden, w.RegularAround (m.inZone s.zone)) (hx : m.instant ≤ x)
    (hweek : s.zone.reading m.instant + Span.week ≤ s.zone.reading x) {c : Moment}
    (hc : c ∈ s.candidates (m.inZone s.zone)) : c.instant ≤ x := by
  rcases mem_candidates.1 hc with ⟨w, hw, rfl⟩ | ⟨g, hg, rfl⟩ | rfl
  · obtain ⟨d, -, -, hle, hpasses⟩ := (h w (List.mem_append_left _ hw)).exists_nextStart
    exact (hpasses.le_iff x).1 (Int.le_trans hle hweek)
  · obtain ⟨d, -, -, hle, hpasses⟩ := (h g (List.mem_append_right _ hg)).exists_nextEnd
    exact (hpasses.le_iff x).1 (Int.le_trans hle hweek)
  · exact hx

theorem nextAllowed_le_of_open
    (hs : ∀ w ∈ s.allowed ++ s.forbidden, w.interval.first.hour ≤ w.interval.last.hour)
    (h : ∀ w ∈ s.allowed ++ s.forbidden, w.RegularAround (m.inZone s.zone)) {r : Moment}
    (hr : s.nextAllowed m = .ok r) (hx : m.instant ≤ x) (hopen : s.Open (s.zone.reading x)) :
    r.instant ≤ x := by
  obtain ⟨-, ⟨c, hc, -, hcr⟩, hmin⟩ := nextAllowed_eq_ok_iff.1 hr
  rcases Int.lt_or_le (s.zone.reading x) (s.zone.reading m.instant + Span.week) with hweek | hweek
  · obtain ⟨c, hc, hc', hcx⟩ := exists_open_candidate_le h hx hweek hopen
    exact Int.le_trans (hmin c hc ((allows_iff_open hs c).2 hc')) hcx
  · rw [← hcr]
    exact candidate_le_of_week_le h hx hweek hc

end Regular

theorem not_allows_before_nextAllowed (s : Schedule) (m : Moment)
    (hs : ∀ w ∈ s.allowed ++ s.forbidden, w.interval.first.hour ≤ w.interval.last.hour)
    (hpasses : ∀ w ∈ s.allowed ++ s.forbidden,
      ∀ d, Reading.date (s.zone.reading m.instant) - 2 ≤ d →
        d < Reading.date (s.zone.reading m.instant) + 14 → Date.weekday d = w.day →
          (∃ t, s.zone.Passes (Reading.on d w.interval.first) t) ∧
            ∀ r, Reading.on d w.interval.last ≤ r →
              r ≤ Reading.on d w.interval.last + Span.minute → ∃ t, s.zone.Passes r t)
    {r x : Moment} (hr : s.nextAllowed m = .ok r) (hmx : m.instant ≤ x.instant)
    (hxr : x.instant < r.instant) : s.allows x = false := by
  have hregular (w : DayInterval) (hw : w ∈ s.allowed ++ s.forbidden) :
      w.RegularAround (m.inZone s.zone) := by
    intro d hd hd' hday
    obtain ⟨hfirst, hlast⟩ := hpasses w hw d hd hd' hday
    exact DayInterval.regular_of_passes hfirst hlast
  rw [← Bool.not_eq_true, allows_iff_open hs]
  intro hopen
  have hle := nextAllowed_le_of_open hs hregular hr hmx hopen
  omega

theorem not_allows_before_nextAllowed_across_repeated_hour :
    let s : Schedule :=
      ⟨[⟨.monday, { hour := 9, minute := 0 }, { hour := 17, minute := 0 }⟩],
        [⟨.monday, { hour := 8, minute := 0 }, { hour := 10, minute := 29 }⟩], .europeKyiv⟩
    let m : Moment := ⟨1288440000 * Span.second, .utc⟩
    let r : Moment := ⟨1288600200 * Span.second, .utc⟩
    s.zone.offsetAt m.instant ≠ s.zone.offsetAt r.instant ∧ s.nextAllowed m = .ok r ∧
      ∀ x : Moment, m.instant ≤ x.instant → x.instant < r.instant → s.allows x = false := by
  intro s m r
  have hs : ∀ w ∈ s.allowed ++ s.forbidden, w.interval.first.hour ≤ w.interval.last.hour := by
    decide +kernel +zetaReduce
  have hz : s.zone.Ordinary := by decide +kernel +zetaReduce
  have hfar : ∀ w ∈ s.allowed ++ s.forbidden,
      ∀ d, Reading.date (s.zone.reading m.instant) - 2 ≤ d →
        d < Reading.date (s.zone.reading m.instant) + 14 → Date.weekday d = w.day →
          ∀ c ∈ s.zone.changes,
            (c.since * Span.second + Span.day ≤ Reading.on d w.interval.first ∧
              c.since * Span.second + Span.day ≤ Reading.on d w.interval.last) ∨
            (Reading.on d w.interval.first + Span.day ≤ c.since * Span.second ∧
              Reading.on d w.interval.last + Span.minute + Span.day ≤ c.since * Span.second) := by
    decide +kernel +zetaReduce
  have hr : s.nextAllowed m = .ok r := nextAllowed_eq_ok_iff.2 (by decide +kernel +zetaReduce)
  refine ⟨by decide +kernel +zetaReduce, hr, fun x hmx hxr => ?_⟩
  refine not_allows_before_nextAllowed s m hs (fun w hw d hd hd' hday => ?_) hr hmx hxr
  have hchanges := hfar w hw d hd hd' hday
  refine ⟨hz.exists_passes (Zone.showsOnce_of_no_change fun c hc => ?_), fun q hq hq' =>
    hz.exists_passes (Zone.showsOnce_of_no_change fun c hc => ?_)⟩
  · exact (hchanges c hc).imp And.left And.left
  · have := hchanges c hc
    omega

theorem nextAllowed_passes_over_repeated_start :
    let s : Schedule :=
      ⟨[⟨.sunday, { hour := 3, minute := 30 }, { hour := 3, minute := 45 }⟩], [], .europeKyiv⟩
    let m : Moment := ⟨1288486200 * Span.second, .utc⟩
    let x : Moment := ⟨1288488600 * Span.second, .utc⟩
    let r : Moment := ⟨1289093400 * Span.second, .utc⟩
    (∀ w ∈ s.allowed ++ s.forbidden, w.interval.first ≤ w.interval.last) ∧ s.zone.Ordinary ∧
      s.zone.offsetAt m.instant ≠ s.zone.offsetAt (m.instant + Span.week) ∧
      s.nextAllowed m = .ok r ∧ m.instant ≤ x.instant ∧ x.instant < r.instant ∧
      s.allows x = true := by
  intro s m x r
  have hr : s.nextAllowed m = .ok r := nextAllowed_eq_ok_iff.2 (by decide +kernel +zetaReduce)
  refine ⟨?_, ?_, ?_, hr, ?_, ?_, ?_⟩
  all_goals decide +kernel +zetaReduce

end Schedule

end Timetable
