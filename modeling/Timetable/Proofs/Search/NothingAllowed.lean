import Mathlib.Data.Int.Range
import Timetable.Proofs.Clock.Ordinary
import Timetable.Proofs.Search.OpenReadings
import Timetable.Proofs.Search.Soundness

namespace Timetable

namespace DayInterval

variable {w : DayInterval} {m : Moment}

theorem exists_nextStart_eq_instantOf (w : DayInterval) (m : Moment) :
    ∃ d, Reading.date m.reading ≤ d ∧ d < Reading.date m.reading + 14 ∧ Date.weekday d = w.day ∧
      (w.nextStart m).instant = m.zone.instantOf d w.interval.first := by
  have hle := Date.le_onOrAfter (Reading.date m.reading) w.day
  have hlt := Date.onOrAfter_lt (Reading.date m.reading) w.day
  have hday := Date.weekday_onOrAfter (Reading.date m.reading) w.day
  simp only [nextStart]
  split
  · exact ⟨_, hle, by omega, hday, rfl⟩
  · exact ⟨_, by omega, by omega, (Date.weekday_add_seven _).trans hday, rfl⟩

theorem exists_nextEnd_eq_instantOf (w : DayInterval) (m : Moment) :
    ∃ d, Reading.date m.reading ≤ d ∧ d < Reading.date m.reading + 14 ∧ Date.weekday d = w.day ∧
      (w.nextEnd m).instant = m.zone.instantOf d w.interval.last + Span.minute := by
  have hle := Date.le_onOrAfter (Reading.date m.reading) w.day
  have hlt := Date.onOrAfter_lt (Reading.date m.reading) w.day
  have hday := Date.weekday_onOrAfter (Reading.date m.reading) w.day
  simp only [nextEnd]
  split
  · exact ⟨_, hle, by omega, hday, rfl⟩
  · exact ⟨_, by omega, by omega, (Date.weekday_add_seven _).trans hday, rfl⟩

theorem starts_reading_nextStart
    (h : ∀ d, Reading.date m.reading ≤ d → d < Reading.date m.reading + 14 →
      Date.weekday d = w.day → ∃ t, m.zone.reading t = Reading.on d w.interval.first) :
    w.Starts (w.nextStart m).reading := by
  obtain ⟨d, hle, hlt, hday, hnext⟩ := w.exists_nextStart_eq_instantOf m
  obtain ⟨t, ht⟩ := h d hle hlt hday
  refine ⟨d, hday, ?_⟩
  rw [Moment.reading, hnext, zone_nextStart, Zone.reading_instantOf ht]

theorem ends_reading_nextEnd
    (h : ∀ d, Reading.date m.reading ≤ d → d < Reading.date m.reading + 14 →
      Date.weekday d = w.day →
        m.zone.reading (m.zone.instantOf d w.interval.last + Span.minute) =
          Reading.on d w.interval.last + Span.minute) :
    w.Ends (w.nextEnd m).reading := by
  obtain ⟨d, hle, hlt, hday, hnext⟩ := w.exists_nextEnd_eq_instantOf m
  refine ⟨d, hday, ?_⟩
  rw [Moment.reading, hnext, zone_nextEnd, h d hle hlt hday]

end DayInterval

namespace Schedule

theorem never_allows_of_nextAllowed_error (s : Schedule) (m : Moment)
    (hs : ∀ w ∈ s.allowed ++ s.forbidden, w.interval.first.hour ≤ w.interval.last.hour)
    (hstarts : ∀ w ∈ s.allowed, ∀ d, Reading.date (s.zone.reading m.instant) ≤ d →
      d < Reading.date (s.zone.reading m.instant) + 14 → Date.weekday d = w.day →
        ∃ t, s.zone.reading t = Reading.on d w.interval.first)
    (hends : ∀ w ∈ s.forbidden, ∀ d, Reading.date (s.zone.reading m.instant) ≤ d →
      d < Reading.date (s.zone.reading m.instant) + 14 → Date.weekday d = w.day →
        s.zone.reading (s.zone.instantOf d w.interval.last + Span.minute) =
          Reading.on d w.interval.last + Span.minute)
    {e : Error} (he : s.nextAllowed m = .error e ∨ s.wait m = .error e) (x : Moment) :
    s.allows x = false := by
  rw [wait_eq_error_iff, or_self] at he
  obtain ⟨-, hnone⟩ := nextAllowed_eq_error_iff.1 he
  have hclosed {c : Moment} (hc : c ∈ s.candidates (m.inZone s.zone)) :
      ¬ s.Open (s.zone.reading c.instant) := by
    rw [← allows_iff_open hs, hnone c hc]
    exact Bool.false_ne_true
  rw [← Bool.not_eq_true, allows_iff_open hs]
  intro hx
  -- The boundary before `x` recurs at its candidate, whole weeks away.
  obtain ⟨b, hbx, hboundary, hopen⟩ := hx.exists_boundary
  have hb := hopen b (Int.le_refl b) hbx
  rcases hboundary with ⟨w, hw, hstart⟩ | ⟨g, hg, hend⟩
  · refine hclosed (mem_candidates.2 (.inl ⟨w, hw, rfl⟩)) ?_
    obtain ⟨k, hk⟩ := hstart.exists_weeks
      (DayInterval.starts_reading_nextStart (m := m.inZone s.zone) (hstarts w hw))
    change s.Open (w.nextStart (m.inZone s.zone)).reading
    rwa [hk, open_add_weeks_iff]
  · refine hclosed (mem_candidates.2 (.inr (.inl ⟨g, hg, rfl⟩))) ?_
    obtain ⟨k, hk⟩ := hend.exists_weeks
      (DayInterval.ends_reading_nextEnd (m := m.inZone s.zone) (hends g hg))
    change s.Open (g.nextEnd (m.inZone s.zone)).reading
    rwa [hk, open_add_weeks_iff]

theorem never_allows_of_nextAllowed_error_with_repeated_start :
    let s : Schedule :=
      ⟨[⟨.sunday, { hour := 3, minute := 30 }, { hour := 4, minute := 30 }⟩],
        [⟨.sunday, { hour := 3, minute := 0 }, { hour := 4, minute := 59 }⟩], .europeKyiv⟩
    let m : Moment := ⟨1288400000 * Span.second, .utc⟩
    s.nextAllowed m = .error .nothingAllowed ∧ ∀ x, s.allows x = false := by
  intro s m
  have hs : ∀ w ∈ s.allowed ++ s.forbidden, w.interval.first.hour ≤ w.interval.last.hour := by
    decide +kernel +zetaReduce
  have hstarts : ∀ w ∈ s.allowed, ∀ d, Reading.date (s.zone.reading m.instant) ≤ d →
      d < Reading.date (s.zone.reading m.instant) + 14 → Date.weekday d = w.day →
        s.zone.reading (s.zone.instantOf d w.interval.first) =
          Reading.on d w.interval.first := by
    decide +kernel +zetaReduce
  have hends : ∀ w ∈ s.forbidden, ∀ d, Reading.date (s.zone.reading m.instant) ≤ d →
      d < Reading.date (s.zone.reading m.instant) + 14 → Date.weekday d = w.day →
        s.zone.reading (s.zone.instantOf d w.interval.last + Span.minute) =
          Reading.on d w.interval.last + Span.minute := by
    decide +kernel +zetaReduce
  have he : s.nextAllowed m = .error .nothingAllowed :=
    nextAllowed_eq_error_iff.2 (by decide +kernel +zetaReduce)
  refine ⟨he, never_allows_of_nextAllowed_error s m hs ?_ hends (.inl he)⟩
  exact fun w hw d hd hd' hday => ⟨_, hstarts w hw d hd hd' hday⟩

theorem nextAllowed_error_before_repeated_hour :
    let s : Schedule :=
      ⟨[⟨.sunday, { hour := 3, minute := 30 }, { hour := 4, minute := 30 }⟩],
        [⟨.sunday, { hour := 3, minute := 30 }, { hour := 3, minute := 59 }⟩], .europeKyiv⟩
    let m : Moment := ⟨1288400000 * Span.second, .utc⟩
    let x : Moment := ⟨1288490400 * Span.second, .utc⟩
    (∀ w ∈ s.allowed ++ s.forbidden, w.interval.first ≤ w.interval.last) ∧ s.zone.Ordinary ∧
      s.zone.offsetAt (m.instant - Span.day) ≠ s.zone.offsetAt (m.instant + 8 * Span.day) ∧
      s.nextAllowed m = .error .nothingAllowed ∧ s.wait m = .error .nothingAllowed ∧
      m.instant ≤ x.instant ∧ x.instant < m.instant + Span.week ∧ s.allows x = true := by
  intro s m x
  have he : s.nextAllowed m = .error .nothingAllowed :=
    nextAllowed_eq_error_iff.2 (by decide +kernel +zetaReduce)
  refine ⟨?_, ?_, ?_, he, wait_eq_error_iff.2 he, ?_, ?_, ?_⟩
  all_goals decide +kernel +zetaReduce

end Schedule

end Timetable
