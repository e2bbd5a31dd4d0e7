import Mathlib.Data.Finset.Max
import Mathlib.Data.Int.Order.Basic
import Mathlib.Order.Bounds.Basic
import Timetable.Proofs.Interval.Coverage
import Timetable.Proofs.Interval.NextOccurrence
import Timetable.Proofs.Search.Soundness

namespace Timetable

theorem Moment.instant_inZone (m : Moment) (z : Zone) : (m.inZone z).instant = m.instant := rfl

namespace Schedule

variable {s : Schedule} {m : Moment} {o : Int}

theorem allows_add_week {t : Int} {z : Zone} (ht : s.zone.offsetAt t = o)
    (ht' : s.zone.offsetAt (t + Span.week) = o) :
    s.allows ⟨t + Span.week, z⟩ = s.allows ⟨t, z⟩ := by
  have hr : s.zone.reading (t + Span.week) = s.zone.reading t + Span.week := by
    rw [Zone.reading, Zone.reading, ht, ht']
    omega
  have hc (w : DayInterval) : w.contains ⟨t + Span.week, s.zone⟩ = w.contains ⟨t, s.zone⟩ := by
    apply w.contains_congr
    · simp only [Moment.reading, hr, Reading.weekday_add_week]
    · simp only [Moment.reading, hr, Reading.timeOfDay_add_week]
  simp only [allows, Moment.inZone, hc]

theorem reading_at (h : (m.inZone s.zone).Steady o) {t : Int} (ht : m.instant ≤ t)
    (ht' : t ≤ m.instant + Span.week) :
    Moment.reading ⟨t, s.zone⟩ = t + o * Span.second := by
  refine Zone.Steady.reading_eq h ?_ ?_ <;>
  · simp only [Moment.instant_inZone, Span.day, Span.week] at *
    omega

theorem exists_covering_candidate (h : (m.inZone s.zone).Steady o)
    (hs : ∀ w ∈ s.allowed, w.interval.first.hour ≤ w.interval.last.hour) {x : Int}
    (hx : m.instant ≤ x) (hx' : x < m.instant + Span.week) (ha : s.allows ⟨x, m.zone⟩ = true) :
    ∃ w ∈ s.allowed, ∃ c ∈ s.candidates (m.inZone s.zone), c.instant ≤ x ∧
      ∀ t, c.instant ≤ t → t ≤ x → w.contains ⟨t, s.zone⟩ = true := by
  obtain ⟨⟨w, hw, hc⟩, -⟩ := allows_eq_true_iff.1 ha
  obtain ⟨d, hd, hfirst, hlast⟩ := (DayInterval.contains_iff_occurrence (hs w hw) _).1 hc
  have hm := Moment.instant_inZone m s.zone
  have hrx : Moment.reading ⟨x, s.zone⟩ = x + o * Span.second := reading_at h hx (by omega)
  rw [hrx] at hfirst hlast
  -- From the start of the occurrence or from the moment, whichever is later, `w` contains all up to `x`.
  have hcover (t : Int) (ht : m.instant ≤ t) (htx : t ≤ x)
      (hft : Reading.on d w.interval.first ≤ t + o * Span.second) :
      w.contains ⟨t, s.zone⟩ = true := by
    have hrt : Moment.reading ⟨t, s.zone⟩ = t + o * Span.second := reading_at h ht (by omega)
    rw [DayInterval.contains_iff_occurrence (hs w hw), hrt]
    exact ⟨d, hd, hft, by omega⟩
  rcases Int.le_total m.instant (Reading.on d w.interval.first - o * Span.second) with hle | hle
  · have hstart := DayInterval.nextStart_eq h hd hle (by omega)
    refine ⟨w, hw, w.nextStart (m.inZone s.zone), mem_candidates.2 (.inl ⟨w, hw, rfl⟩), ?_, ?_⟩
    · omega
    · intro t ht htx
      exact hcover t (by omega) htx (by omega)
  · refine ⟨w, hw, m.inZone s.zone, mem_candidates.2 (.inr (.inr rfl)), hx, ?_⟩
    intro t ht htx
    exact hcover t ht htx (by omega)

theorem exists_end_candidate (h : (m.inZone s.zone).Steady o) {w : DayInterval}
    (hw : w ∈ s.forbidden) (hi : w.interval.first.hour ≤ w.interval.last.hour) {t x : Int}
    (ht : m.instant ≤ t) (htx : t ≤ x) (hx' : x < m.instant + Span.week)
    (hct : w.contains ⟨t, s.zone⟩ = true) (hcx : ¬ w.contains ⟨x, s.zone⟩ = true) :
    ∃ c ∈ s.candidates (m.inZone s.zone), t < c.instant ∧ c.instant ≤ x := by
  have hrt : Moment.reading ⟨t, s.zone⟩ = t + o * Span.second := reading_at h ht (by omega)
  have hrx : Moment.reading ⟨x, s.zone⟩ = x + o * Span.second := reading_at h (by omega) (by omega)
  rw [DayInterval.contains_iff_occurrence hi, hrt] at hct
  rw [DayInterval.contains_iff_occurrence hi, hrx] at hcx
  obtain ⟨d, hd, hfirst, hlast⟩ := hct
  have hpast : Reading.on d w.interval.last + Span.minute ≤ x + o * Span.second := by
    by_contra hlt
    exact hcx ⟨d, hd, by omega, by omega⟩
  have hm := Moment.instant_inZone m s.zone
  have hend := DayInterval.nextEnd_eq h hd (by omega) (by omega)
  exact ⟨w.nextEnd (m.inZone s.zone), mem_candidates.2 (.inr (.inl ⟨w, hw, rfl⟩)), by omega, by omega⟩

theorem exists_candidate_le (h : (m.inZone s.zone).Steady o)
    (hs : ∀ w ∈ s.allowed ++ s.forbidden, w.interval.first.hour ≤ w.interval.last.hour) {x : Int}
    (hx : m.instant ≤ x) (hx' : x < m.instant + Span.week) (ha : s.allows ⟨x, m.zone⟩ = true) :
    ∃ c ∈ s.candidates (m.inZone s.zone), s.allows c = true ∧ c.instant ≤ x := by
  have hallowed (w) (hw : w ∈ s.allowed) := hs w (List.mem_append_left _ hw)
  have hforbidden (w) (hw : w ∈ s.forbidden) := hs w (List.mem_append_right _ hw)
  obtain ⟨w, hw, c, hc, hcx, hcover⟩ := exists_covering_candidate h hallowed hx hx' ha
  have hfree := (allows_eq_true_iff.1 ha).2
  let upTo := (s.candidates (m.inZone s.zone)).toFinset.filter fun b =>
    c.instant ≤ b.instant ∧ b.instant ≤ x
  have hne : upTo.Nonempty := ⟨c, by simp [upTo, hc, hcx]⟩
  obtain ⟨b, hb, hmax⟩ := upTo.exists_max_image Moment.instant hne
  simp only [upTo, Finset.mem_filter, List.mem_toFinset, and_imp] at hb hmax
  obtain ⟨hb, hcb, hbx⟩ := hb
  have hmb := le_of_mem_candidates hb
  rw [Moment.instant_inZone] at hmb
  refine ⟨b, hb, ?_, hbx⟩
  rw [allows_eq_true_iff]
  refine ⟨⟨w, hw, hcover b.instant hcb hbx⟩, ?_⟩
  -- A forbidden interval around the last candidate would end at a later one that is still not past `x`.
  intro g hg hgb
  obtain ⟨e, he, hbe, hex⟩ :=
    exists_end_candidate h hg (hforbidden g hg) hmb hbx hx' hgb (hfree g hg)
  have hle := hmax e he (by omega) hex
  omega

theorem lt_week_of_nextAllowed (h : (m.inZone s.zone).Steady o) {r : Moment}
    (hr : s.nextAllowed m = .ok r) : r.instant < m.instant + Span.week := by
  have hweek := Span.week_pos
  have hself := instant_eq_iff_allows hr
  obtain ⟨-, ⟨c, hc, ha, hcr⟩, -⟩ := nextAllowed_eq_ok_iff.1 hr
  have hle : r.instant ≤ m.instant + Span.week := by
    rcases mem_candidates.1 hc with ⟨w, -, rfl⟩ | ⟨w, -, rfl⟩ | rfl
    · obtain ⟨d, -, -, -, hlt⟩ := DayInterval.exists_nextStart (w := w) h
      rw [← hcr]
      exact Int.le_of_lt hlt
    · obtain ⟨d, -, -, -, hle⟩ := DayInterval.exists_nextEnd (w := w) h
      rw [← hcr]
      exact hle
    · have : r.instant = m.instant := hcr.symm
      omega
  -- A whole week ahead the clock reads the same time of the same weekday as at the moment itself.
  rcases Int.lt_or_eq_of_le hle with hlt | heq
  · exact hlt
  · have hm : s.zone.offsetAt m.instant = o := by
      refine h m.instant ?_ ?_ <;> simp only [Moment.inZone, Span.day] <;> omega
    have hm' : s.zone.offsetAt (m.instant + Span.week) = o := by
      refine h (m.instant + Span.week) ?_ ?_ <;> simp only [Moment.inZone, Span.day, Span.week] <;> omega
    have hsame : s.allows ⟨m.instant + Span.week, m.zone⟩ = s.allows m := allows_add_week hm hm'
    have hallows : s.allows m = true := by
      rw [← hsame, ← ha]
      exact s.allows_congr (by rw [hcr, heq])
    have := hself.2 hallows
    omega

def allowedWithinWeek (s : Schedule) (m : Moment) : Set Int :=
  {t | m.instant ≤ t ∧ t < m.instant + Span.week ∧ s.allows ⟨t, m.zone⟩ = true}

theorem mem_allowedWithinWeek (h : (m.inZone s.zone).Steady o) {r : Moment}
    (hr : s.nextAllowed m = .ok r) : r.instant ∈ s.allowedWithinWeek m := by
  refine ⟨le_of_nextAllowed hr, lt_week_of_nextAllowed h hr, ?_⟩
  rw [← allows_of_nextAllowed hr]
  exact s.allows_congr rfl

theorem nextAllowed_of_isLeast (h : (m.inZone s.zone).Steady o)
    (hs : ∀ w ∈ s.allowed ++ s.forbidden, w.interval.first.hour ≤ w.interval.last.hour) {r : Moment}
    (hz : r.zone = m.zone) (hr : IsLeast (s.allowedWithinWeek m) r.instant) :
    s.nextAllowed m = .ok r := by
  obtain ⟨⟨hle, hlt, ha⟩, hmin⟩ := hr
  have hbefore (c) (hc : c ∈ s.candidates (m.inZone s.zone)) (hca : s.allows c = true) :
      r.instant ≤ c.instant := by
    have hmc := le_of_mem_candidates hc
    rw [Moment.instant_inZone] at hmc
    by_contra hcr
    refine hcr (hmin ⟨hmc, by omega, ?_⟩)
    rw [← hca]
    exact s.allows_congr rfl
  obtain ⟨c, hc, hca, hcr⟩ := exists_candidate_le h hs hle hlt ha
  rw [nextAllowed_eq_ok_iff]
  exact ⟨hz, ⟨c, hc, hca, le_antisymm hcr (hbefore c hc hca)⟩, hbefore⟩

theorem nextAllowed_exact_while_steady (s : Schedule) (m : Moment) (o : Int)
    (hs : ∀ w ∈ s.allowed ++ s.forbidden, w.interval.first.hour ≤ w.interval.last.hour)
    (ho : ∀ t, m.instant - 3 * Span.day ≤ t → t ≤ m.instant + 8 * Span.day →
      s.zone.offsetAt t = o) :
    (∀ r, s.nextAllowed m = .ok r ↔
      r.zone = m.zone ∧ IsLeast (s.allowedWithinWeek m) r.instant) ∧
    (s.nextAllowed m = .error .nothingAllowed ↔
      ∀ t, m.instant ≤ t → t < m.instant + Span.week → s.allows ⟨t, m.zone⟩ = false) := by
  have h : (m.inZone s.zone).Steady o := ho
  have hcomplete {x : Int} (hx : x ∈ s.allowedWithinWeek m) :
      ∃ c ∈ s.candidates (m.inZone s.zone), s.allows c = true ∧ c.instant ≤ x :=
    exists_candidate_le h hs hx.1 hx.2.1 hx.2.2
  constructor
  · intro r
    constructor
    · intro hr
      refine ⟨zone_of_nextAllowed hr, mem_allowedWithinWeek h hr, ?_⟩
      intro x hx
      obtain ⟨c, hc, hca, hcx⟩ := hcomplete hx
      exact ((nextAllowed_eq_ok_iff.1 hr).2.2 c hc hca).trans hcx
    · rintro ⟨hz, hr⟩
      exact nextAllowed_of_isLeast h hs hz hr
  · rw [nextAllowed_eq_error_iff]
    constructor
    · rintro ⟨-, hnone⟩ t ht ht'
      rw [← Bool.not_eq_true]
      intro ha
      obtain ⟨c, hc, hca, -⟩ := hcomplete ⟨ht, ht', ha⟩
      rw [hnone c hc] at hca
      cases hca
    · intro hnone
      cases hr : s.nextAllowed m with
      | ok r =>
        obtain ⟨hle, hlt, ha⟩ := mem_allowedWithinWeek h hr
        rw [hnone r.instant hle hlt] at ha
        cases ha
      | error e => exact ⟨rfl, (nextAllowed_eq_error_iff.1 hr).2⟩

theorem nextAllowed_exact_while_steady_at_midnight :
    let s : Schedule := ⟨[⟨.saturday, .wholeDay⟩, ⟨.sunday, .wholeDay⟩],
      [⟨.saturday, { hour := 20, minute := 0 }, .endOfDay⟩,
        ⟨.sunday, .startOfDay, { hour := 6, minute := 0 }⟩], .europeKyiv⟩
    let m : Moment := ⟨1483819230 * Span.second + 500000000, .utc⟩
    let r : Moment := ⟨1483848060 * Span.second, .utc⟩
    (∀ w ∈ s.allowed ++ s.forbidden, w.interval.first.hour ≤ w.interval.last.hour) ∧
    (∀ t, m.instant - 3 * Span.day ≤ t → t ≤ m.instant + 8 * Span.day →
      s.zone.offsetAt t = 7200) ∧
    s.nextAllowed m = .ok r ∧ IsLeast (s.allowedWithinWeek m) r.instant := by
  intro s m r
  have hs : ∀ w ∈ s.allowed ++ s.forbidden, w.interval.first.hour ≤ w.interval.last.hour := by
    decide +kernel +zetaReduce
  have ho : s.zone.Steady 7200 (m.instant - 3 * Span.day) (m.instant + 8 * Span.day) := by
    have hsteady : s.zone.offsetAt (m.instant - 3 * Span.day) = 7200 := by
      decide +kernel +zetaReduce
    rw [← hsteady]
    exact Zone.steady_of_no_change (by decide +kernel +zetaReduce)
  have hr : s.nextAllowed m = .ok r := nextAllowed_eq_ok_iff.2 (by decide +kernel +zetaReduce)
  exact ⟨hs, ho, hr, (((nextAllowed_exact_while_steady s m 7200 hs ho).1 r).1 hr).2⟩

end Schedule

end Timetable
