import Timetable.Clock.ZoneTable
import Timetable.Proofs.Clock.Calendar
import Timetable.Proofs.Clock.Resolution
import Timetable.Schedule.Search

namespace Timetable

namespace DayInterval

theorem lt_instantOf_next_week (m : Moment) (target : Weekday) (t : TimeOfDay) :
    m.instant < m.zone.instantOf (Date.onOrAfter (Reading.date m.reading) target + 7) t := by
  have hn := Date.le_onOrAfter (Reading.date m.reading) target
  have hd := Reading.le_on (Date.onOrAfter (Reading.date m.reading) target + 7) t
  have hm := Reading.lt_date_add_one_mul m.reading
  have hi := m.zone.on_lt_instantOf_add_day (Date.onOrAfter (Reading.date m.reading) target + 7) t
  have hr : m.instant < m.reading + Span.day := m.zone.lt_reading_add_day m.instant
  simp only [Span.day] at *
  omega

theorem le_nextStart (w : DayInterval) (m : Moment) : m.instant ≤ (w.nextStart m).instant := by
  simp only [nextStart]
  split
  · assumption
  · exact Int.le_of_lt (lt_instantOf_next_week m w.day w.interval.first)

theorem lt_nextEnd (w : DayInterval) (m : Moment) : m.instant < (w.nextEnd m).instant := by
  have h := lt_instantOf_next_week m w.day w.interval.last
  have hminute := Span.minute_pos
  simp only [nextEnd]
  split
  · assumption
  · omega

end DayInterval

namespace Schedule

theorem allows_congr (s : Schedule) {a b : Moment} (h : a.instant = b.instant) :
    s.allows a = s.allows b := by
  have hz : a.inZone s.zone = b.inZone s.zone := by simp [Moment.inZone, h]
  simp only [allows, hz]

theorem allows_eq_true_iff {s : Schedule} {c : Moment} :
    s.allows c = true ↔ (∃ w ∈ s.allowed, w.contains ⟨c.instant, s.zone⟩ = true) ∧
      ∀ w ∈ s.forbidden, ¬ w.contains ⟨c.instant, s.zone⟩ = true := by
  simp [allows, Moment.inZone]

theorem mem_candidates {s : Schedule} {m c : Moment} :
    c ∈ s.candidates m ↔
      (∃ w ∈ s.allowed, w.nextStart m = c) ∨ (∃ w ∈ s.forbidden, w.nextEnd m = c) ∨ c = m := by
  simp [candidates]

theorem le_of_mem_candidates {s : Schedule} {m c : Moment} (h : c ∈ s.candidates m) :
    m.instant ≤ c.instant := by
  rcases mem_candidates.1 h with ⟨w, -, rfl⟩ | ⟨w, -, rfl⟩ | rfl
  · exact w.le_nextStart m
  · exact Int.le_of_lt (w.lt_nextEnd m)
  · exact Int.le_refl _

theorem nextAllowed_eq_ok_iff {s : Schedule} {m r : Moment} :
    s.nextAllowed m = .ok r ↔
      r.zone = m.zone ∧
      (∃ c ∈ s.candidates (m.inZone s.zone), s.allows c = true ∧ c.instant = r.instant) ∧
      ∀ c ∈ s.candidates (m.inZone s.zone), s.allows c = true → r.instant ≤ c.instant := by
  obtain ⟨t, z⟩ := r
  simp only [nextAllowed]
  split
  · next u hu =>
    rw [List.min?_eq_some_iff] at hu
    simp only [List.mem_map, List.mem_filter, and_assoc] at hu
    obtain ⟨⟨d, hd, hda, rfl⟩, hmin⟩ := hu
    simp only [Except.ok.injEq, Moment.mk.injEq]
    constructor
    · rintro ⟨rfl, rfl⟩
      exact ⟨rfl, ⟨d, hd, hda, rfl⟩, fun c hc ha => hmin _ ⟨c, hc, ha, rfl⟩⟩
    · rintro ⟨rfl, ⟨c, hc, ha, rfl⟩, hle⟩
      exact ⟨Int.le_antisymm (hmin _ ⟨c, hc, ha, rfl⟩) (hle d hd hda), rfl⟩
  · next hn =>
    simp only [List.min?_eq_none_iff, List.map_eq_nil_iff, List.filter_eq_nil_iff] at hn
    simp only [reduceCtorEq, false_iff]
    rintro ⟨-, ⟨c, hc, ha, -⟩, -⟩
    exact hn c hc ha

theorem nextAllowed_eq_error_iff {s : Schedule} {m : Moment} {e : Error} :
    s.nextAllowed m = .error e ↔
      e = .nothingAllowed ∧ ∀ c ∈ s.candidates (m.inZone s.zone), s.allows c = false := by
  simp only [nextAllowed]
  split
  · next u hu =>
    rw [List.min?_eq_some_iff] at hu
    obtain ⟨hm, -⟩ := hu
    obtain ⟨c, hc, -⟩ := List.mem_map.1 hm
    obtain ⟨hc, ha⟩ := List.mem_filter.1 hc
    simp only [reduceCtorEq, false_iff]
    rintro ⟨-, h⟩
    rw [h c hc] at ha
    cases ha
  · next hn =>
    simp only [List.min?_eq_none_iff, List.map_eq_nil_iff, List.filter_eq_nil_iff,
      Bool.not_eq_true] at hn
    constructor
    · intro h
      cases h
      exact ⟨rfl, hn⟩
    · rintro ⟨rfl, -⟩
      rfl

theorem nextAllowed_of_allows {s : Schedule} {m : Moment} (h : s.allows m = true) :
    s.nextAllowed m = .ok m := by
  rw [nextAllowed_eq_ok_iff]
  refine ⟨rfl, ⟨m.inZone s.zone, ?_, ?_, rfl⟩, ?_⟩
  · exact mem_candidates.2 (.inr (.inr rfl))
  · rwa [allows_inZone]
  · intro c hc _
    have hle := le_of_mem_candidates hc
    exact hle

theorem allows_of_nextAllowed {s : Schedule} {m r : Moment} (h : s.nextAllowed m = .ok r) :
    s.allows r = true := by
  obtain ⟨-, ⟨c, -, ha, hc⟩, -⟩ := nextAllowed_eq_ok_iff.1 h
  rwa [← s.allows_congr hc]

theorem le_of_nextAllowed {s : Schedule} {m r : Moment} (h : s.nextAllowed m = .ok r) :
    m.instant ≤ r.instant := by
  obtain ⟨-, ⟨c, hc, -, hr⟩, -⟩ := nextAllowed_eq_ok_iff.1 h
  have hle := le_of_mem_candidates hc
  rwa [hr] at hle

theorem zone_of_nextAllowed {s : Schedule} {m r : Moment} (h : s.nextAllowed m = .ok r) :
    r.zone = m.zone :=
  (nextAllowed_eq_ok_iff.1 h).1

theorem instant_eq_iff_allows {s : Schedule} {m r : Moment} (h : s.nextAllowed m = .ok r) :
    r.instant = m.instant ↔ s.allows m = true := by
  constructor
  · intro hi
    rw [← s.allows_congr hi]
    exact allows_of_nextAllowed h
  · intro ha
    rw [nextAllowed_of_allows ha] at h
    cases h
    rfl

theorem wait_of_nextAllowed {s : Schedule} {m r : Moment} (h : s.nextAllowed m = .ok r) :
    s.wait m = .ok (r.instant - m.instant).toNat := by
  unfold wait
  split
  · next ha =>
    rw [(instant_eq_iff_allows h).2 ha, Int.sub_self]
    rfl
  · rw [h]
    rfl

theorem wait_eq_error_iff {s : Schedule} {m : Moment} {e : Error} :
    s.wait m = .error e ↔ s.nextAllowed m = .error e := by
  cases h : s.nextAllowed m with
  | ok r => simp [wait_of_nextAllowed h]
  | error e' =>
    have ha : ¬ s.allows m = true := by
      intro ha
      rw [nextAllowed_of_allows ha] at h
      cases h
    simp [wait, ha, h, Except.map]

theorem wait_eq_map (s : Schedule) (m : Moment) :
    s.wait m = ((s.nextAllowed m).map Moment.instant).map fun t => (t - m.instant).toNat := by
  cases hr : s.nextAllowed m with
  | ok r => exact wait_of_nextAllowed hr
  | error e => exact wait_eq_error_iff.2 hr

theorem nextAllowed_sound (s : Schedule) (m : Moment) :
    (∀ r, s.nextAllowed m = .ok r →
      m.instant ≤ r.instant ∧ s.allows r = true ∧ r.zone = m.zone ∧
      (r.instant = m.instant ↔ s.allows m = true) ∧ s.nextAllowed r = .ok r ∧
      ∃ d : Nat, s.wait m = .ok d ∧ m.instant + d = r.instant ∧ (d = 0 ↔ s.allows m = true)) ∧
    ∀ e, s.wait m = .error e ↔ s.nextAllowed m = .error e := by
  refine ⟨?_, fun e => wait_eq_error_iff⟩
  intro r h
  have hle := le_of_nextAllowed h
  have ha := allows_of_nextAllowed h
  have hself := instant_eq_iff_allows h
  refine ⟨hle, ha, zone_of_nextAllowed h, hself, nextAllowed_of_allows ha,
    (r.instant - m.instant).toNat, wait_of_nextAllowed h, ?_, ?_⟩
  · omega
  · rw [← hself]
    omega

theorem nextAllowed_sound_at_skipped_start :
    let s : Schedule :=
      (empty .europeKyiv).allow ⟨.sunday, { hour := 3, minute := 30 }, { hour := 5, minute := 0 }⟩
    let m : Moment := ⟨1711800000 * Span.second, .utc⟩
    let r : Moment := ⟨1711848600 * Span.second, .utc⟩
    s.nextAllowed m = .ok r ∧ m.instant ≤ r.instant ∧ s.allows r = true ∧ r.zone = m.zone ∧
      s.nextAllowed r = .ok r ∧ ∃ d : Nat, s.wait m = .ok d ∧ m.instant + d = r.instant := by
  intro s m r
  have h : s.nextAllowed m = .ok r := nextAllowed_eq_ok_iff.2 (by decide +kernel +zetaReduce)
  obtain ⟨hle, ha, hz, -, hr, d, hw, hd, -⟩ := (nextAllowed_sound s m).1 r h
  exact ⟨h, hle, ha, hz, hr, d, hw, hd⟩

end Schedule

end Timetable
