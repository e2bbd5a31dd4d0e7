import Mathlib.Order.Bounds.Defs
import Timetable.Clock.Zone
import Timetable.Proofs.Clock.Calendar

namespace Timetable.Zone

theorem lt_reading_add_day (z : Zone) (t : Int) : t < z.reading t + Span.day := by
  have h := z.natAbs_offsetAt_lt t
  simp only [reading, Span.second, Span.day]
  omega

theorem reading_lt_add_day (z : Zone) (t : Int) : z.reading t < t + Span.day := by
  have h := z.natAbs_offsetAt_lt t
  simp only [reading, Span.second, Span.day]
  omega

theorem reading_of_earliest? {z : Zone} {w t : Int} (h : z.earliest? w = some t) :
    z.reading t = w :=
  (earliest?_eq_some_iff.1 h).1

theorem earliest?_eq_none_iff {z : Zone} {w : Int} :
    z.earliest? w = none ↔ ∀ u, z.reading u ≠ w := by
  rw [earliest?, List.min?_eq_none_iff, List.eq_nil_iff_forall_not_mem]
  simp only [mem_instants, ne_eq]

theorem isLeast_instantOf {z : Zone} {d u : Int} {t : TimeOfDay}
    (h : z.reading u = Reading.on d t) :
    IsLeast {v | z.reading v = Reading.on d t} (z.instantOf d t) := by
  cases hearliest : z.earliest? (Reading.on d t) with
  | some v =>
    have hv : z.instantOf d t = v := by simp [instantOf, hearliest]
    rw [hv]
    exact earliest?_eq_some_iff.1 hearliest
  | none => exact absurd h (earliest?_eq_none_iff.1 hearliest u)

theorem reading_instantOf {z : Zone} {d u : Int} {t : TimeOfDay}
    (h : z.reading u = Reading.on d t) : z.reading (z.instantOf d t) = Reading.on d t :=
  (isLeast_instantOf h).1

theorem instantOf_cases (z : Zone) (d : Int) (t : TimeOfDay) :
    z.reading (z.instantOf d t) = Reading.on d t ∨
      z.reading (z.instantOf d t) = Reading.on d t + Span.hour ∨
      z.instantOf d t = Reading.on d t := by
  cases h : z.earliest? (Reading.on d t) with
  | some u =>
    left
    have hu : z.instantOf d t = u := by simp [instantOf, h]
    rw [hu]
    exact reading_of_earliest? h
  | none =>
    cases h' : z.earliest? (Reading.on d t + Span.hour) with
    | some u =>
      right; left
      have hu : z.instantOf d t = u := by simp [instantOf, h, h']
      rw [hu]
      exact reading_of_earliest? h'
    | none =>
      right; right
      simp [instantOf, h, h']

theorem on_lt_instantOf_add_day (z : Zone) (d : Int) (t : TimeOfDay) :
    Reading.on d t < z.instantOf d t + Span.day := by
  have h := z.reading_lt_add_day (z.instantOf d t)
  have hhour := Span.hour_pos
  have hday := Span.day_pos
  rcases z.instantOf_cases d t with hw | hw | hw
  · rwa [hw] at h
  · omega
  · rw [hw]
    omega

end Timetable.Zone
