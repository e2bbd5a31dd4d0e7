import Timetable.Proofs.Clock.Resolution

namespace Timetable.Zone

def Steady (z : Zone) (o a b : Int) : Prop :=
  ∀ t, a ≤ t → t ≤ b → z.offsetAt t = o

theorem offsetFrom_eq_of_no_change {base a b t : Int} {cs : List OffsetChange}
    (h : ∀ c ∈ cs, c.since * Span.second ≤ a ∨ b < c.since * Span.second) (ha : a ≤ t)
    (hb : t ≤ b) : offsetFrom base cs t = offsetFrom base cs a := by
  induction cs generalizing base with
  | nil => rfl
  | cons c cs ih =>
    obtain ⟨hc, hcs⟩ := List.forall_mem_cons.1 h
    rw [offsetFrom, offsetFrom, ih hcs]
    rcases hc with hc | hc
    · rw [if_neg (by omega), if_neg (by omega)]
    · rw [if_pos (by omega), if_pos (by omega)]

theorem steady_of_no_change {z : Zone} {a b : Int}
    (h : ∀ c ∈ z.changes, c.since * Span.second ≤ a ∨ b < c.since * Span.second) :
    z.Steady (z.offsetAt a) a b :=
  fun _ ha hb => offsetFrom_eq_of_no_change h ha hb

namespace Steady

variable {z : Zone} {o a b : Int}

theorem reading_eq (h : z.Steady o a b) {t : Int} (ha : a ≤ t) (hb : t ≤ b) :
    z.reading t = t + o * Span.second := by
  rw [reading, h t ha hb]

theorem earliest?_eq (h : z.Steady o a b) {w : Int} (ha : a + 2 * Span.day ≤ w - o * Span.second)
    (hb : w - o * Span.second ≤ b) : z.earliest? w = some (w - o * Span.second) := by
  have hday := Span.day_pos
  have ho := h (w - o * Span.second) (by omega) hb
  have hw := h.reading_eq (t := w - o * Span.second) (by omega) hb
  rw [earliest?_eq_some_iff]
  refine ⟨by omega, ?_⟩
  intro u hu
  have hu' := z.reading_lt_add_day u
  have hw' := z.lt_reading_add_day (w - o * Span.second)
  rcases Int.lt_or_le u (w - o * Span.second) with hlt | hle
  · have := h.reading_eq (t := u) (by omega) (by omega)
    omega
  · exact hle

theorem instantOf_eq (h : z.Steady o a b) {d : Int} {t : TimeOfDay}
    (ha : a + 2 * Span.day ≤ Reading.on d t - o * Span.second)
    (hb : Reading.on d t - o * Span.second ≤ b) :
    z.instantOf d t = Reading.on d t - o * Span.second := by
  simp [instantOf, h.earliest?_eq ha hb]

end Steady

def Constant (z : Zone) (o : Int) : Prop :=
  ∀ t, z.offsetAt t = o

namespace Constant

variable {z : Zone} {o : Int}

theorem steady (h : z.Constant o) (a b : Int) : z.Steady o a b :=
  fun t _ _ => h t

theorem reading_eq (h : z.Constant o) (t : Int) : z.reading t = t + o * Span.second := by
  rw [reading, h]

theorem instantOf_eq (h : z.Constant o) (d : Int) (t : TimeOfDay) :
    z.instantOf d t = Reading.on d t - o * Span.second :=
  (h.steady (Reading.on d t - o * Span.second - 2 * Span.day)
    (Reading.on d t - o * Span.second)).instantOf_eq (by omega) (Int.le_refl _)

end Constant

end Timetable.Zone
