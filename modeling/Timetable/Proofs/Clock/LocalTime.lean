import Mathlib.Data.Int.LeastGreatest
import Timetable.Proofs.Clock.Ordinary

namespace Timetable.Zone

structure Mild (z : Zone) : Prop where
  apart : z.changes.Pairwise fun c c' => c.since + 86400 ≤ c'.since
  step_le : z.offsets.IsChain fun o o' => (o' - o).natAbs ≤ 3600

instance (z : Zone) : Decidable z.Mild :=
  decidable_of_iff
    (z.changes.Pairwise (fun c c' => c.since + 86400 ≤ c'.since) ∧
      z.offsets.IsChain fun o o' => (o' - o).natAbs ≤ 3600)
    ⟨fun h => ⟨h.1, h.2⟩, fun h => ⟨h.1, h.2⟩⟩

def SkipsAt (z : Zone) (c w : Int) : Prop :=
  z.reading (c - 1) < w ∧ w < z.reading c

def RepeatsAt (z : Zone) (c w : Int) : Prop :=
  z.reading c ≤ w ∧ w ≤ z.reading (c - 1)

theorem exists_skipsAt {z : Zone} {w : Int} (h : ∀ u, z.reading u ≠ w) : ∃ c, z.SkipsAt c w := by
  obtain ⟨c, hc, hleast⟩ := Int.exists_least_of_bdd (P := fun u => w ≤ z.reading u)
    ⟨w - Span.day, fun u hu => by have := z.reading_lt_add_day u; omega⟩
    ⟨w + Span.day, by have := z.lt_reading_add_day (w + Span.day); omega⟩
  have hbefore : z.reading (c - 1) < w := by
    by_contra hle
    have := hleast (c - 1) (Int.not_lt.1 hle)
    omega
  exact ⟨c, hbefore, Std.lt_of_le_of_ne hc (h c).symm⟩

namespace Mild

variable {z : Zone} {c t u w : Int}

theorem exists_reading_eq_ite (h : z.Mild) (a : Int) :
    ∃ c o o', (o' - o).natAbs ≤ 3600 ∧ ∀ t, a ≤ t → t < a + Span.day →
      z.reading t = t + (if t < c then o else o') * Span.second := by
  have hapart : z.changes.Pairwise fun c c' =>
      c.since * Span.second + Span.day ≤ c'.since * Span.second := by
    refine h.apart.imp fun hle => ?_
    simp only [Span.day, Span.second]
    omega
  obtain ⟨c, o, o', hstep, hwindow⟩ := exists_offsetFrom_eq_ite hapart h.step_le a
  exact ⟨c, o, o', hstep, fun t ha hb => by rw [reading, offsetAt, hwindow t ha hb]⟩

section Advance

theorem reading_add_le (h : z.Mild) (htu : t ≤ u) (hut : u < t + Span.day) :
    z.reading t + (u - t) ≤ z.reading u + Span.hour := by
  obtain ⟨c, o, o', hstep, hwindow⟩ := h.exists_reading_eq_ite t
  have ht := hwindow t (Int.le_refl t) (by omega)
  have hu := hwindow u htu hut
  simp only [Span.second, Span.hour] at *
  split at ht <;> split at hu <;> omega

theorem reading_le_add_hour (h : z.Mild) (htu : t ≤ u) :
    z.reading t ≤ z.reading u + Span.hour := by
  induction hn : (u - t).toNat using Nat.strongRecOn generalizing u with
  | _ n ih =>
    rcases Int.lt_or_le u (t + Span.day) with hlt | hle
    · have := h.reading_add_le htu hlt
      omega
    · have hearlier := ih (u - 12 * Span.hour - t).toNat
        (by simp only [Span.day, Span.hour] at *; omega)
        (by simp only [Span.day, Span.hour] at *; omega) rfl
      have hlast := h.reading_add_le (t := u - 12 * Span.hour) (u := u)
        (by simp only [Span.hour]; omega) (by simp only [Span.day, Span.hour]; omega)
      simp only [Span.hour] at *
      omega

theorem reading_lt_of_add_hour_lt (h : z.Mild) (htu : t + Span.hour < u) :
    z.reading t < z.reading u := by
  have hhour := Span.hour_pos
  rcases Int.lt_or_le u (t + Span.day) with hlt | hle
  · have := h.reading_add_le (by omega) hlt
    omega
  · have hearlier := h.reading_le_add_hour (t := t) (u := u - 12 * Span.hour)
      (by simp only [Span.day, Span.hour] at *; omega)
    have hlast := h.reading_add_le (t := u - 12 * Span.hour) (u := u)
      (by omega) (by simp only [Span.day, Span.hour]; omega)
    omega

end Advance

theorem exists_offsets (h : z.Mild) (hc : z.offsetAt (c - 1) ≠ z.offsetAt c) :
    ∃ o o', (o' - o).natAbs ≤ 3600 ∧
      (∀ t, c - 3 * Span.hour ≤ t → t < c → z.reading t = t + o * Span.second) ∧
      ∀ t, c ≤ t → t < c + 3 * Span.hour → z.reading t = t + o' * Span.second := by
  obtain ⟨c', o, o', hstep, hwindow⟩ := h.exists_reading_eq_ite (c - 3 * Span.hour)
  have hbefore := hwindow (c - 1) (by simp only [Span.hour]; omega)
    (by simp only [Span.hour, Span.day]; omega)
  have hafter := hwindow c (by simp only [Span.hour]; omega)
    (by simp only [Span.hour, Span.day]; omega)
  obtain rfl : c' = c := by
    simp only [reading, Span.second] at hbefore hafter
    split at hbefore <;> split at hafter <;> omega
  refine ⟨o, o', hstep, fun t ht htc => ?_, fun t htc ht => ?_⟩
  · rw [hwindow t ht (by simp only [Span.hour, Span.day] at *; omega), if_pos htc]
  · rw [hwindow t (by simp only [Span.hour] at *; omega)
      (by simp only [Span.hour, Span.day] at *; omega), if_neg (by omega)]

theorem exists_reading_eq_of_repeatsAt (h : z.Mild) (hc : z.RepeatsAt c w) :
    (∃ t, t < c ∧ z.reading t = w) ∧ ∃ u, c ≤ u ∧ z.reading u = w := by
  obtain ⟨hlow, hhigh⟩ := hc
  have hne : z.offsetAt (c - 1) ≠ z.offsetAt c := by
    simp only [reading, Span.second] at hlow hhigh
    omega
  obtain ⟨o, o', hstep, hbefore, hafter⟩ := h.exists_offsets hne
  rw [hbefore (c - 1) (by simp only [Span.hour]; omega) (by omega)] at hhigh
  rw [hafter c (by omega) (by simp only [Span.hour]; omega)] at hlow
  refine ⟨⟨w - o * Span.second, by omega, ?_⟩, w - o' * Span.second, by omega, ?_⟩
  · rw [hbefore _ (by simp only [Span.second, Span.hour] at *; omega) (by omega)]
    omega
  · rw [hafter _ (by omega) (by simp only [Span.second, Span.hour] at *; omega)]
    omega

theorem offsetAt_ne_of_skipsAt (hc : z.SkipsAt c w) : z.offsetAt (c - 1) ≠ z.offsetAt c := by
  obtain ⟨hbefore, hafter⟩ := hc
  simp only [reading, Span.second] at hbefore hafter
  omega

theorem reading_ne_of_skipsAt (h : z.Mild) (hc : z.SkipsAt c w) (u : Int) : z.reading u ≠ w := by
  obtain ⟨o, o', -, hbefore, hafter⟩ := h.exists_offsets (offsetAt_ne_of_skipsAt hc)
  obtain ⟨hlow, hhigh⟩ := hc
  have hhour := Span.hour_pos
  have hlast := hbefore (c - 1) (by omega) (by omega)
  have hfirst := hafter c (by omega) (by omega)
  rcases Int.lt_or_le u c with huc | hcu
  · rcases Int.lt_or_le u (c - 3 * Span.hour) with hfar | hnear
    · have := h.reading_lt_of_add_hour_lt (t := u) (u := c - 1) (by omega)
      omega
    · have := hbefore u hnear huc
      omega
  · rcases Int.lt_or_le u (c + 3 * Span.hour) with hnear | hfar
    · have := hafter u hcu hnear
      omega
    · have := h.reading_lt_of_add_hour_lt (t := c) (u := u) (by omega)
      omega

theorem exists_iff_not_skipsAt (h : z.Mild) : (∃ u, z.reading u = w) ↔ ¬ ∃ c, z.SkipsAt c w := by
  constructor
  · rintro ⟨u, hu⟩ ⟨c, hc⟩
    exact h.reading_ne_of_skipsAt hc u hu
  · intro hnot
    by_contra hnone
    exact hnot (exists_skipsAt (not_exists.1 hnone))

theorem exists_hour_later (h : z.Mild) (hc : z.SkipsAt c w) :
    ∃ t, (c ≤ t ∧ t < c + Span.hour) ∧ ∀ u, z.reading u = w + Span.hour ↔ u = t := by
  obtain ⟨o, o', hstep, hbefore, hafter⟩ := h.exists_offsets (offsetAt_ne_of_skipsAt hc)
  obtain ⟨hlow, hhigh⟩ := hc
  have hhour := Span.hour_pos
  rw [hbefore (c - 1) (by omega) (by omega)] at hlow
  rw [hafter c (by omega) (by omega)] at hhigh
  have hct : c ≤ w + Span.hour - o' * Span.second := by
    simp only [Span.second, Span.hour] at *
    omega
  have htc : w + Span.hour - o' * Span.second < c + Span.hour := by omega
  have hshown := hafter (w + Span.hour - o' * Span.second) hct (by omega)
  refine ⟨w + Span.hour - o' * Span.second, ⟨hct, htc⟩, fun u => ⟨fun hu => ?_, ?_⟩⟩
  · have hle : w + Span.hour - o' * Span.second ≤ u + Span.hour := by
      by_contra hlt
      have := h.reading_lt_of_add_hour_lt (Int.not_le.1 hlt)
      omega
    have hge : u ≤ w + Span.hour - o' * Span.second + Span.hour := by
      by_contra hlt
      have := h.reading_lt_of_add_hour_lt (Int.not_le.1 hlt)
      omega
    rcases Int.lt_or_le u c with huc | hcu
    · have := hbefore u (by omega) huc
      omega
    · have := hafter u hcu (by omega)
      omega
  · rintro rfl
    omega

theorem instantOf_of_skipsAt {d : Int} {time : TimeOfDay} (h : z.Mild)
    (hc : z.SkipsAt c (Reading.on d time)) :
    (c ≤ z.instantOf d time ∧ z.instantOf d time < c + Span.hour) ∧
      ∀ u, z.reading u = Reading.on d time + Span.hour ↔ u = z.instantOf d time := by
  obtain ⟨t, hbounds, honly⟩ := h.exists_hour_later hc
  have hearliest : z.earliest? (Reading.on d time + Span.hour) = some t := by
    rw [earliest?_eq_some_iff]
    exact ⟨(honly t).2 rfl, fun u hu => Int.le_of_eq ((honly u).1 hu).symm⟩
  have ht : z.instantOf d time = t := by
    simp [instantOf, earliest?_eq_none_iff.2 (h.reading_ne_of_skipsAt hc), hearliest]
  rw [ht]
  exact ⟨hbounds, honly⟩

theorem exists_repeatsAt (h : z.Mild) (ht : IsLeast {v | z.reading v = w} t)
    (hu : z.reading u = w) (htu : t ≠ u) :
    ∃ c, z.RepeatsAt c w ∧ t < c ∧ c ≤ u ∧ ∀ v, z.reading v = w → v = t ∨ v = u := by
  obtain ⟨htw, hleast⟩ : z.reading t = w ∧ ∀ v, z.reading v = w → t ≤ v := ht
  obtain ⟨c, o, o', -, hwindow⟩ := h.exists_reading_eq_ite t
  have hshow (v : Int) (htv : t ≤ v) (hvt : v ≤ t + Span.hour) :
      z.reading v = v + (if v < c then o else o') * Span.second :=
    hwindow v htv (by simp only [Span.hour, Span.day] at *; omega)
  have hwithin {v : Int} (hv : z.reading v = w) : v ≤ t + Span.hour := by
    by_contra hlt
    have := h.reading_lt_of_add_hour_lt (Int.not_le.1 hlt)
    omega
  have hhour := Span.hour_pos
  have hule := hwithin hu
  have htu' := hleast u hu
  have htshow := hshow t (Int.le_refl t) (by omega)
  have hushow := hshow u htu' hule
  have htc : t < c := by
    by_contra hle
    rw [if_neg hle] at htshow
    rw [if_neg (by omega)] at hushow
    omega
  rw [if_pos htc] at htshow
  have hcu : c ≤ u := by
    by_contra hlt
    rw [if_pos (by omega)] at hushow
    omega
  rw [if_neg (by omega)] at hushow
  have hcshow := hshow c (by omega) (by omega)
  rw [if_neg (Int.lt_irrefl c)] at hcshow
  have hlast := hshow (c - 1) (by omega) (by omega)
  rw [if_pos (by omega)] at hlast
  refine ⟨c, ⟨by omega, by omega⟩, htc, hcu, fun v hv => ?_⟩
  have hvshow := hshow v (hleast v hv) (hwithin hv)
  split at hvshow <;> omega

end Mild

theorem instantOf_in_mild_zone {z : Zone} (h : z.Mild) (d : Int) (time : TimeOfDay) :
    let w := Reading.on d time
    let t := z.instantOf d time
    ((∃ u, z.reading u = w) →
      IsLeast {u | z.reading u = w} t ∧
      ∀ u, z.reading u = w → u = t ∨ ∃ c, z.RepeatsAt c w ∧ t < c ∧ c ≤ u ∧
        ∀ v, z.reading v = w → v = t ∨ v = u) ∧
    (∀ c, z.RepeatsAt c w → t < c ∧ ∃ u, c ≤ u ∧ z.reading u = w) ∧
    ((∀ u, z.reading u ≠ w) →
      z.reading t = w + Span.hour ∧ (∀ u, z.reading u = w + Span.hour → u = t) ∧
      ∃ c, z.SkipsAt c w ∧ c ≤ t ∧ t < c + Span.hour) ∧
    ((∃ u, z.reading u = w) ↔ ¬ ∃ c, z.SkipsAt c w) ∧
    ((z.earliest? w).or (z.earliest? (w + Span.hour))).isSome := by
  intro w t
  refine ⟨fun hshown => ?_, fun c hc => ?_, fun hskipped => ?_, h.exists_iff_not_skipsAt, ?_⟩
  · obtain ⟨v, hv⟩ := hshown
    have hleast : IsLeast {u | z.reading u = w} t := isLeast_instantOf hv
    refine ⟨hleast, fun u hu => or_iff_not_imp_left.2 fun hne => ?_⟩
    exact h.exists_repeatsAt hleast hu (Ne.symm hne)
  · obtain ⟨⟨v, hvc, hv⟩, hagain⟩ := h.exists_reading_eq_of_repeatsAt hc
    exact ⟨Int.lt_of_le_of_lt ((isLeast_instantOf hv).2 hv) hvc, hagain⟩
  · obtain ⟨c, hc⟩ := exists_skipsAt hskipped
    obtain ⟨hbounds, honly⟩ := h.instantOf_of_skipsAt hc
    exact ⟨(honly t).2 rfl, fun u => (honly u).1, c, hc, hbounds⟩
  · rw [Option.isSome_or, Bool.or_eq_true, Option.isSome_iff_ne_none, Option.isSome_iff_ne_none,
      ne_eq, ne_eq, earliest?_eq_none_iff, earliest?_eq_none_iff, ← not_and_or]
    rintro ⟨hskipped, hlater⟩
    obtain ⟨c, hc⟩ := exists_skipsAt hskipped
    obtain ⟨u, -, honly⟩ := h.exists_hour_later hc
    exact hlater u ((honly u).2 rfl)

theorem instantOf_in_mild_zone_across_midnight :
    let z : Zone := { name := "", base := 0, changes := [⟨84600, 1800⟩, ⟨171000, 0⟩] }
    let time : TimeOfDay := { hour := 23, minute := 45 }
    z.Mild ∧ (∀ u, z.reading u ≠ Reading.on 0 time) ∧
      z.reading (z.instantOf 0 time) = Reading.on 1 { hour := 0, minute := 45 } ∧
      z.RepeatsAt (171000 * Span.second) (Reading.on 1 time) ∧
      IsLeast {u | z.reading u = Reading.on 1 time} (z.instantOf 1 time) ∧
      z.instantOf 1 time < 171000 * Span.second := by
  intro z time
  have hmild : z.Mild := by decide
  obtain ⟨-, -, hskipped, hiff, -⟩ := instantOf_in_mild_zone hmild 0 time
  obtain ⟨hshown, hrepeated, -⟩ := instantOf_in_mild_zone hmild 1 time
  have hnone : ∀ u, z.reading u ≠ Reading.on 0 time := by
    have hskips : z.SkipsAt (84600 * Span.second) (Reading.on 0 time) := by
      constructor <;> decide
    exact not_exists.1 fun hu => hiff.1 hu ⟨_, hskips⟩
  have hone : z.reading (170100 * Span.second) = Reading.on 1 time := by decide
  have hrepeats : z.RepeatsAt (171000 * Span.second) (Reading.on 1 time) := by
    constructor <;> decide
  exact ⟨hmild, hnone, (hskipped hnone).1.trans (by decide), hrepeats, (hshown ⟨_, hone⟩).1,
    (hrepeated _ hrepeats).1⟩

end Timetable.Zone
