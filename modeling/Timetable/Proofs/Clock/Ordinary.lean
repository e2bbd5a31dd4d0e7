import Mathlib.Data.List.Chain
import Mathlib.Logic.ExistsUnique
import Timetable.Proofs.Clock.Steady

namespace Timetable.Zone

structure Ordinary (z : Zone) : Prop where
  apart : z.changes.Pairwise fun c c' => c.since + 14 * 86400 < c'.since
  step_le : z.offsets.IsChain fun o o' => (o' - o).natAbs ≤ 3600

instance (z : Zone) : Decidable z.Ordinary :=
  decidable_of_iff
    (z.changes.Pairwise (fun c c' => c.since + 14 * 86400 < c'.since) ∧
      z.offsets.IsChain fun o o' => (o' - o).natAbs ≤ 3600)
    ⟨fun h => ⟨h.1, h.2⟩, fun h => ⟨h.1, h.2⟩⟩

theorem offsetFrom_of_lt {base t : Int} {cs : List OffsetChange}
    (h : ∀ c ∈ cs, t < c.since * Span.second) : offsetFrom base cs t = base := by
  cases cs with
  | nil => rfl
  | cons c cs => rw [offsetFrom, if_pos (h c List.mem_cons_self)]

theorem exists_offsetFrom_eq_ite {cs : List OffsetChange} {n base : Int} {k : Nat}
    (hapart : cs.Pairwise fun c c' => c.since * Span.second + n ≤ c'.since * Span.second)
    (hstep : (base :: cs.map (·.offset)).IsChain fun o o' => (o' - o).natAbs ≤ k) (a : Int) :
    ∃ c o o', (o' - o).natAbs ≤ k ∧ ∀ t, a ≤ t → t < a + n →
      offsetFrom base cs t = if t < c then o else o' := by
  induction cs generalizing base with
  | nil => exact ⟨a, base, base, by simp, fun t _ _ => by simp [offsetFrom]⟩
  | cons c cs ih =>
    obtain ⟨hc, hcs⟩ := List.pairwise_cons.1 hapart
    obtain ⟨hfirst, hrest⟩ := List.isChain_cons_cons.1 hstep
    rcases Int.lt_or_le a (c.since * Span.second) with hac | hca
    · refine ⟨c.since * Span.second, base, c.offset, hfirst, fun t ha hb => ?_⟩
      rw [offsetFrom]
      split
      · rfl
      · refine offsetFrom_of_lt fun c' hc' => ?_
        have := hc c' hc'
        omega
    · obtain ⟨c', o, o', hoo', hwindow⟩ := ih hcs hrest
      refine ⟨c', o, o', hoo', fun t ha hb => ?_⟩
      rw [offsetFrom, if_neg (by omega), hwindow t ha hb]

theorem Ordinary.exists_offsetAt_eq_ite {z : Zone} (h : z.Ordinary) (a : Int) :
    ∃ c o o', ∀ t, a ≤ t → t ≤ a + 14 * Span.day → z.offsetAt t = if t < c then o else o' := by
  have hapart : z.changes.Pairwise fun c c' =>
      c.since * Span.second + (14 * Span.day + 1) ≤ c'.since * Span.second := by
    refine h.apart.imp fun hlt => ?_
    simp only [Span.day, Span.second]
    omega
  obtain ⟨c, o, o', -, hwindow⟩ := exists_offsetFrom_eq_ite hapart h.step_le a
  exact ⟨c, o, o', fun t ha hb => hwindow t ha (by omega)⟩

def ShowsOnce (z : Zone) (w : Int) : Prop :=
  ∃! t, z.reading t = w

theorem showsOnce_of_no_change {z : Zone} {w : Int}
    (h : ∀ c ∈ z.changes, c.since * Span.second + Span.day ≤ w ∨
      w + Span.day ≤ c.since * Span.second) : z.ShowsOnce w := by
  have hsteady : z.Steady (z.offsetAt (w - Span.day)) (w - Span.day) (w + Span.day - 1) :=
    steady_of_no_change fun c hc => by
      have := h c hc
      omega
  generalize z.offsetAt (w - Span.day) = o at hsteady
  have hday := Span.day_pos
  have hself := hsteady.reading_eq (t := w - Span.day) (by omega) (by omega)
  have hnear := z.lt_reading_add_day (w - Span.day)
  have hnear' := z.reading_lt_add_day (w - Span.day)
  refine ⟨w - o * Span.second, ?_, fun u (hu : z.reading u = w) => ?_⟩
  · have ho := hsteady.reading_eq (t := w - o * Span.second) (by omega) (by omega)
    change z.reading (w - o * Span.second) = w
    omega
  · have := z.lt_reading_add_day u
    have := z.reading_lt_add_day u
    have ho := hsteady.reading_eq (t := u) (by omega) (by omega)
    omega

structure Passes (z : Zone) (w t : Int) : Prop where
  reading_eq : z.reading t = w
  le_iff : ∀ u, w ≤ z.reading u ↔ t ≤ u

namespace Passes

variable {z : Zone} {w t u : Int}

theorem lt_iff (h : z.Passes w t) (u : Int) : z.reading u < w ↔ u < t := by
  have := h.le_iff u
  omega

theorem instantOf_eq {d : Int} {time : TimeOfDay} (h : z.Passes (Reading.on d time) t) :
    z.instantOf d time = t := by
  have hearliest : z.earliest? (Reading.on d time) = some t := by
    rw [earliest?_eq_some_iff]
    exact ⟨h.reading_eq, fun u hu => (h.le_iff u).1 (Int.le_of_eq hu.symm)⟩
  simp [instantOf, hearliest]

theorem eq_add_one (h : z.Passes w t) (h' : z.Passes (w + 1) u) : u = t + 1 := by
  have ht := h.reading_eq
  have hu := (h.le_iff u).1
  have hu' := h'.reading_eq
  have hnext := (h.le_iff (t + 1)).2
  have hnext' := (h'.le_iff (t + 1)).1
  have hne : u ≠ t := by
    rintro rfl
    omega
  -- Offsets are whole seconds, so a nanosecond after `t` the clock cannot read `w` once more.
  have hmoves : z.reading (t + 1) ≠ z.reading t := by
    simp only [reading, Span.second]
    omega
  omega

theorem add (h : z.Passes w t) {n : Int} (hn : 0 ≤ n)
    (hw : ∀ r, w ≤ r → r ≤ w + n → ∃ u, z.Passes r u) : z.Passes (w + n) (t + n) := by
  obtain ⟨n, rfl⟩ := Int.eq_ofNat_of_zero_le hn
  clear hn
  induction n with
  | zero => simpa using h
  | succ n ih =>
    have hn := ih fun r hr hr' => hw r hr (by omega)
    obtain ⟨u, hu⟩ := hw (w + n + 1) (by omega) (by omega)
    obtain rfl := hn.eq_add_one hu
    rw [Int.natCast_succ, ← Int.add_assoc, ← Int.add_assoc]
    exact hu

end Passes

section Window

variable {z : Zone} {w t u c o o' : Int}

theorem reading_lt_of_showsOnce (ht : z.reading t = w) (hunique : ∀ v, z.reading v = w → v = t)
    (hshow : ∀ v, t - 3 * Span.day ≤ v → v ≤ t + 11 * Span.day →
      z.reading v = v + (if v < c then o else o') * Span.second) (hu : u < t) :
    z.reading u < w := by
  by_contra hge
  have hne : z.reading u ≠ w := fun heq => by
    have := hunique u heq
    omega
  have hday := Span.day_pos
  have hnear := z.reading_lt_add_day u
  have hnear' := z.lt_reading_add_day t
  have hnear'' := z.lt_reading_add_day u
  have htshow := hshow t (by omega) (by omega)
  have hushow := hshow u (by omega) (by omega)
  rcases Int.lt_or_le u c with huc | hcu
  · rw [if_pos huc] at hushow
    have hv := hshow (w - o * Span.second) (by omega) (by omega)
    rw [if_pos (by omega)] at hv
    have := hunique (w - o * Span.second) (by omega)
    omega
  · rw [if_neg (by omega)] at hushow htshow
    omega

theorem lt_reading_of_showsOnce (ht : z.reading t = w) (hunique : ∀ v, z.reading v = w → v = t)
    (hshow : ∀ v, t - 3 * Span.day ≤ v → v ≤ t + 11 * Span.day →
      z.reading v = v + (if v < c then o else o') * Span.second) (hu : t < u) :
    w < z.reading u := by
  by_contra hge
  have hne : z.reading u ≠ w := fun heq => by
    have := hunique u heq
    omega
  have hday := Span.day_pos
  have hnear := z.lt_reading_add_day u
  have hnear' := z.reading_lt_add_day t
  have hnear'' := z.reading_lt_add_day u
  have htshow := hshow t (by omega) (by omega)
  have hushow := hshow u (by omega) (by omega)
  rcases Int.lt_or_le u c with huc | hcu
  · rw [if_pos (by omega)] at hushow htshow
    omega
  · rw [if_neg (by omega)] at hushow
    have hv := hshow (w - o' * Span.second) (by omega) (by omega)
    rw [if_neg (by omega)] at hv
    have := hunique (w - o' * Span.second) (by omega)
    omega

end Window

theorem Ordinary.exists_passes {z : Zone} (h : z.Ordinary) {w : Int} (hw : z.ShowsOnce w) :
    ∃ t, z.Passes w t := by
  obtain ⟨t, ht, hunique⟩ := hw
  obtain ⟨c, o, o', hwindow⟩ := h.exists_offsetAt_eq_ite (t - 3 * Span.day)
  have hshow (v : Int) (hv : t - 3 * Span.day ≤ v) (hv' : v ≤ t + 11 * Span.day) :
      z.reading v = v + (if v < c then o else o') * Span.second := by
    rw [reading, hwindow v hv (by omega)]
  refine ⟨t, ht, fun u => ⟨fun hle => ?_, fun hle => ?_⟩⟩
  · by_contra hlt
    have := reading_lt_of_showsOnce ht hunique hshow (Int.not_le.1 hlt)
    omega
  · rcases Int.lt_or_eq_of_le hle with hlt | rfl
    · exact Int.le_of_lt (lt_reading_of_showsOnce ht hunique hshow hlt)
    · exact Int.le_of_eq ht.symm

end Timetable.Zone
