import Timetable.Text.Lowercase

namespace Timetable.Text

variable {c : Char} {cs : List Char}

theorem isAlpha_iff : c.isAlpha = true ↔
    (65 ≤ c.toNat ∧ c.toNat ≤ 90) ∨ (97 ≤ c.toNat ∧ c.toNat ≤ 122) := by
  change (decide ('A'.val ≤ c.val ∧ c.val ≤ 'Z'.val) ||
    (decide ('a'.val ≤ c.val) && decide (c.val ≤ 'z'.val))) = true ↔ _
  simp only [Bool.or_eq_true, Bool.and_eq_true, decide_eq_true_eq, UInt32.le_iff_toNat_le]
  exact Iff.rfl

theorem isDigit_iff_toNat : c.isDigit = true ↔ 48 ≤ c.toNat ∧ c.toNat ≤ 57 := by
  change (decide ('0'.val ≤ c.val) && decide (c.val ≤ '9'.val)) = true ↔ _
  simp only [Bool.and_eq_true, decide_eq_true_eq, UInt32.le_iff_toNat_le]
  exact Iff.rfl

theorem isAlpha_eq_false_of_isDigit (h : c.isDigit = true) : c.isAlpha = false := by
  rw [isDigit_iff_toNat] at h
  rw [Bool.eq_false_iff, ne_eq, isAlpha_iff]
  omega

theorem toNat_lt_of_isAlpha (h : c.isAlpha = true) : c.toNat < 128 := by
  rw [isAlpha_iff] at h
  omega

theorem toLower_eq_self (h : ¬ (65 ≤ c.toNat ∧ c.toNat ≤ 90)) : c.toLower = c := by
  have hupper : ¬ (c.val ≥ 'A'.val ∧ c.val ≤ 'Z'.val) := by
    simp only [ge_iff_le, UInt32.le_iff_toNat_le]
    exact h
  exact dif_neg hupper

theorem toLower_of_isDigit (h : c.isDigit = true) : c.toLower = c := by
  rw [isDigit_iff_toNat] at h
  exact toLower_eq_self (by omega)

theorem isAlpha_of_isAlpha_toLower (h : c.toLower.isAlpha = true) : c.isAlpha = true := by
  by_cases hupper : 65 ≤ c.toNat ∧ c.toNat ≤ 90
  · exact isAlpha_iff.2 (.inl hupper)
  · rwa [toLower_eq_self hupper] at h

theorem isAlpha_ofNat_eq_false {n : Nat} (h : 128 ≤ n) : (Char.ofNat n).isAlpha = false := by
  by_cases hn : n.isValidChar
  · have hchar : Char.ofNat n = Char.ofNatAux n hn := dif_pos hn
    have htoNat : (Char.ofNatAux n hn).toNat = n := rfl
    rw [hchar, Bool.eq_false_iff, ne_eq, isAlpha_iff, htoNat]
    omega
  · have hchar : Char.ofNat n = '\x00' := dif_neg hn
    rw [hchar]
    decide

theorem le_add_shift_of_mem_lowerRanges :
    ∀ r ∈ lowerRanges, r.first = 0x212A ∧ r.last = 0x212A ∧ r.shift = -8383 ∨
      128 ≤ r.first + r.shift := by
  decide +kernel

theorem exists_mem_lowerChar (h : 128 ≤ c.toNat) :
    ∃ d ∈ lowerChar c, d.isAlpha = true → d = 'k' := by
  have hself : c.isAlpha = false := by
    rw [Bool.eq_false_iff]
    intro halpha
    exact absurd (toNat_lt_of_isAlpha halpha) (by omega)
  rw [lowerChar, if_neg (by omega)]
  split
  · exact ⟨'\u0307', by simp, by decide⟩
  · split
    · next r hr =>
      have hcovers := List.find?_some hr
      simp only [LowerRange.covers, Bool.and_eq_true, decide_eq_true_eq] at hcovers
      obtain ⟨⟨hfirst, hlast⟩, -⟩ := hcovers
      refine ⟨_, List.mem_singleton_self _, fun halpha => ?_⟩
      rcases le_add_shift_of_mem_lowerRanges r (List.mem_of_find?_eq_some hr) with
        ⟨hf, hl, hs⟩ | hshift
      · rw [show c.toNat = 0x212A by omega, hs]
        rfl
      · rw [isAlpha_ofNat_eq_false (by omega)] at halpha
        cases halpha
    · exact ⟨c, List.mem_singleton_self c, by simp [hself]⟩

theorem toNat_lt_of_lower (h : ∀ d ∈ lower cs, d.isAlpha = true ∧ d ≠ 'k') :
    ∀ c ∈ cs, c.toNat < 128 := by
  intro c hc
  refine Nat.lt_of_not_le fun hge => ?_
  obtain ⟨d, hd, hk⟩ := exists_mem_lowerChar hge
  obtain ⟨halpha, hne⟩ := h d (List.mem_flatMap.2 ⟨c, hc, hd⟩)
  exact hne (hk halpha)

theorem lower_eq_map_toLower (h : ∀ d ∈ lower cs, d.isAlpha = true ∧ d ≠ 'k') :
    lower cs = cs.map Char.toLower :=
  lower_ascii (toNat_lt_of_lower h)

example : lower ['\u212a'] = ['k'] := by decide +kernel

end Timetable.Text
