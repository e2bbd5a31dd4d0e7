import Timetable.Language.TimeLiteral
import Timetable.Proofs.Language.Placement
import Timetable.Proofs.Language.Spelling

namespace Timetable

namespace TimeOfDay

structure Tells (text : List Char) (hour minute : Nat) : Prop where
  length_eq : text.length = 4
  digits : ∀ c ∈ text, '0' ≤ c ∧ c ≤ '9'
  hour_eq : Nat.ofDigitChars 10 (text.take 2) 0 = hour
  minute_eq : Nat.ofDigitChars 10 (text.drop 2) 0 = minute

variable {text : List Char} {s : String} {t : TimeOfDay} {hour minute : Nat} {c : Char}

theorem isDigit_iff : c.isDigit = true ↔ '0' ≤ c ∧ c ≤ '9' := by
  simp only [Char.isDigit, Bool.and_eq_true, decide_eq_true_eq]
  exact Iff.rfl

theorem toNat_eq_of_isDigit (h : c.isDigit = true) : c.toNat = 48 + digitValue c ∧ digitValue c < 10 := by
  rw [Text.isDigit_iff_toNat] at h
  have hvalue : digitValue c = c.toNat - 48 := rfl
  omega

theorem digitChar_digitValue (h : c.isDigit = true) : Nat.digitChar (digitValue c) = c := by
  have hchar : ∀ k < 10, Nat.digitChar k = Char.ofNat (48 + k) := by decide
  obtain ⟨hc, hlt⟩ := toNat_eq_of_isDigit h
  rw [hchar _ hlt, ← hc, Char.ofNat_toNat]

theorem tells_iff : Tells text hour minute ↔ ∃ a b c d, text = [a, b, c, d] ∧
    (a.isDigit && b.isDigit && c.isDigit && d.isDigit) = true ∧
    10 * digitValue a + digitValue b = hour ∧ 10 * digitValue c + digitValue d = minute := by
  have hvalue (a b : Char) : Nat.ofDigitChars 10 [a, b] 0 = 10 * digitValue a + digitValue b := by
    simp [Nat.ofDigitChars, digitValue]
  constructor
  · rintro ⟨hlength, hdigits, rfl, rfl⟩
    obtain ⟨a, b, c, d, rfl⟩ := List.length_eq_four.1 hlength
    refine ⟨a, b, c, d, rfl, ?_, (hvalue a b).symm, (hvalue c d).symm⟩
    simpa [← isDigit_iff, and_assoc] using hdigits
  · rintro ⟨a, b, c, d, rfl, hdigits, rfl, rfl⟩
    refine ⟨rfl, ?_, hvalue a b, hvalue c d⟩
    simpa [← isDigit_iff, and_assoc] using hdigits

theorem ofDigits?_eq_some_iff : ofDigits? text = some t ↔ Tells text t.hour t.minute := by
  rw [tells_iff]
  constructor
  · intro h
    unfold ofDigits? at h
    split at h
    · next a b c d =>
      split at h
      · next hdigits =>
        obtain ⟨hhour, hminute⟩ := ofHourMinute?_eq_some h
        exact ⟨a, b, c, d, rfl, hdigits, hhour.symm, hminute.symm⟩
      · cases h
    · cases h
  · rintro ⟨a, b, c, d, rfl, hdigits, hhour, hminute⟩
    rw [ofDigits?, if_pos hdigits, hhour, hminute, ofHourMinute?_hour_minute]

theorem twoDigits_digitValue {d : Char} (hc : c.isDigit = true) (hd : d.isDigit = true) :
    twoDigits (10 * digitValue c + digitValue d) = [c, d] := by
  obtain ⟨-, hlt⟩ := toNat_eq_of_isDigit hd
  have htens : (10 * digitValue c + digitValue d) / 10 = digitValue c := by omega
  have hones : (10 * digitValue c + digitValue d) % 10 = digitValue d := by omega
  rw [twoDigits, htens, hones, digitChar_digitValue hc, digitChar_digitValue hd]

theorem digits_eq_of_ofDigits? (h : ofDigits? text = some t) : t.digits = text := by
  obtain ⟨a, b, c, d, rfl, hdigits, hhour, hminute⟩ := tells_iff.1 (ofDigits?_eq_some_iff.1 h)
  simp only [Bool.and_eq_true, and_assoc] at hdigits
  obtain ⟨ha, hb, hc, hd⟩ := hdigits
  rw [digits, ← hhour, ← hminute, twoDigits_digitValue ha hb, twoDigits_digitValue hc hd]
  rfl

theorem ofString_eq_ok_iff_toString : ofString s = .ok t ↔ toString t = s := by
  constructor
  · intro h
    rw [ofString_eq_ok_iff] at h
    change String.ofList t.digits = s
    rw [digits_eq_of_ofDigits? h, String.ofList_toList]
  · rintro rfl
    exact ofString_toString t

theorem exists_ofString_iff :
    (∃ t, ofString s = .ok t) ↔ ∃ hour ≤ 23, ∃ minute ≤ 59, Tells s.toList hour minute := by
  simp only [ofString_eq_ok_iff, ofDigits?_eq_some_iff]
  constructor
  · rintro ⟨t, ht⟩
    exact ⟨t.hour, Nat.le_of_lt_succ t.hour_lt, t.minute, Nat.le_of_lt_succ t.minute_lt, ht⟩
  · rintro ⟨hour, hhour, minute, hminute, ht⟩
    exact ⟨⟨hour, minute, Nat.lt_succ_of_le hhour, Nat.lt_succ_of_le hminute⟩, ht⟩

theorem ofString_eq_error_iff {e : Error} :
    ofString s = .error e ↔ e = .invalidTime s ∧ ¬ ∃ t, ofString s = .ok t := by
  simp only [ofString, ofChars]
  cases ofDigits? s.toList <;> simp [eq_comm]

end TimeOfDay

namespace Lexer

theorem next_ofString_toString (t : TimeOfDay) :
    ∃ p r, (ofString (toString t) {}).next = .ok ⟨.time, t.digits, p⟩ r := by
  have hrest : ∃ rest, (ofString (toString t) {}).rest = [] ++ (t.digits ++ rest) := by
    rcases terminated_eq_or '\n' t.digits with h | h
    · exact ⟨[], by simpa [ofString, toString, rest, Cursor.start] using h⟩
    · exact ⟨['\n'], by simpa [ofString, toString, rest, Cursor.start] using h⟩
  obtain ⟨rest, hrest⟩ := hrest
  obtain ⟨p, r, hnext, -⟩ := next_of_spelling Layout.neutral_default hrest (by simp)
    (Symbol.Spelling.time t) (fun h => absurd rfl h)
  exact ⟨p, r, hnext⟩

variable {l r : Lexer} {s : String} {p : Text.Position}

theorem exists_ofString_of_next (h : l.next = .ok ⟨.time, s.toList, p⟩ r) :
    ∃ t, TimeOfDay.ofString s = .ok t := by
  obtain ⟨t, ht⟩ := (legible_of_next h).exists_time rfl
  exact ⟨t, TimeOfDay.ofString_eq_ok_iff.2 ht⟩

theorem exists_next_eq_time_iff :
    (∃ p r, (ofString s {}).next = .ok ⟨.time, s.toList, p⟩ r) ↔
      ∃ t, TimeOfDay.ofString s = .ok t := by
  constructor
  · rintro ⟨p, r, h⟩
    exact exists_ofString_of_next h
  · rintro ⟨t, ht⟩
    obtain rfl := TimeOfDay.ofString_eq_ok_iff_toString.1 ht
    obtain ⟨p, r, h⟩ := next_ofString_toString t
    exact ⟨p, r, by simpa [toString] using h⟩

end Lexer

theorem TimeOfDay.one_notion_of_valid_text :
    (∀ s : String,
      (∀ t, ofString s = .ok t ↔ Tells s.toList t.hour t.minute) ∧
      (∀ t, ofString s = .ok t ↔ toString t = s) ∧
      ((∃ t, ofString s = .ok t) ↔ ∃ hour ≤ 23, ∃ minute ≤ 59, Tells s.toList hour minute) ∧
      (∀ e, ofString s = .error e ↔ e = .invalidTime s ∧
        ¬ ∃ hour ≤ 23, ∃ minute ≤ 59, Tells s.toList hour minute) ∧
      ((∃ p r, (Lexer.ofString s {}).next = .ok ⟨.time, s.toList, p⟩ r) ↔
        ∃ t, ofString s = .ok t) ∧
      ((∃ n p r, ((Lexer.ofString s {}).after n).next = .ok ⟨.time, s.toList, p⟩ r) ↔
        ∃ t, ofString s = .ok t)) ∧
    ∀ t : TimeOfDay, ofString (toString t) = .ok t := by
  refine ⟨fun s => ⟨fun t => ?_, fun t => ofString_eq_ok_iff_toString, exists_ofString_iff,
    fun e => ?_, Lexer.exists_next_eq_time_iff, ?_⟩, ofString_toString⟩
  · rw [ofString_eq_ok_iff, ofDigits?_eq_some_iff]
  · rw [ofString_eq_error_iff, exists_ofString_iff]
  · constructor
    · rintro ⟨n, p, r, h⟩
      exact Lexer.exists_ofString_of_next h
    · intro h
      obtain ⟨p, r, hnext⟩ := Lexer.exists_next_eq_time_iff.2 h
      exact ⟨0, p, r, hnext⟩

end Timetable
