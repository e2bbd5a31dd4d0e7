import Mathlib.Data.List.Forall2
import Timetable.Language.Scan

namespace Timetable.Scan

theorem oneOfEach_append {classes : List (List Char)} {read : List Char}
    (h : List.Forall₂ (· ∈ ·) read classes) (rest : List Char) :
    oneOfEach classes (read ++ rest) = (read, none) := by
  induction h with
  | nil => simp [oneOfEach]
  | cons hc _ ih => simp [oneOfEach, hc, ih]

theorem forall₂_of_oneOfEach {classes : List (List Char)} {cs : List Char}
    (h : (oneOfEach classes cs).2 = none) :
    List.Forall₂ (· ∈ ·) (oneOfEach classes cs).1 classes := by
  fun_induction oneOfEach classes cs with
  | case1 => exact .nil
  | case2 allowed classes => simp at h
  | case3 allowed classes c cs hc read ih => exact .cons hc (ih h)
  | case4 allowed classes c cs hc => simp at h

theorem mem_digitsUpTo {c : Char} {n : Nat} :
    c ∈ digitsUpTo n ↔ ∃ k ≤ n, Nat.digitChar k = c := by
  simp only [digitsUpTo, List.mem_map, List.mem_range, Nat.lt_succ_iff]

theorem isDigit_of_mem_digitsUpTo {c : Char} {n : Nat} (hn : n < 10) (hc : c ∈ digitsUpTo n) :
    c.isDigit = true := by
  obtain ⟨k, hk, rfl⟩ := mem_digitsUpTo.1 hc
  exact TimeOfDay.isDigit_digitChar (by omega)

theorem isDigit_of_mem_timeClasses {first c : Char} {allowed : List Char}
    (h : allowed ∈ timeClasses first) (hc : c ∈ allowed) : c.isDigit = true := by
  simp only [timeClasses, List.mem_cons, List.not_mem_nil, or_false] at h
  rcases h with rfl | rfl | rfl | rfl
  · exact isDigit_of_mem_digitsUpTo (by decide) hc
  · exact isDigit_of_mem_digitsUpTo (by split <;> decide) hc
  · exact isDigit_of_mem_digitsUpTo (by decide) hc
  · exact isDigit_of_mem_digitsUpTo (by decide) hc

theorem exists_mem_of_mem_oneOfEach {classes : List (List Char)} {c : Char} {cs : List Char}
    (h : c ∈ (oneOfEach classes cs).1) : ∃ allowed ∈ classes, c ∈ allowed := by
  fun_induction oneOfEach classes cs with
  | case1 | case2 | case4 => cases h
  | case3 allowed classes d ds hd read ih =>
    rcases List.mem_cons.1 h with rfl | h
    · exact ⟨allowed, List.mem_cons_self, hd⟩
    · obtain ⟨other, hmem, hc⟩ := ih h
      exact ⟨other, List.mem_cons_of_mem _ hmem, hc⟩

theorem digitChar_eq_two_iff {k : Nat} (h : k ≤ 2) : Nat.digitChar k = '2' ↔ k = 2 := by
  revert k
  decide

theorem digits_forall₂ (t : TimeOfDay) :
    List.Forall₂ (· ∈ ·) t.digits (timeClasses (Nat.digitChar (t.hour / 10))) := by
  have hh := t.hour_lt
  have hm := t.minute_lt
  have htens : t.hour / 10 ≤ 2 := by omega
  simp only [TimeOfDay.digits, TimeOfDay.twoDigits, timeClasses, List.cons_append, List.nil_append,
    List.forall₂_cons, List.forall₂_nil_left_iff, and_true, mem_digitsUpTo,
    digitChar_eq_two_iff htens]
  refine ⟨⟨_, htens, rfl⟩, ⟨t.hour % 10, ?_, rfl⟩, ⟨t.minute / 10, ?_, rfl⟩,
    ⟨t.minute % 10, ?_, rfl⟩⟩
  · split <;> omega
  · omega
  · omega

theorem exists_digits_of_forall₂ {c : Char} {cs : List Char}
    (h : List.Forall₂ (· ∈ ·) (c :: cs) (timeClasses c)) : ∃ t : TimeOfDay, t.digits = c :: cs := by
  simp only [timeClasses] at h
  rcases h with _ | ⟨ha, _ | ⟨hb, _ | ⟨hd, _ | ⟨he, _ | _⟩⟩⟩⟩
  obtain ⟨i, hi, rfl⟩ := mem_digitsUpTo.1 ha
  simp only [digitChar_eq_two_iff hi] at hb
  obtain ⟨j, hj, rfl⟩ := mem_digitsUpTo.1 hb
  obtain ⟨k, hk, rfl⟩ := mem_digitsUpTo.1 hd
  obtain ⟨l, hl, rfl⟩ := mem_digitsUpTo.1 he
  have hj' : j < 10 := by split at hj <;> omega
  have hhour : 10 * i + j < 24 := by split at hj <;> omega
  have h₁ : (10 * i + j) / 10 = i := by omega
  have h₂ : (10 * i + j) % 10 = j := by omega
  have h₃ : (10 * k + l) / 10 = k := by omega
  have h₄ : (10 * k + l) % 10 = l := by omega
  refine ⟨⟨10 * i + j, 10 * k + l, hhour, by omega⟩, ?_⟩
  simp [TimeOfDay.digits, TimeOfDay.twoDigits, h₁, h₂, h₃, h₄]

theorem time_digits_append (t : TimeOfDay) (rest : List Char) :
    time (Nat.digitChar (t.hour / 10)) (t.digits ++ rest) = ⟨t.digits, .ok .time⟩ := by
  simp [time, oneOfEach_append (digits_forall₂ t) rest]

theorem exists_digits_of_time {c : Char} {cs : List Char} {kind : TokenKind}
    (h : (time c (c :: cs)).outcome = .ok kind) :
    kind = .time ∧ ∃ t : TimeOfDay, t.digits = (time c (c :: cs)).lexeme := by
  simp only [time] at h ⊢
  split at h
  · next hnone =>
    cases h
    have hread := forall₂_of_oneOfEach hnone
    have hprefix := oneOfEach_isPrefix (timeClasses c) (c :: cs)
    cases hxs : (oneOfEach (timeClasses c) (c :: cs)).1 with
    | nil =>
      rw [hxs] at hread
      cases hread
    | cons d ds =>
      rw [hxs] at hread hprefix
      obtain rfl := (List.cons_prefix_cons.1 hprefix).1
      exact ⟨rfl, exists_digits_of_forall₂ hread⟩
  · cases h

end Timetable.Scan
