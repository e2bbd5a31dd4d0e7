namespace Timetable

structure TimeOfDay where
  hour : Nat
  minute : Nat
  hour_lt : hour < 24 := by decide
  minute_lt : minute < 60 := by decide
  deriving DecidableEq, Repr

namespace TimeOfDay

theorem ext {a b : TimeOfDay} (hour : a.hour = b.hour) (minute : a.minute = b.minute) : a = b := by
  cases a; cases b; simp_all

def startOfDay : TimeOfDay := { hour := 0, minute := 0 }

def endOfDay : TimeOfDay := { hour := 23, minute := 59 }

instance : Ord TimeOfDay where
  compare a b := (compare a.hour b.hour).then (compare a.minute b.minute)

instance : LE TimeOfDay := leOfOrd

theorem le_iff {a b : TimeOfDay} :
    a ≤ b ↔ a.hour < b.hour ∨ a.hour = b.hour ∧ a.minute ≤ b.minute := by
  show ((compare a.hour b.hour).then (compare a.minute b.minute)).isLE = true ↔ _
  rcases Nat.lt_trichotomy a.hour b.hour with h | h | h
  · simp [Nat.compare_eq_lt.2 h, h]
  · simp [h, Nat.isLE_compare]
  · simp [Nat.compare_eq_gt.2 h]; omega

def ofHourMinute? (hour minute : Nat) : Option TimeOfDay :=
  if h : hour < 24 ∧ minute < 60 then some ⟨hour, minute, h.1, h.2⟩ else none

theorem ofHourMinute?_hour_minute (t : TimeOfDay) : ofHourMinute? t.hour t.minute = some t := by
  simp [ofHourMinute?, t.hour_lt, t.minute_lt]

theorem ofHourMinute?_eq_some {hour minute : Nat} {t : TimeOfDay}
    (h : ofHourMinute? hour minute = some t) : t.hour = hour ∧ t.minute = minute := by
  unfold ofHourMinute? at h
  split at h
  · obtain rfl := Option.some.inj h
    exact ⟨rfl, rfl⟩
  · simp at h

def twoDigits (n : Nat) : List Char :=
  [Nat.digitChar (n / 10), Nat.digitChar (n % 10)]

def digitValue (c : Char) : Nat :=
  c.toNat - '0'.toNat

theorem isDigit_digitChar {n : Nat} (h : n < 10) : (Nat.digitChar n).isDigit = true := by
  revert n; decide

theorem digitValue_digitChar {n : Nat} (h : n < 10) : digitValue (Nat.digitChar n) = n := by
  revert n; decide

def digits (t : TimeOfDay) : List Char :=
  twoDigits t.hour ++ twoDigits t.minute

def ofDigits? : List Char → Option TimeOfDay
  | [a, b, c, d] =>
    if a.isDigit && b.isDigit && c.isDigit && d.isDigit then
      ofHourMinute? (10 * digitValue a + digitValue b) (10 * digitValue c + digitValue d)
    else
      none
  | _ => none

theorem ofDigits?_digits (t : TimeOfDay) : ofDigits? t.digits = some t := by
  have hh := t.hour_lt
  have hm := t.minute_lt
  have h1 : t.hour / 10 < 10 := by omega
  have h2 : t.hour % 10 < 10 := by omega
  have h3 : t.minute / 10 < 10 := by omega
  have h4 : t.minute % 10 < 10 := by omega
  simp only [digits, twoDigits, List.cons_append, List.nil_append, ofDigits?, isDigit_digitChar,
    digitValue_digitChar, h1, h2, h3, h4, Bool.and_self, if_true, Nat.div_add_mod]
  exact ofHourMinute?_hour_minute t

instance : ToString TimeOfDay where
  toString t := String.ofList t.digits

end TimeOfDay

end Timetable
