import Timetable.Error

namespace Timetable.TimeOfDay

def padded (n : Nat) : String :=
  if n < 10 then "0" ++ toString n else toString n

def ofHourMinute (hour minute : Nat) : Except Error TimeOfDay :=
  match ofHourMinute? hour minute with
  | some t => .ok t
  | none => .error (.invalidTime (padded hour ++ ":" ++ padded minute))

def ofChars (text : List Char) : Except Error TimeOfDay :=
  match ofDigits? text with
  | some t => .ok t
  | none => .error (.invalidTime (String.ofList text))

def ofString (text : String) : Except Error TimeOfDay :=
  ofChars text.toList

theorem ofString_eq_ok_iff {s : String} {t : TimeOfDay} :
    ofString s = .ok t ↔ ofDigits? s.toList = some t := by
  rw [ofString, ofChars]
  cases ofDigits? s.toList <;> simp

theorem ofString_toString (t : TimeOfDay) : ofString (toString t) = .ok t := by
  simp [ofString, ofChars, toString, ofDigits?_digits]

end Timetable.TimeOfDay
