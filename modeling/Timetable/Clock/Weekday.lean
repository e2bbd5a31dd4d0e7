namespace Timetable

inductive Weekday where
  | sunday
  | monday
  | tuesday
  | wednesday
  | thursday
  | friday
  | saturday
  deriving DecidableEq, Repr

namespace Weekday

def all : List Weekday :=
  [.sunday, .monday, .tuesday, .wednesday, .thursday, .friday, .saturday]

def index : Weekday → Nat
  | .sunday => 0
  | .monday => 1
  | .tuesday => 2
  | .wednesday => 3
  | .thursday => 4
  | .friday => 5
  | .saturday => 6

theorem index_lt (d : Weekday) : d.index < 7 := by
  cases d <;> decide

theorem index_inj {d e : Weekday} : d.index = e.index ↔ d = e := by
  cases d <;> cases e <;> decide

def ofIndex (n : Nat) : Weekday :=
  match n % 7 with
  | 0 => .sunday
  | 1 => .monday
  | 2 => .tuesday
  | 3 => .wednesday
  | 4 => .thursday
  | 5 => .friday
  | _ => .saturday

@[simp]
theorem index_ofIndex (n : Nat) : (ofIndex n).index = n % 7 := by
  have h : ∀ k < 7, (ofIndex k).index = k := by decide
  have hn : ofIndex n = ofIndex (n % 7) := by simp [ofIndex]
  rw [hn, h _ (Nat.mod_lt _ (by decide))]

@[simp]
theorem ofIndex_index (d : Weekday) : ofIndex d.index = d := by
  cases d <;> rfl

def daysUntil (d e : Weekday) : Nat :=
  (7 + e.index - d.index) % 7

theorem daysUntil_lt (d e : Weekday) : d.daysUntil e < 7 :=
  Nat.mod_lt _ (by decide)

def through (first last : Weekday) : List Weekday :=
  (List.range (first.daysUntil last + 1)).map fun k => ofIndex (first.index + k)

def fullName : Weekday → String
  | .sunday => "sunday"
  | .monday => "monday"
  | .tuesday => "tuesday"
  | .wednesday => "wednesday"
  | .thursday => "thursday"
  | .friday => "friday"
  | .saturday => "saturday"

def shortName : Weekday → String
  | .sunday => "sun"
  | .monday => "mon"
  | .tuesday => "tue"
  | .wednesday => "wed"
  | .thursday => "thu"
  | .friday => "fri"
  | .saturday => "sat"

def ofName? (name : List Char) : Option Weekday :=
  all.find? fun d =>
    name.map Char.toLower = d.fullName.toList || name.map Char.toLower = d.shortName.toList

theorem ofName?_fullName (d : Weekday) : ofName? d.fullName.toList = some d := by
  cases d <;> decide

theorem ofName?_shortName (d : Weekday) : ofName? d.shortName.toList = some d := by
  cases d <;> decide

end Weekday

end Timetable
