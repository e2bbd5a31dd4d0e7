import Timetable.Interval.Basic

namespace Timetable

inductive Directive where
  | allow
  | forbid
  deriving DecidableEq, Repr, Ord

namespace Directive

def all : List Directive := [.allow, .forbid]

def name : Directive → String
  | .allow => "allow"
  | .forbid => "forbid"

def ofName? (name : String) : Option Directive :=
  all.find? fun d => d.name = name

theorem ofName?_name (d : Directive) : ofName? d.name = some d := by
  cases d <;> decide

instance : ToString Directive := ⟨name⟩

end Directive

structure Agenda where
  intervals : List Interval
  directive : Directive
  deriving DecidableEq, Repr, Ord

def Agenda.onDays (a : Agenda) (days : List Weekday) : List DayInterval :=
  a.intervals.flatMap fun i => days.map fun d => ⟨d, i⟩

end Timetable
