import Timetable.Interval.Occurrence
import Timetable.Schedule.Basic

namespace Timetable.Schedule

def candidates (s : Schedule) (m : Moment) : List Moment :=
  s.allowed.map (·.nextStart m) ++ s.forbidden.map (·.nextEnd m) ++ [m]

def nextAllowed (s : Schedule) (m : Moment) : Except Error Moment :=
  let here := m.inZone s.zone
  match (((s.candidates here).filter s.allows).map (·.instant)).min? with
  | some t => .ok { m with instant := t }
  | none => .error .nothingAllowed

def wait (s : Schedule) (m : Moment) : Except Error Nat :=
  if s.allows m then .ok 0
  else (s.nextAllowed m).map fun next => (next.instant - m.instant).toNat

end Timetable.Schedule
