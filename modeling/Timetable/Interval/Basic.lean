import Timetable.Clock.Zone

namespace Timetable

/-- From the minute `first` to the minute `last`, both included; `last` may come before `first`. -/
structure Interval where
  first : TimeOfDay
  last : TimeOfDay
  deriving DecidableEq, Repr, Ord

namespace Interval

def wholeDay : Interval := ⟨.startOfDay, .endOfDay⟩

def covers (i : Interval) (t : TimeOfDay) : Bool :=
  (i.first.hour < t.hour && t.hour < i.last.hour)
    || (i.first.hour = t.hour && t.hour ≠ i.last.hour && i.first.minute ≤ t.minute)
    || (i.first.hour ≠ t.hour && t.hour = i.last.hour && t.minute ≤ i.last.minute)
    || (i.first.hour = t.hour && t.hour = i.last.hour
      && i.first.minute ≤ t.minute && t.minute ≤ i.last.minute)

def chars (i : Interval) : List Char :=
  i.first.digits ++ '-' :: i.last.digits

instance : ToString Interval where
  toString i := String.ofList i.chars

end Interval

structure DayInterval where
  day : Weekday
  interval : Interval
  deriving DecidableEq, Repr

namespace DayInterval

instance : ToString DayInterval where
  toString w := w.day.fullName ++ " " ++ toString w.interval

def contains (w : DayInterval) (m : Moment) : Bool :=
  Reading.weekday m.reading = w.day && w.interval.covers (Reading.timeOfDay m.reading)

end DayInterval

end Timetable
