import Timetable.Interval.Basic

namespace Timetable.DayInterval

def nextStart (w : DayInterval) (m : Moment) : Moment :=
  let date := Date.onOrAfter (Reading.date m.reading) w.day
  let start := m.zone.instantOf date w.interval.first
  { m with
    instant := if m.instant ≤ start then start else m.zone.instantOf (date + 7) w.interval.first }

def nextEnd (w : DayInterval) (m : Moment) : Moment :=
  let date := Date.onOrAfter (Reading.date m.reading) w.day
  let after := m.zone.instantOf date w.interval.last + Span.minute
  { m with
    instant :=
      if m.instant < after then after
      else m.zone.instantOf (date + 7) w.interval.last + Span.minute }

theorem zone_nextStart (w : DayInterval) (m : Moment) : (w.nextStart m).zone = m.zone := rfl

theorem zone_nextEnd (w : DayInterval) (m : Moment) : (w.nextEnd m).zone = m.zone := rfl

end Timetable.DayInterval
