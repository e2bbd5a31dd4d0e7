import Timetable.Clock.ZoneTable
import Timetable.Json.Basic
import Timetable.Schedule.Basic

namespace Timetable

namespace TimeOfDay

def toJson (t : TimeOfDay) : Json :=
  .string (toString t)

def ofJson? : Json → Option TimeOfDay
  | .string s => ofDigits? s.toList
  | _ => none

theorem ofJson?_toJson (t : TimeOfDay) : ofJson? t.toJson = some t := by
  simp [ofJson?, toJson, toString, ofDigits?_digits]

end TimeOfDay

namespace Interval

def toJson (i : Interval) : Json :=
  .object [("start", i.first.toJson), ("end", i.last.toJson)]

def ofJson? : Json → Option Interval :=
  Json.pair? "start" "end" TimeOfDay.ofJson? TimeOfDay.ofJson? Interval.mk

theorem ofJson?_toJson (i : Interval) : ofJson? i.toJson = some i := by
  simp [ofJson?, toJson, Json.pair?_object, TimeOfDay.ofJson?_toJson]

end Interval

namespace Directive

def toJson (d : Directive) : Json :=
  .string d.name

def ofJson? : Json → Option Directive
  | .string name => ofName? name
  | .object [(name, .null)] => ofName? name
  | _ => none

theorem ofJson?_toJson (d : Directive) : ofJson? d.toJson = some d :=
  ofName?_name d

end Directive

namespace Agenda

def toJson (a : Agenda) : Json :=
  .object
    [("intervals", .array (a.intervals.map Interval.toJson)), ("directive", a.directive.toJson)]

def ofJson? : Json → Option Agenda :=
  Json.pair? "intervals" "directive" (Json.list? Interval.ofJson?) Directive.ofJson? Agenda.mk

theorem ofJson?_toJson (a : Agenda) : ofJson? a.toJson = some a := by
  have h : Json.list? Interval.ofJson? (.array (a.intervals.map Interval.toJson)) =
      some a.intervals :=
    Json.list?_array_map fun i _ => Interval.ofJson?_toJson i
  simp [ofJson?, toJson, Json.pair?_object, h, Directive.ofJson?_toJson]

end Agenda

namespace Weekday

def toJson (d : Weekday) : Json :=
  .string d.shortName.capitalize

def ofJson? : Json → Option Weekday
  | .string name => ofName? name.toList
  | _ => none

theorem ofJson?_toJson (d : Weekday) : ofJson? d.toJson = some d := by
  cases d <;> decide +kernel

end Weekday

namespace DayInterval

def toJson (w : DayInterval) : Json :=
  .object [("day_of_week", w.day.toJson), ("interval", w.interval.toJson)]

def ofJson? : Json → Option DayInterval :=
  Json.pair? "day_of_week" "interval" Weekday.ofJson? Interval.ofJson? DayInterval.mk

theorem ofJson?_toJson (w : DayInterval) : ofJson? w.toJson = some w := by
  simp [ofJson?, toJson, Json.pair?_object, Weekday.ofJson?_toJson, Interval.ofJson?_toJson]

end DayInterval

namespace Zone

def toJson (z : Zone) : Json :=
  .string z.name

def ofJsonWith? (find? : String → Option Zone) : Json → Option Zone
  | .string name => find? name
  | _ => none

end Zone

namespace Schedule

def toJson (s : Schedule) : Json :=
  .object
    [("allowed", .array (s.allowed.map DayInterval.toJson)),
      ("forbidden", .array (s.forbidden.map DayInterval.toJson)), ("tz", s.zone.toJson)]

def ofJsonWith? (find? : String → Option Zone) (j : Json) : Option Schedule :=
  match j.fields? ["allowed", "forbidden", "tz"] with
  | some [allowed, forbidden, zone] => do
    let allowed ← Json.list? DayInterval.ofJson? allowed
    let forbidden ← Json.list? DayInterval.ofJson? forbidden
    let zone ← Zone.ofJsonWith? find? zone
    return ⟨allowed, forbidden, zone⟩
  | _ => none

def ofJson? : Json → Option Schedule :=
  ofJsonWith? Zone.find?

theorem ofJsonWith?_toJson {find? : String → Option Zone} {s : Schedule}
    (h : find? s.zone.name = some s.zone) : ofJsonWith? find? s.toJson = some s := by
  have hlist (ws : List DayInterval) :
      Json.list? DayInterval.ofJson? (.array (ws.map DayInterval.toJson)) = some ws :=
    Json.list?_array_map fun w _ => DayInterval.ofJson?_toJson w
  simp [ofJsonWith?, toJson, Json.fields?, List.lookup_cons, hlist, Zone.ofJsonWith?, Zone.toJson, h]

end Schedule

end Timetable
