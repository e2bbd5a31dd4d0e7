import Timetable.Clock.ZoneTable
import Timetable.Language.Grammar

namespace Timetable.Schedule

def ofSourceWith (layout : Layout) (source : String) : Except Error Schedule :=
  match Parser.parse (.ofLexer (.ofString source layout)) with
  | .ok s _ => .ok s
  | .error e _ => .error e

def ofSource (source : String) (zone : Zone) : Except Error Schedule :=
  (ofSourceWith {} source).map (·.withZone zone)

def ofSourceIn (source : String) (zoneName : String) : Except Error Schedule :=
  match Zone.find? zoneName with
  | some zone => ofSource source zone
  | none => .error (.unknownZone zoneName)

def ofString (source : String) : Except Error Schedule :=
  ofSource source .utc

end Timetable.Schedule
