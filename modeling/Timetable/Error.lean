import Timetable.Clock.TimeOfDay
import Timetable.Clock.Weekday
import Timetable.Language.Token
import Timetable.Text.Excerpt

namespace Timetable

open Text (Position)

structure Spot where
  position : Position
  line : List Char
  deriving DecidableEq, Repr

namespace Spot

def excerpt (s : Spot) : String :=
  String.ofList (Text.Excerpt.render s.line s.position.column)

end Spot

inductive Error where
  | unexpectedCharacter (spot : Spot) (expected : List Char)
  | unexpectedToken (spot : Spot) (expected : List TokenKind) (got : TokenKind)
  | notAllowed (day : Weekday) (time : TimeOfDay)
  | nothingAllowed
  | invalidTime (text : String)
  | unknownZone (name : String)
  deriving DecidableEq, Repr

namespace Error

def listed (items : List String) : String :=
  "expected one of: " ++ ", ".intercalate items

def quoted (c : Char) : String :=
  String.ofList ['\'', c, '\'']

def detail : Error → String
  | .unexpectedCharacter spot expected =>
    s!"missing or unexpected character in input stream on {spot.position}\n\n" ++ spot.excerpt ++
      if expected.isEmpty then "" else "\n\n" ++ listed (expected.map quoted)
  | .unexpectedToken spot expected got =>
    s!"missing or unexpected token in token stream on {spot.position}\n\n" ++ spot.excerpt ++
      "\n\n" ++ listed (expected.map toString) ++ s!"\ngot: {got}"
  | .notAllowed day time =>
    day.fullName.capitalize ++ " " ++
      String.ofList (TimeOfDay.twoDigits time.hour) ++ ":" ++
      String.ofList (TimeOfDay.twoDigits time.minute) ++ " is not allowed"
  | .nothingAllowed => "no allowed intervals in the schedule"
  | .invalidTime text => text
  | .unknownZone name => name

def heading : Error → String
  | .unexpectedCharacter .. => "lexer error: "
  | .unexpectedToken .. => "parser error: "
  | .notAllowed .. => "schedule error: "
  | .nothingAllowed => "schedule error: "
  | .invalidTime _ => "invalid time value: "
  | .unknownZone _ => "invalid time zone: "

def message (e : Error) : String :=
  e.heading ++ e.detail

end Error

end Timetable
