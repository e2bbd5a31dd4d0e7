import Timetable.Text.Position

namespace Timetable

open Text (Position)

inductive TokenKind where
  | endInput
  | allow
  | forbid
  | dayOfWeek
  | time
  | dash
  deriving DecidableEq, Repr, Ord

instance : ToString TokenKind where
  toString
    | .endInput => "END_INPUT"
    | .allow => "ALLOW"
    | .forbid => "FORBID"
    | .dayOfWeek => "DAY_OF_WEEK"
    | .time => "TIME"
    | .dash => "DASH"

structure Token where
  kind : TokenKind
  lexeme : List Char
  position : Position
  deriving DecidableEq, Repr

end Timetable
