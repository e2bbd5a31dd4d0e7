namespace Timetable.Text

structure Position where
  line : Nat
  column : Nat
  deriving DecidableEq, Repr, Ord

instance : ToString Position where
  toString p := s!"line {p.line} column {p.column}"

def lineAt (endOfLine : Char) : Nat → List Char → List Char
  | 0, cs => cs.takeWhile (· ≠ endOfLine)
  | n + 1, cs => lineAt endOfLine n ((cs.dropWhile (· ≠ endOfLine)).drop 1)

end Timetable.Text
