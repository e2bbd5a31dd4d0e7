import Timetable.Error
import Timetable.Language.Cursor
import Timetable.Language.Scan

namespace Timetable

open Text (Position)

structure Layout where
  blanks : List Char := [' ', '\t', '\x0c']
  endOfLine : Char := '\n'
  deriving DecidableEq, Repr

namespace Layout

def separates (l : Layout) (c : Char) : Bool :=
  c = l.endOfLine || c ∈ l.blanks

@[simp]
theorem separates_endOfLine (l : Layout) : l.separates l.endOfLine = true := by
  simp [separates]

end Layout

structure Lexer where
  buffer : List Char
  layout : Layout
  cursor : Cursor
  deriving DecidableEq, Repr

namespace Lexer

/-- The last line gets an end if it lacks one, so that the input always ends in column 0. -/
def terminated (endOfLine : Char) (source : List Char) : List Char :=
  match source.getLast? with
  | some c => if c = endOfLine then source else source ++ [endOfLine]
  | none => []

def ofString (source : String) (layout : Layout) : Lexer :=
  ⟨terminated layout.endOfLine source.toList, layout, .start⟩

def rest (l : Lexer) : List Char :=
  l.buffer.drop l.cursor.offset

def position (l : Lexer) : Position :=
  l.cursor.position

def past (l : Lexer) (cs : List Char) : Lexer :=
  { l with cursor := l.cursor.past l.layout.endOfLine cs }

theorem rest_past (l : Lexer) (cs : List Char) : (l.past cs).rest = l.rest.drop cs.length := by
  simp [rest, past]

def skipSeparators (l : Lexer) : Lexer :=
  l.past (l.rest.takeWhile l.layout.separates)

def spotAt (l : Lexer) (p : Position) : Spot :=
  ⟨p, Text.lineAt l.layout.endOfLine p.line l.buffer⟩

def refuse (l : Lexer) (why : Complaint) : Error :=
  .unexpectedCharacter (l.spotAt ⟨l.position.line, l.position.column - why.back⟩) why.expected

def next : EStateM Error Lexer Token := fun l =>
  let before := l.skipSeparators
  let scan := Scan.ofChars before.rest
  let after := before.past scan.lexeme
  match scan.outcome with
  | .ok kind => .ok ⟨kind, scan.lexeme, before.position⟩ after
  | .error why => .error (after.refuse why) after

theorem length_rest_next {l l' : Lexer} {t : Token} (h : l.next = .ok t l') :
    (l'.rest.length + if t.kind = .endInput then 0 else 1) ≤ l.rest.length := by
  simp only [next] at h
  split at h
  · next kind hk =>
    cases h
    have hs : l.skipSeparators.rest.length ≤ l.rest.length := by
      simp [skipSeparators, rest_past]
    have hp := (Scan.lexeme_isPrefix l.skipSeparators.rest).length_le
    simp only [rest_past, List.length_drop]
    split
    · omega
    · next hne =>
      have := List.length_pos_iff.2 (Scan.lexeme_ne_nil hk hne)
      omega
  · cases h

end Lexer

end Timetable
