import Timetable.Text.Position

namespace Timetable

open Text (Position)

structure Cursor where
  offset : Nat
  line : Nat
  lineStart : Nat
  deriving DecidableEq, Repr

namespace Cursor

def start : Cursor := ⟨0, 0, 0⟩

def step (endOfLine : Char) (k : Cursor) (c : Char) : Cursor :=
  if c = endOfLine then ⟨k.offset + 1, k.line + 1, k.offset + 1⟩
  else { k with offset := k.offset + 1 }

def past (endOfLine : Char) (k : Cursor) (cs : List Char) : Cursor :=
  cs.foldl (step endOfLine) k

@[simp]
theorem offset_step (endOfLine : Char) (k : Cursor) (c : Char) :
    (step endOfLine k c).offset = k.offset + 1 := by
  unfold step
  split <;> rfl

@[simp]
theorem offset_past (endOfLine : Char) (k : Cursor) (cs : List Char) :
    (past endOfLine k cs).offset = k.offset + cs.length := by
  induction cs generalizing k with
  | nil => rfl
  | cons c cs ih =>
    have h := ih (step endOfLine k c)
    simp only [offset_step] at h
    simp only [List.length_cons]
    exact h.trans (by omega)

def position (k : Cursor) : Position :=
  ⟨k.line, k.offset - k.lineStart⟩

end Cursor

end Timetable
