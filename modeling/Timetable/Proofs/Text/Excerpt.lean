import Mathlib.Data.List.DropRight
import Mathlib.Data.List.Infix
import Timetable.Text.Excerpt

namespace Timetable.Text.Excerpt

structure Shows (cs : List Char) (column : Nat) (shown : List Char) : Prop where
  window : ∃ breaks, (cs.drop (column - 39)).take 80 = shown ++ breaks ∧
    ∀ b ∈ breaks, b = '\n' ∨ b = '\r'
  trimmed : ∀ b ∈ shown.getLast?, b ≠ '\n' ∧ b ≠ '\r'

def indent (column : Nat) : Nat :=
  column - (column - 39)

theorem indent_le (column : Nat) : indent column ≤ 39 := by
  unfold indent
  omega

theorem isLineBreak_iff {c : Char} : isLineBreak c = true ↔ c = '\n' ∨ c = '\r' := by
  simp [isLineBreak]

theorem visible_eq (cs : List Char) (column : Nat) :
    visible cs column = ((cs.drop (column - 39)).take 80).rdropWhile isLineBreak := rfl

theorem shows_visible (cs : List Char) (column : Nat) :
    Shows cs column (visible cs column) := by
  rw [visible_eq]
  refine ⟨⟨_, List.rdropWhile_append_rtakeWhile.symm, fun b hb => ?_⟩, fun b hb => ?_⟩
  · exact isLineBreak_iff.1 (List.mem_rtakeWhile_imp hb)
  · obtain ⟨hne, rfl⟩ := List.mem_getLast?_eq_getLast hb
    have hlast := List.rdropWhile_last_not isLineBreak _ hne
    exact not_or.1 fun h => hlast (isLineBreak_iff.2 h)

namespace Shows

variable {cs shown : List Char} {column : Nat} {d : Char}

theorem length_le (h : Shows cs column shown) : shown.length ≤ 80 := by
  obtain ⟨breaks, hwindow, -⟩ := h.window
  have hlength := congrArg List.length hwindow
  rw [List.length_take, List.length_append] at hlength
  omega

theorem mem_of_mem (h : Shows cs column shown) (hd : d ∈ shown) : d ∈ cs := by
  obtain ⟨breaks, hwindow, -⟩ := h.window
  have hmem : d ∈ (cs.drop (column - 39)).take 80 := by
    rw [hwindow]
    exact List.mem_append_left _ hd
  exact List.mem_of_mem_drop (List.mem_of_mem_take hmem)

theorem getElem?_column (h : Shows cs column shown) (hd : cs[column]? = some d) :
    shown[indent column]? = some d ∨
      shown.length ≤ indent column ∧ (d = '\n' ∨ d = '\r') := by
  obtain ⟨breaks, hwindow, hbreaks⟩ := h.window
  have hplace : ((cs.drop (column - 39)).take 80)[indent column]? = some d := by
    have hindent : column - 39 + indent column = column := Nat.add_sub_cancel' (Nat.sub_le _ _)
    have hle := indent_le column
    rw [List.getElem?_take_of_lt (by omega), List.getElem?_drop, hindent, hd]
  rw [hwindow, List.getElem?_append] at hplace
  split at hplace
  · exact .inl hplace
  · next hge => exact .inr ⟨Nat.le_of_not_lt hge, hbreaks d (List.mem_of_getElem? hplace)⟩

end Shows

theorem newline_notMem_visible (column : Nat) {cs : List Char} (h : '\n' ∉ cs) :
    '\n' ∉ margin ++ visible cs column := by
  rw [List.mem_append, not_or]
  exact ⟨by decide, fun hmem => h ((shows_visible cs column).mem_of_mem hmem)⟩

theorem arrow_eq (column : Nat) : arrow column = List.replicate (indent column) ' ' ++ ['^'] := rfl

theorem newline_notMem_arrow (column : Nat) : '\n' ∉ margin ++ arrow column := by
  simp [margin, arrow]

end Timetable.Text.Excerpt
