import Timetable.Proofs.Language.TokenOrder
import Timetable.Proofs.Text.Lines

namespace Timetable

namespace Cursor

variable {endOfLine : Char} {k : Cursor} {read : List Char}

structure Tracks (endOfLine : Char) (read : List Char) (k : Cursor) : Prop where
  offset_eq : k.offset = read.length
  line_eq : k.line = read.count endOfLine
  afterLast : Text.AfterLast endOfLine read k.lineStart

namespace Tracks

theorem start : Tracks endOfLine [] .start := ⟨rfl, rfl, .nil⟩

theorem step (h : Tracks endOfLine read k) (c : Char) :
    Tracks endOfLine (read ++ [c]) (step endOfLine k c) := by
  have hoffset : k.offset + 1 = (read ++ [c]).length := by simp [h.offset_eq]
  unfold Cursor.step
  split
  · next hc =>
    subst hc
    refine ⟨hoffset, by simp [h.line_eq], ?_⟩
    rw [hoffset]
    exact .concat_self
  · next hc => exact ⟨hoffset, by simp [h.line_eq, hc], h.afterLast.concat hc⟩

theorem past (h : Tracks endOfLine read k) (cs : List Char) :
    Tracks endOfLine (read ++ cs) (past endOfLine k cs) := by
  induction cs generalizing read k with
  | nil =>
    rw [List.append_nil]
    exact h
  | cons c cs ih =>
    rw [List.append_cons]
    exact ih (h.step c)

theorem lineStart_le (h : Tracks endOfLine read k) : k.lineStart ≤ k.offset := by
  rw [h.offset_eq]
  exact h.afterLast.le

theorem position_eq (h : Tracks endOfLine read k) :
    k.position = ⟨read.count endOfLine, read.length - k.lineStart⟩ := by
  rw [position, h.line_eq, h.offset_eq]

end Tracks

end Cursor

namespace Lexer

variable {l r : Lexer} {t : Token}

theorem getLast?_terminated (endOfLine : Char) (source : List Char) :
    ∀ c ∈ (terminated endOfLine source).getLast?, c = endOfLine := by
  unfold terminated
  split
  · next hlast =>
    split
    · next h =>
      rintro _ hd
      rw [hlast] at hd
      cases hd
      exact h
    · simp
  · simp

def read (l : Lexer) : List Char :=
  l.buffer.take l.cursor.offset

theorem read_append_rest (l : Lexer) : l.read ++ l.rest = l.buffer :=
  List.take_append_drop _ _

theorem read_past {cs : List Char} (hcs : cs <+: l.rest) : (l.past cs).read = l.read ++ cs := by
  rw [read, past, Cursor.offset_past, List.take_add]
  congr 1
  exact (List.prefix_iff_eq_take.1 hcs).symm

def Placed (l : Lexer) : Prop :=
  l.cursor.Tracks l.layout.endOfLine l.read

namespace Placed

theorem ofString (source : String) (layout : Layout) : (ofString source layout).Placed :=
  Cursor.Tracks.start

theorem offset_le (h : l.Placed) : l.cursor.offset ≤ l.buffer.length := by
  have := h.offset_eq
  simp only [read, List.length_take] at this
  omega

theorem past (h : l.Placed) {cs : List Char} (hcs : cs <+: l.rest) : (l.past cs).Placed := by
  rw [Placed, read_past hcs]
  exact Cursor.Tracks.past h cs

theorem skipSeparators (h : l.Placed) : l.skipSeparators.Placed :=
  h.past (List.takeWhile_prefix _)

theorem of_next (h : l.Placed) (hnext : l.next = .ok t r) : r.Placed := by
  obtain ⟨-, hlexeme, -, rfl⟩ := next_eq_ok_iff.1 hnext
  rw [← hlexeme]
  exact h.skipSeparators.past (Scan.lexeme_isPrefix _)

theorem line_le (h : l.Placed) : l.position.line ≤ l.buffer.count l.layout.endOfLine := by
  have hline : l.position.line = l.read.count l.layout.endOfLine := h.line_eq
  rw [hline, ← read_append_rest, List.count_append]
  exact Nat.le_add_right _ _

theorem line_le_of_reads {ts : List Token} (hl : l.Placed) (h : l.Reads (ts ++ [t]) r) :
    t.position.line ≤ l.buffer.count l.layout.endOfLine := by
  induction ts generalizing l with
  | nil =>
    obtain ⟨-, -, hposition, -⟩ := next_eq_ok_iff.1 (Reads.singleton_iff.1 h)
    rw [← hposition]
    exact hl.skipSeparators.line_le
  | cons u ts ih =>
    obtain ⟨q, hnext, hreads⟩ := Reads.cons_iff.1 h
    have hle := ih (hl.of_next hnext) hreads
    obtain ⟨-, -, -, rfl⟩ := next_eq_ok_iff.1 hnext
    exact hle

end Placed

structure Locates (l : Lexer) (p : Text.Position) (spot : Spot) : Prop where
  position_eq : spot.position = p
  line_eq : (l.buffer.splitOn l.layout.endOfLine)[p.line]? = some spot.line

theorem locates_iff {p : Text.Position} {spot : Spot}
    (h : p.line ≤ l.buffer.count l.layout.endOfLine) : l.Locates p spot ↔ spot = l.spotAt p := by
  have hline := Text.getElem?_splitOn h
  constructor
  · rintro ⟨rfl, hspot⟩
    rw [hline] at hspot
    rw [spotAt, Option.some.inj hspot]
  · rintro rfl
    exact ⟨rfl, hline⟩

def proceed (l : Lexer) : Lexer :=
  match l.next with
  | .ok _ r => r
  | .error _ r => r

def after (l : Lexer) : Nat → Lexer
  | 0 => l
  | n + 1 => l.proceed.after n

theorem proceed_eq (l : Lexer) :
    l.proceed = l.skipSeparators.past (Scan.ofChars l.skipSeparators.rest).lexeme := by
  unfold proceed
  split
  · next h =>
    obtain ⟨-, hlexeme, -, rfl⟩ := next_eq_ok_iff.1 h
    rw [hlexeme]
  · next h =>
    obtain ⟨_, -, rfl, -⟩ := next_eq_error_iff.1 h
    rfl

theorem Placed.proceed (h : l.Placed) : l.proceed.Placed := by
  rw [proceed_eq]
  exact h.skipSeparators.past (Scan.lexeme_isPrefix _)

theorem Placed.after (h : l.Placed) (n : Nat) : (l.after n).Placed := by
  induction n generalizing l with
  | zero => exact h
  | succ n ih => exact ih h.proceed

theorem buffer_after (l : Lexer) (n : Nat) : (l.after n).buffer = l.buffer := by
  induction n generalizing l with
  | zero => rfl
  | succ n ih =>
    rw [after, ih, proceed_eq]
    rfl

theorem layout_after (l : Lexer) (n : Nat) : (l.after n).layout = l.layout := by
  induction n generalizing l with
  | zero => rfl
  | succ n ih =>
    rw [after, ih, proceed_eq]
    rfl

theorem after_of_next_eq_self (h : l.next = .ok t l) (n : Nat) : l.after n = l := by
  have hproceed : l.proceed = l := by rw [proceed, h]
  induction n with
  | zero => rfl
  | succ n ih => rw [after, hproceed, ih]

def Passes (l : Lexer) (t : Token) (r : Lexer) : Prop :=
  ∃ seps lineStart, (∀ c ∈ seps, l.layout.separates c) ∧
    l.rest = seps ++ (t.lexeme ++ r.rest) ∧ r.read = l.read ++ (seps ++ t.lexeme) ∧
    Text.AfterLast l.layout.endOfLine (l.read ++ seps) lineStart ∧
    t.position = ⟨(l.read ++ seps).count l.layout.endOfLine, (l.read ++ seps).length - lineStart⟩

theorem lexeme_isPrefix_of_next (h : l.next = .ok t r) : t.lexeme <+: l.skipSeparators.rest := by
  obtain ⟨-, hlexeme, -, -⟩ := next_eq_ok_iff.1 h
  rw [← hlexeme]
  exact Scan.lexeme_isPrefix _

theorem rest_eq_of_next (h : l.next = .ok t r) :
    l.rest = l.rest.takeWhile l.layout.separates ++ (t.lexeme ++ r.rest) := by
  obtain ⟨rest, hrest⟩ := lexeme_isPrefix_of_next h
  obtain ⟨-, -, -, rfl⟩ := next_eq_ok_iff.1 h
  rw [rest_past, ← hrest, List.drop_left, hrest, skipSeparators, rest_past]
  exact List.prefix_append_drop (List.takeWhile_prefix _)

theorem Placed.passes (hl : l.Placed) (h : l.next = .ok t r) : l.Passes t r := by
  have hrest := rest_eq_of_next h
  have hprefix := lexeme_isPrefix_of_next h
  obtain ⟨-, -, hposition, rfl⟩ := next_eq_ok_iff.1 h
  have hskip : l.skipSeparators.read = l.read ++ l.rest.takeWhile l.layout.separates :=
    read_past (List.takeWhile_prefix _)
  have hplaced := hl.skipSeparators
  rw [Placed, hskip] at hplaced
  refine ⟨_, _, fun _ => List.mem_takeWhile_imp, hrest, ?_, hplaced.afterLast, ?_⟩
  · rw [read_past hprefix, hskip, List.append_assoc]
  · rw [← hposition]
    exact hplaced.position_eq

theorem offset_lt_of_next (h : l.next = .ok t r) (ht : t.kind ≠ .endInput) :
    l.cursor.offset < r.cursor.offset := by
  have hpos := List.length_pos_iff.2 (lexeme_ne_nil_of_next h ht)
  obtain ⟨-, -, -, rfl⟩ := next_eq_ok_iff.1 h
  simp only [past, skipSeparators, Cursor.offset_past]
  omega

theorem Placed.endInput_eq (hl : l.Placed) (hend : ∀ c ∈ l.buffer.getLast?, c = l.layout.endOfLine)
    (h : l.next = .ok t r) (ht : t.kind = .endInput) :
    t = ⟨.endInput, [], ⟨l.buffer.count l.layout.endOfLine, 0⟩⟩ := by
  obtain ⟨-, hlexeme, hposition, -⟩ := next_eq_ok_iff.1 h
  have hrest := rest_eq_nil_of_endInput h ht
  have hplaced := hl.skipSeparators
  have hread : l.skipSeparators.read = l.buffer := by
    rw [← List.append_nil l.skipSeparators.read, ← hrest]
    exact read_append_rest _
  rw [Placed, hread] at hplaced
  have hstart := hplaced.afterLast.eq_length hend
  rw [hrest, Scan.ofChars] at hlexeme
  obtain ⟨kind, lexeme, position⟩ := t
  obtain rfl : lexeme = [] := hlexeme.symm
  obtain rfl : kind = .endInput := ht
  have hcolumn : position = ⟨l.buffer.count l.layout.endOfLine, 0⟩ := by
    have hcursor := hplaced.position_eq
    rw [hstart, Nat.sub_self] at hcursor
    exact hposition.symm.trans hcursor
  rw [hcolumn]

theorem every_run_lossless (source : String) (layout : Layout) (n : Nat) :
    let l := (ofString source layout).after n
    (l.buffer = terminated layout.endOfLine source.toList ∧ l.layout = layout) ∧
    (l.cursor.offset ≤ l.buffer.length ∧ l.cursor.line = l.read.count layout.endOfLine ∧
      Text.AfterLast layout.endOfLine l.read l.cursor.lineStart ∧
      l.cursor.lineStart ≤ l.cursor.offset) ∧
    ∀ t r, l.next = .ok t r →
      l.Passes t r ∧ (t.kind ≠ .endInput → l.cursor.offset < r.cursor.offset) ∧
      (t.kind = .endInput → t.lexeme = [] ∧ t.position = ⟨l.buffer.count layout.endOfLine, 0⟩ ∧
        ∀ m, (r.after m).next = .ok t r) := by
  intro l
  have hplaced : l.Placed := (Placed.ofString source layout).after n
  have hbuffer : l.buffer = terminated layout.endOfLine source.toList := buffer_after _ n
  have hlayout : l.layout = layout := layout_after _ n
  have htracks : l.cursor.Tracks layout.endOfLine l.read := by
    rw [← hlayout]
    exact hplaced
  refine ⟨⟨hbuffer, hlayout⟩, ⟨hplaced.offset_le, htracks.line_eq, htracks.afterLast,
    htracks.lineStart_le⟩, fun t r h => ⟨hplaced.passes h, offset_lt_of_next h, fun ht => ?_⟩⟩
  have hend : ∀ c ∈ l.buffer.getLast?, c = l.layout.endOfLine := by
    rw [hbuffer, hlayout]
    exact getLast?_terminated _ _
  have heq := hplaced.endInput_eq hend h ht
  rw [hlayout] at heq
  have hagain : r.next = .ok t r := next_of_endInput h ht
  refine ⟨by rw [heq], by rw [heq], fun m => ?_⟩
  rw [after_of_next_eq_self hagain]
  exact hagain

theorem every_run_lossless_past_bad_word :
    let first := ofString "ab mon" ⟨[' '], 'n'⟩
    let t : Token := ⟨.dayOfWeek, "mon".toList, ⟨0, 3⟩⟩
    let e : Token := ⟨.endInput, [], ⟨1, 0⟩⟩
    (first.after 1).next = .ok t (first.after 2) ∧ (first.after 1).Passes t (first.after 2) ∧
      (first.after 1).cursor.offset < (first.after 2).cursor.offset ∧
      (first.after 2).next = .ok e (first.after 2) ∧
      ∀ m, ((first.after 2).after m).next = .ok e (first.after 2) := by
  intro first t e
  have hword : (first.after 1).next = .ok t (first.after 2) :=
    next_eq_ok_iff.2 (by decide +kernel +zetaReduce)
  have hend : (first.after 2).next = .ok e (first.after 2) :=
    next_eq_ok_iff.2 (by decide +kernel +zetaReduce)
  obtain ⟨-, -, hone⟩ := every_run_lossless "ab mon" ⟨[' '], 'n'⟩ 1
  obtain ⟨-, -, htwo⟩ := every_run_lossless "ab mon" ⟨[' '], 'n'⟩ 2
  obtain ⟨hpasses, hforward, -⟩ := hone t _ hword
  obtain ⟨-, -, hagain⟩ := htwo e _ hend
  obtain ⟨-, -, hforever⟩ := hagain rfl
  have hkind : t.kind ≠ .endInput := nofun
  refine ⟨hword, hpasses, ?_, hend, hforever⟩
  simpa only [first] using hforward hkind

end Lexer

end Timetable
