import Timetable.Proofs.Language.Divergence
import Timetable.Proofs.Language.Expectation
import Timetable.Proofs.Text.Excerpt

namespace Timetable

open Text (Position)
open Text.Excerpt

theorem newline_notMem_toDigits (n : Nat) : '\n' ∉ Nat.toDigits 10 n := by
  intro hmem
  have hdigit := Nat.isDigit_of_mem_toDigits (by decide) (by decide) hmem
  cases hdigit

theorem Text.Position.newline_notMem_toString (p : Position) : '\n' ∉ (toString p).toList := by
  simp [toString, newline_notMem_toDigits]

namespace Error

def spot? : Error → Option Spot
  | .unexpectedCharacter spot _ => some spot
  | .unexpectedToken spot _ _ => some spot
  | _ => none

def lines (e : Error) : List (List Char) :=
  e.detail.toList.splitOn '\n'

variable {e : Error} {spot : Spot}

theorem detail_unexpectedCharacter {expected : List Char} (hne : expected ≠ []) :
    (unexpectedCharacter spot expected).detail =
      "missing or unexpected character in input stream on " ++ toString spot.position ++ "\n\n" ++
        spot.excerpt ++ ("\n\n" ++ listed (expected.map quoted)) := by
  obtain ⟨c, cs, rfl⟩ := List.exists_cons_of_ne_nil hne
  rfl

theorem detail_unexpectedToken (spot : Spot) (expected : List TokenKind) (got : TokenKind) :
    (unexpectedToken spot expected got).detail =
      "missing or unexpected token in token stream on " ++ toString spot.position ++ "\n\n" ++
        spot.excerpt ++ ("\n\n" ++ (listed (expected.map toString) ++ ("\ngot: " ++ toString got))) := by
  rw [← String.append_assoc, ← String.append_assoc]
  rfl

theorem exists_detail_eq (h : e.spot? = some spot) : ∃ what more : String, '\n' ∉ what.toList ∧
    (more = "" ∨ ∃ rest, more = "\n\n" ++ rest) ∧
    e.detail = what ++ toString spot.position ++ "\n\n" ++ spot.excerpt ++ more := by
  cases e with
  | unexpectedCharacter spot' expected =>
    cases h
    refine ⟨"missing or unexpected character in input stream on ", _, by decide, ?_, rfl⟩
    split
    · exact .inl rfl
    · exact .inr ⟨_, rfl⟩
  | unexpectedToken spot' expected got =>
    cases h
    exact ⟨_, _, by decide, .inr ⟨_, rfl⟩, detail_unexpectedToken spot expected got⟩
  | _ => cases h

theorem lines_of_detail_eq {what more : String} (hwhat : '\n' ∉ what.toList)
    (hline : '\n' ∉ spot.line)
    (h : e.detail = what ++ toString spot.position ++ "\n\n" ++ spot.excerpt ++ more) :
    e.lines = (what.toList ++ (toString spot.position).toList) :: [] ::
      (margin ++ visible spot.line spot.position.column) ::
        (margin ++ arrow spot.position.column ++ more.toList).splitOn '\n' := by
  have hheading : '\n' ∉ what.toList ++ (toString spot.position).toList := by
    rw [List.mem_append, not_or]
    exact ⟨hwhat, spot.position.newline_notMem_toString⟩
  have hquote := newline_notMem_visible spot.position.column hline
  have hlist : e.detail.toList = what.toList ++ (toString spot.position).toList ++
      '\n' :: ([] ++ '\n' :: (margin ++ visible spot.line spot.position.column ++
        '\n' :: (margin ++ arrow spot.position.column ++ more.toList))) := by
    rw [h, Spot.excerpt, render]
    simp
  rw [lines, hlist, Text.splitOn_append_cons hheading, Text.splitOn_append_cons List.not_mem_nil,
    Text.splitOn_append_cons hquote]

theorem exists_lines_eq (h : e.spot? = some spot) (hline : '\n' ∉ spot.line) : ∃ what more,
    e.lines = (what ++ (toString spot.position).toList) :: [] ::
      (margin ++ visible spot.line spot.position.column) ::
        (margin ++ arrow spot.position.column) :: more := by
  obtain ⟨what, more, hwhat, hmore, hdetail⟩ := exists_detail_eq h
  have harrow := newline_notMem_arrow spot.position.column
  have hlast : ∃ rest, (margin ++ arrow spot.position.column ++ more.toList).splitOn '\n' =
      (margin ++ arrow spot.position.column) :: rest := by
    rcases hmore with rfl | ⟨rest, rfl⟩
    · exact ⟨[], by rw [String.toList_empty, List.append_nil, Text.splitOn_of_notMem harrow]⟩
    · have hgap : ("\n\n" ++ rest).toList = '\n' :: '\n' :: rest.toList := String.toList_append
      exact ⟨_, by rw [hgap, Text.splitOn_append_cons harrow]⟩
  obtain ⟨rest, hrest⟩ := hlast
  exact ⟨what.toList, rest, by rw [lines_of_detail_eq hwhat hline hdetail, hrest]⟩

section Listing

variable {items : List String}

theorem notMem_intercalate {c : Char} (hc : c ∉ ", ".toList) (h : ∀ s ∈ items, c ∉ s.toList) :
    c ∉ (", ".intercalate items).toList := by
  induction items with
  | nil => simp
  | cons s items ih =>
    obtain ⟨hs, hitems⟩ := List.forall_mem_cons.1 h
    cases items with
    | nil => simpa using hs
    | cons s' items =>
      rw [String.intercalate_cons_cons, String.toList_append, String.toList_append,
        List.mem_append, List.mem_append, not_or, not_or]
      exact ⟨⟨hs, hc⟩, ih hitems⟩

theorem splitOn_intercalate (hne : items ≠ []) (h : ∀ s ∈ items, ',' ∉ s.toList) :
    (' ' :: (", ".intercalate items).toList).splitOn ',' = items.map (' ' :: ·.toList) := by
  induction items with
  | nil => exact absurd rfl hne
  | cons s items ih =>
    obtain ⟨hs, hitems⟩ := List.forall_mem_cons.1 h
    have hitem : ',' ∉ ' ' :: s.toList := by simpa using hs
    cases items with
    | nil => simpa using Text.splitOn_of_notMem hitem
    | cons s' items =>
      have htext : ' ' :: (", ".intercalate (s :: s' :: items)).toList =
          (' ' :: s.toList) ++ ',' :: (' ' :: (", ".intercalate (s' :: items)).toList) := by
        rw [String.intercalate_cons_cons]
        simp
      rw [htext, Text.splitOn_append_cons hitem, ih (by simp) hitems]
      rfl

theorem toList_listed (items : List String) :
    (listed items).toList = "expected one of: ".toList ++ (", ".intercalate items).toList :=
  String.toList_append

theorem newline_notMem_listed (h : ∀ s ∈ items, '\n' ∉ s.toList) :
    '\n' ∉ (listed items).toList := by
  rw [toList_listed, List.mem_append, not_or]
  exact ⟨by decide, notMem_intercalate (by decide) h⟩

def Lists (e : Error) (names : List String) (rest : List (List Char)) : Prop :=
  ∃ place told, place.length = 5 ∧ e.lines = place ++ ("expected one of:".toList ++ told) :: rest ∧
    told.splitOn ',' = names.map (' ' :: ·.toList)

theorem lists_of_detail_eq {what more : String} {rest : List (List Char)} (hwhat : '\n' ∉ what.toList)
    (hline : '\n' ∉ spot.line)
    (hdetail : e.detail = what ++ toString spot.position ++ "\n\n" ++ spot.excerpt ++ ("\n\n" ++ more))
    (hmore : more.toList.splitOn '\n' = (listed items).toList :: rest) (hne : items ≠ [])
    (hcomma : ∀ s ∈ items, ',' ∉ s.toList) : e.Lists items rest := by
  have hhead : "expected one of: ".toList = "expected one of:".toList ++ [' '] := by decide
  have hgap : ("\n\n" ++ more).toList = '\n' :: ([] ++ '\n' :: more.toList) := by simp
  have hlines := lines_of_detail_eq hwhat hline hdetail
  rw [hgap, Text.splitOn_append_cons (newline_notMem_arrow _), Text.splitOn_append_cons List.not_mem_nil,
    hmore, toList_listed, hhead, List.append_assoc, List.singleton_append] at hlines
  exact ⟨[_, _, _, _, _], _, rfl, hlines, splitOn_intercalate hne hcomma⟩

end Listing

theorem lists_unexpectedCharacter {expected : List Char} (hline : '\n' ∉ spot.line)
    (hne : expected ≠ []) (hexpected : ∀ c ∈ expected, c ≠ '\n' ∧ c ≠ ',') :
    (unexpectedCharacter spot expected).Lists
      (expected.map fun c => String.ofList ['\'', c, '\'']) [] := by
  have hlisted : '\n' ∉ (listed (expected.map quoted)).toList :=
    newline_notMem_listed (by simpa [quoted] using fun c hc => (hexpected c hc).1.symm)
  refine lists_of_detail_eq (by decide) hline (detail_unexpectedCharacter hne)
    (Text.splitOn_of_notMem hlisted) (by simpa using hne) ?_
  simpa using fun c hc => (hexpected c hc).2.symm

theorem lists_unexpectedToken {expected : List TokenKind} (got : TokenKind)
    (hline : '\n' ∉ spot.line) (hne : expected ≠ []) :
    (unexpectedToken spot expected got).Lists (expected.map toString)
      ["got: ".toList ++ (toString got).toList] := by
  have hname (k : TokenKind) : '\n' ∉ (toString k).toList ∧ ',' ∉ (toString k).toList := by
    cases k <;> decide
  have hlisted : '\n' ∉ (listed (expected.map toString)).toList :=
    newline_notMem_listed (by simpa using fun k _ => (hname k).1)
  have hgot : '\n' ∉ "got: ".toList ++ (toString got).toList := by
    rw [List.mem_append, not_or]
    exact ⟨by decide, (hname got).1⟩
  have hmore : (listed (expected.map toString) ++ ("\ngot: " ++ toString got)).toList =
      (listed (expected.map toString)).toList ++ '\n' :: ("got: ".toList ++ (toString got).toList) := by
    simp
  refine lists_of_detail_eq (by decide) hline (detail_unexpectedToken spot expected got) ?_
    (by simpa using hne) (by simpa using fun k _ => (hname k).2)
  rw [hmore, Text.splitOn_append_cons hlisted, Text.splitOn_of_notMem hgot]

end Error

structure Spot.On (text : List Char) (spot : Spot) : Prop where
  line_le : spot.position.line ≤ text.count '\n'
  line_eq : spot.line = Text.lineAt '\n' spot.position.line text
  column_le : spot.position.column ≤ spot.line.length

structure Error.Points (e : Error) (text : List Char) (spot : Spot) (shown : List Char) : Prop where
  line_eq : (text.splitOn '\n')[spot.position.line]? = some spot.line
  column_le : spot.position.column ≤ spot.line.length
  heading : ∃ what, e.lines[0]? = some (what ++ (toString spot.position).toList)
  quote : e.lines[2]? = some (List.replicate 5 ' ' ++ shown)
  shows : Shows spot.line spot.position.column shown
  length_le : shown.length ≤ 80
  arrow : e.lines[3]? = some (List.replicate 5 ' ' ++
    List.replicate (indent spot.position.column) ' ' ++ ['^'])
  indent_le : indent spot.position.column ≤ 39
  above : ∀ d, spot.line[spot.position.column]? = some d →
    text[Text.offsetOf '\n' spot.position text]? = some d ∧
      ((List.replicate 5 ' ' ++ shown)[5 + indent spot.position.column]? = some d ∨
        shown.length ≤ indent spot.position.column ∧ (d = '\n' ∨ d = '\r'))

theorem Error.points_of_on {e : Error} {text : List Char} {spot : Spot} (h : e.spot? = some spot)
    (hon : spot.On text) : e.Points text spot (visible spot.line spot.position.column) := by
  have hline : '\n' ∉ spot.line := by
    rw [hon.line_eq]
    exact Text.notMem_lineAt _ _ _
  obtain ⟨what, more, hlines⟩ := exists_lines_eq h hline
  have hshows := shows_visible spot.line spot.position.column
  refine ⟨?_, hon.column_le, ⟨what, by rw [hlines]; rfl⟩, by rw [hlines]; rfl, hshows,
    hshows.length_le, ?_, Text.Excerpt.indent_le _, fun d hd => ⟨?_, ?_⟩⟩
  · rw [hon.line_eq, Text.getElem?_splitOn hon.line_le]
  · rw [hlines, arrow_eq, List.append_assoc]
    rfl
  · have hlt : spot.position.column < spot.line.length := (List.getElem?_eq_some_iff.1 hd).1
    rw [hon.line_eq] at hlt hd
    rw [Text.getElem?_offsetOf hlt, hd]
  · refine (hshows.getElem?_column hd).imp_left fun hshown => ?_
    rw [List.getElem?_append_right (by simp), List.length_replicate, Nat.add_sub_cancel_left]
    exact hshown

theorem Error.Points.of_line_eq_nil {e : Error} {text shown : List Char} {spot : Spot}
    (h : e.Points text spot shown) (hline : spot.line = []) :
    e.lines[2]? = some (List.replicate 5 ' ') ∧
      e.lines[3]? = some (List.replicate 5 ' ' ++ ['^']) := by
  have hshown : shown = [] := by
    refine List.eq_nil_iff_forall_not_mem.2 fun d hd => ?_
    have hmem := h.shows.mem_of_mem hd
    rw [hline] at hmem
    cases hmem
  have hcolumn : spot.position.column = 0 := by
    have hle := h.column_le
    rw [hline] at hle
    exact Nat.le_zero.1 hle
  have hquote := h.quote
  have harrow := h.arrow
  rw [hshown, List.append_nil] at hquote
  rw [hcolumn] at harrow
  exact ⟨hquote, harrow⟩

namespace Lexer

variable {text : List Char} {l r : Lexer} {t : Token} {e : Error}

theorem Placed.lineAt_position (hl : l.Placed) :
    Text.lineAt l.layout.endOfLine l.position.line l.buffer =
      l.read.drop l.cursor.lineStart ++ l.rest.takeWhile (· ≠ l.layout.endOfLine) := by
  have hline := hl.afterLast.lineAt_eq l.rest
  rwa [← hl.line_eq, read_append_rest] at hline

theorem Placed.column_position (hl : l.Placed) :
    l.position.column = (l.read.drop l.cursor.lineStart).length := by
  rw [position, hl.position_eq, List.length_drop]

structure Over (text : List Char) (l : Lexer) : Prop extends l.Sound where
  buffer_eq : l.buffer = text
  layout_eq : l.layout = {}

theorem position_past_sub (l : Lexer) {cs : List Char} (hcs : l.layout.endOfLine ∉ cs) {back : Nat}
    (hback : back ≤ cs.length) :
    (⟨(l.past cs).position.line, (l.past cs).position.column - back⟩ : Position) =
      (l.past (cs.take (cs.length - back))).position := by
  have htake : l.layout.endOfLine ∉ cs.take (cs.length - back) := fun h =>
    hcs (List.mem_of_mem_take h)
  simp only [position, past, Cursor.past_of_notMem _ hcs, Cursor.past_of_notMem _ htake,
    Cursor.position, List.length_take, Text.Position.mk.injEq, true_and]
  omega

namespace Over

theorem ofString (source : String) (n : Nat) :
    ((ofString source {}).after n).Over (terminated '\n' source.toList) where
  toSound := (Sound.ofString source Layout.neutral_default).after n
  buffer_eq := buffer_after _ n
  layout_eq := layout_after _ n

theorem past (hl : l.Over text) {cs : List Char} (hcs : cs <+: l.rest) : (l.past cs).Over text :=
  ⟨hl.toSound.past hcs, hl.buffer_eq, hl.layout_eq⟩

theorem skipSeparators (hl : l.Over text) : l.skipSeparators.Over text :=
  hl.past (List.takeWhile_prefix _)

theorem next (hl : l.Over text) (h : l.next = .ok t r) : r.Over text := by
  obtain ⟨-, hlexeme, -, rfl⟩ := next_eq_ok_iff.1 h
  rw [← hlexeme]
  exact hl.skipSeparators.past (Scan.lexeme_isPrefix _)

theorem spotAt_eq (hl : l.Over text) (p : Position) :
    l.spotAt p = ⟨p, Text.lineAt '\n' p.line text⟩ := by
  rw [spotAt, hl.layout_eq, hl.buffer_eq]

theorem line_eq (hl : l.Over text) : Text.lineAt '\n' l.position.line text =
    l.read.drop l.cursor.lineStart ++ l.rest.takeWhile (· ≠ '\n') := by
  have hline := hl.placed.lineAt_position
  rwa [hl.layout_eq, hl.buffer_eq] at hline

theorem drop_column_line (hl : l.Over text) :
    (Text.lineAt '\n' l.position.line text).drop l.position.column = l.rest.takeWhile (· ≠ '\n') := by
  rw [hl.line_eq, hl.placed.column_position, List.drop_left]

theorem on_position (hl : l.Over text) : (l.spotAt l.position).On text := by
  rw [hl.spotAt_eq]
  refine ⟨?_, rfl, ?_⟩
  · have hle := hl.placed.line_le
    rwa [hl.buffer_eq, hl.layout_eq] at hle
  · rw [hl.line_eq, hl.placed.column_position, List.length_append]
    exact Nat.le_add_right _ _

theorem exists_on_of_error (hl : l.Over text) (h : l.next = .error e r) :
    ∃ spot, e.spot? = some spot ∧ spot.On text := by
  obtain ⟨why, hwhy, rfl, rfl⟩ := next_eq_error_iff.1 h
  have hskip := hl.skipSeparators
  have hlexeme := Scan.lexeme_isPrefix l.skipSeparators.rest
  have hclean := hskip.endOfLine_not_scanned l.skipSeparators.rest
  obtain ⟨hback, -⟩ := Scan.diverges_of_ofChars hwhy (hskip.length_lexeme_lt hwhy)
  generalize (Scan.ofChars l.skipSeparators.rest).lexeme = cs at *
  have hbefore : cs.take (cs.length - why.back) <+: l.skipSeparators.rest :=
    (List.take_prefix _ _).trans hlexeme
  have hplace := (hskip.past hbefore).on_position
  rw [← l.skipSeparators.position_past_sub hclean hback] at hplace
  exact ⟨_, rfl, hplace⟩

theorem on_token (hl : l.Over text) (h : l.next = .ok t r) : (r.spotAt t.position).On text := by
  rw [(hl.next h).spotAt_eq, ← hl.skipSeparators.spotAt_eq]
  obtain ⟨-, -, hposition, -⟩ := next_eq_ok_iff.1 h
  rw [← hposition]
  exact hl.skipSeparators.on_position

theorem lexeme_isPrefix (hl : l.Over text) (h : l.next = .ok t r) :
    t.lexeme <+: (r.spotAt t.position).line.drop t.position.column := by
  rw [(hl.next h).spotAt_eq]
  obtain ⟨-, hlexeme, hposition, -⟩ := next_eq_ok_iff.1 h
  rw [← hposition, hl.skipSeparators.drop_column_line, ← hlexeme]
  refine Text.isPrefix_takeWhile (Scan.lexeme_isPrefix _) ?_
  have hscanned := hl.skipSeparators.endOfLine_not_scanned l.skipSeparators.rest
  rwa [hl.skipSeparators.layout_eq] at hscanned

theorem line_eq_nil (hl : l.Over text) (h : l.next = .ok t r) (ht : t.kind = .endInput) :
    (r.spotAt t.position).line = [] := by
  have hcolumn : t.position.column = 0 := by rw [hl.placed.endInput_eq hl.closed h ht]
  have hline := hl.skipSeparators.drop_column_line
  obtain ⟨-, -, hposition, -⟩ := next_eq_ok_iff.1 h
  rw [hposition, hcolumn, rest_eq_nil_of_endInput h ht] at hline
  rw [(hl.next h).spotAt_eq]
  exact hline

end Over

end Lexer

namespace Parser

variable {text : List Char} {p q : Parser} {e : Error} {xs : List Symbol}

def Over (text : List Char) (p : Parser) : Prop :=
  ∃ l : Lexer, l.Over text ∧ l.next = .ok p.token p.lexer

theorem over_of_advance (hp : p.lexer.Over text) (h : advance p = .ok () q) : q.Over text :=
  ⟨p.lexer, hp, advance_eq_ok_iff.1 h⟩

theorem Over.lexer (hp : p.Over text) : p.lexer.Over text := by
  obtain ⟨l, hl, hnext⟩ := hp
  exact hl.next hnext

theorem Over.of_consumes (hp : p.Over text) (h : Consumes p xs q) : q.Over text := by
  induction xs generalizing p with
  | nil =>
    cases h
    exact hp
  | cons x xs ih =>
    obtain ⟨-, r, hr, hxs⟩ := h
    exact ih (over_of_advance hp.lexer hr) hxs

theorem parse_error_cases (hp : p.lexer.Over text) (h : parse p = .error e q) :
    (∃ (l r : Lexer), l.Over text ∧ l.next = .error e r) ∨
      q.Over text ∧ ∃ expected,
        e = .unexpectedToken (q.lexer.spotAt q.token.position) expected q.token.kind := by
  rcases parse_eq_error h with ⟨r, hr, -⟩ | ⟨r, hr, s, r', ⟨xs, hxs, -⟩, hstuck⟩
  · exact .inl ⟨_, _, hp, hr⟩
  · have hover := (over_of_advance hp hr).of_consumes hxs
    cases hstuck with
    | token hdead => exact .inr ⟨hover, _, rfl⟩
    | character hx hs hl => exact .inl ⟨_, _, hover.lexer, hl⟩

end Parser

theorem Schedule.lists_of_ofSourceWith {layout : Layout} {source : String} (hend : layout.endOfLine = '\n')
    {spot : Spot} {expected : List TokenKind} {got : TokenKind}
    (h : ofSourceWith layout source = .error (.unexpectedToken spot expected got)) :
    (Error.unexpectedToken spot expected got).Lists (expected.map toString)
      ["got: ".toList ++ (toString got).toList] := by
  obtain ⟨_, t, _, s, -, hkinds, rfl, -, hs, rfl, hstuck⟩ := exists_stuck h
  have hdone : s ≠ .done := Grammar.Stage.ne_done_of_run hs (List.forall_mem_map.2 hkinds)
  refine Error.lists_unexpectedToken got ?_ (Grammar.Stage.expected_ne_nil hstuck hdone)
  have hline : layout.endOfLine ∉ ((Lexer.ofString source layout).spotAt t.position).line :=
    Text.notMem_lineAt _ _ _
  rwa [hend] at hline

namespace Error

theorem every_message_points_at_place (source : String) :
    let text := Lexer.terminated '\n' source.toList
    let l := Lexer.ofString source {}
    (∀ n e r, (l.after n).next = .error e r →
      ∃ spot shown, e.spot? = some spot ∧ e.Points text spot shown) ∧
    ∀ n t e q, Parser.parse ⟨l.after n, t⟩ = .error e q →
      ∃ spot shown, e.spot? = some spot ∧ e.Points text spot shown ∧
        ∀ expected got, e = .unexpectedToken spot expected got →
          (got = q.token.kind ∧ spot.position = q.token.position) ∧
          q.token.lexeme <+: spot.line.drop spot.position.column ∧
          (got = .endInput → e.lines[2]? = some (List.replicate 5 ' ') ∧
            e.lines[3]? = some (List.replicate 5 ' ' ++ ['^'])) := by
  intro text l
  have hover (n : Nat) : (l.after n).Over text := .ofString source n
  have hlexer {l' r : Lexer} {e : Error} (hl : l'.Over text) (h : l'.next = .error e r) :
      ∃ spot shown, e.spot? = some spot ∧ e.Points text spot shown := by
    obtain ⟨spot, hspot, hon⟩ := hl.exists_on_of_error h
    exact ⟨spot, _, hspot, points_of_on hspot hon⟩
  refine ⟨fun n e r => hlexer (hover n), fun n t e q h => ?_⟩
  rcases Parser.parse_error_cases (hover n) h with ⟨l', r, hl', hnext⟩ | ⟨hq, expected, he⟩
  · obtain ⟨spot, shown, hspot, hpoints⟩ := hlexer hl' hnext
    obtain ⟨_, _, rfl⟩ := Lexer.exists_unexpectedCharacter hnext
    exact ⟨spot, shown, hspot, hpoints, fun _ _ => nofun⟩
  · obtain ⟨l', hl', hnext⟩ := hq
    have hspot : e.spot? = some (q.lexer.spotAt q.token.position) := by rw [he, spot?]
    have hpoints := points_of_on hspot (hl'.on_token hnext)
    refine ⟨_, _, hspot, hpoints, fun expected' got hgot => ?_⟩
    obtain ⟨-, -, rfl⟩ := Error.unexpectedToken.inj (he.symm.trans hgot)
    refine ⟨⟨rfl, rfl⟩, hl'.lexeme_isPrefix hnext, fun hend => ?_⟩
    exact hpoints.of_line_eq_nil (hl'.line_eq_nil hnext hend)

theorem every_message_points_at_place_of_late_column :
    let source := "monday allow 0000-0030 0100-0130 0200-0230 0300-033x"
    let l := Lexer.ofString source {}
    let e : Error := .unexpectedCharacter ⟨⟨0, 51⟩, source.toList⟩ "0123456789".toList
    let e' : Error := .unexpectedToken ⟨⟨1, 0⟩, []⟩ [.allow, .forbid] .endInput
    (l.after 13).next = .error e (l.after 14) ∧
      e.lines[3]? = some (List.replicate 44 ' ' ++ ['^']) ∧
      (∃ q, Parser.parse (.ofLexer (.ofString "monday" {})) = .error e' q) ∧
      e'.lines[2]? = some (List.replicate 5 ' ') ∧
      e'.lines[3]? = some (List.replicate 5 ' ' ++ ['^']) := by
  intro source l e e'
  obtain ⟨hlexer, -⟩ := every_message_points_at_place source
  obtain ⟨-, hparser⟩ := every_message_points_at_place "monday"
  have hnext : (l.after 13).next = .error e (l.after 14) :=
    Lexer.next_eq_error_iff.2 ⟨⟨"0123456789".toList, 0⟩, by decide +kernel +zetaReduce⟩
  have hparse : Schedule.ofSourceWith {} "monday" = .error e' := by decide +kernel +zetaReduce
  obtain ⟨q, hq⟩ := Schedule.ofSourceWith_eq_error_iff.1 hparse
  obtain ⟨_, _, ⟨⟩, hpoints⟩ := hlexer _ _ _ hnext
  obtain ⟨_, _, ⟨⟩, -, htoken⟩ := hparser 0 _ _ _ hq
  obtain ⟨-, -, hend⟩ := htoken _ _ rfl
  exact ⟨hnext, hpoints.arrow, ⟨q, hq⟩, hend rfl⟩

end Error

end Timetable
