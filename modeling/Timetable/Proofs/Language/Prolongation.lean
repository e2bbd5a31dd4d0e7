import Timetable.Proofs.Language.FirstProblem
import Timetable.Proofs.Language.Placement
import Timetable.Proofs.Language.Spelling

namespace Timetable

namespace Scan

variable {c : Char} {cs : List Char}

theorem oneOfEach_append_of_mem {classes : List (List Char)} (hc : c ∈ cs)
    (hclasses : ∀ allowed ∈ classes, c ∉ allowed) (more : List Char) :
    oneOfEach classes (cs ++ more) = oneOfEach classes cs := by
  fun_induction oneOfEach classes cs with
  | case1 => rfl
  | case2 => cases hc
  | case3 allowed classes d ds hd read ih =>
    obtain ⟨hallowed, hclasses⟩ := List.forall_mem_cons.1 hclasses
    have hmem : c ∈ ds := (List.mem_cons.1 hc).resolve_left (ne_of_mem_of_not_mem hd hallowed).symm
    rw [List.cons_append, oneOfEach, if_pos hd, ih hmem hclasses]
  | case4 allowed classes d ds hd => rw [List.cons_append, oneOfEach, if_neg hd]

theorem ofChars_append_of_mem (hc : c ∈ cs) (halpha : c.isAlpha = false)
    (hdigit : c.isDigit = false) (more : List Char) : ofChars (cs ++ more) = ofChars cs := by
  cases cs with
  | nil => cases hc
  | cons d ds =>
    have hword : word (d :: ds ++ more) = word (d :: ds) := by
      simp only [word, Text.takeWhile_append_of_mem hc halpha]
    have htime : time d (d :: ds ++ more) = time d (d :: ds) := by
      have hclasses : ∀ allowed ∈ timeClasses d, c ∉ allowed := by
        intro allowed hallowed hmem
        rw [isDigit_of_mem_timeClasses hallowed hmem] at hdigit
        cases hdigit
      simp only [time, oneOfEach_append_of_mem hc hclasses]
    rw [List.cons_append] at hword htime ⊢
    rw [ofChars, ofChars, hword, htime]

end Scan

namespace Lexer

variable {l r : Lexer} {t : Token} {e : Error} {ts : List Token}

structure Sound (l : Lexer) : Prop where
  neutral : l.layout.Neutral
  placed : l.Placed
  closed : ∀ c ∈ l.buffer.getLast?, c = l.layout.endOfLine

namespace Sound

theorem ofString (source : String) {layout : Layout} (h : layout.Neutral) :
    (ofString source layout).Sound :=
  ⟨h, .ofString source layout, getLast?_terminated _ _⟩

theorem past (hl : l.Sound) {cs : List Char} (hcs : cs <+: l.rest) : (l.past cs).Sound :=
  ⟨hl.neutral, hl.placed.past hcs, hl.closed⟩

theorem skipSeparators (hl : l.Sound) : l.skipSeparators.Sound :=
  hl.past (List.takeWhile_prefix _)

theorem next (hl : l.Sound) (h : l.next = .ok t r) : r.Sound := by
  obtain ⟨-, hlexeme, -, rfl⟩ := next_eq_ok_iff.1 h
  refine hl.skipSeparators.past ?_
  rw [← hlexeme]
  exact Scan.lexeme_isPrefix _

theorem endOfLine_mem_rest (hl : l.Sound) (h : l.rest ≠ []) : l.layout.endOfLine ∈ l.rest :=
  Text.mem_drop_of_getLast? hl.closed (by simpa [rest] using h)

theorem line_lt (hl : l.Sound) (h : l.rest ≠ []) :
    l.position.line < l.buffer.count l.layout.endOfLine := by
  have hpos := List.count_pos_iff.2 (hl.endOfLine_mem_rest h)
  rw [position, hl.placed.position_eq, ← read_append_rest, List.count_append]
  exact Nat.lt_add_of_pos_right hpos

theorem endOfLine_not_scanned (hl : l.Sound) (cs : List Char) :
    l.layout.endOfLine ∉ (Scan.ofChars cs).lexeme := by
  intro hmem
  have hscanned := hl.neutral.separates_eq_false hmem
  rw [Layout.separates_endOfLine] at hscanned
  cases hscanned

theorem rest_ne_nil_of_scan (hl : l.Sound) (h : l.rest ≠ []) :
    (l.past (Scan.ofChars l.rest).lexeme).rest ≠ [] := by
  have hsplit := List.prefix_append_drop (Scan.lexeme_isPrefix l.rest)
  have hmem := hsplit ▸ hl.endOfLine_mem_rest h
  rw [rest_past]
  exact List.ne_nil_of_mem ((List.mem_append.1 hmem).resolve_left (hl.endOfLine_not_scanned _))

end Sound

def prolong (l : Lexer) (more : List Char) : Lexer :=
  { l with buffer := l.buffer ++ more }

variable {more : List Char}

theorem rest_prolong (hl : l.Placed) : (l.prolong more).rest = l.rest ++ more :=
  List.drop_append_of_le_length hl.offset_le

theorem spotAt_prolong {p : Text.Position} (h : p.line < l.buffer.count l.layout.endOfLine) :
    (l.prolong more).spotAt p = l.spotAt p := by
  simp only [spotAt, prolong, Text.lineAt_append h]

theorem refuse_prolong (h : l.position.line < l.buffer.count l.layout.endOfLine) (why : Complaint) :
    (l.prolong more).refuse why = l.refuse why :=
  congrArg (Error.unexpectedCharacter · why.expected)
    (spotAt_prolong (p := ⟨l.position.line, l.position.column - why.back⟩) h)

theorem rest_skipSeparators (l : Lexer) :
    l.skipSeparators.rest = l.rest.dropWhile l.layout.separates := by
  have hsplit := List.takeWhile_append_dropWhile (p := l.layout.separates) (l := l.rest)
  rw [skipSeparators, rest_past]
  nth_rewrite 2 [← hsplit]
  exact List.drop_left

theorem skipSeparators_prolong (hl : l.Placed) (h : l.skipSeparators.rest ≠ []) :
    (l.prolong more).skipSeparators = l.skipSeparators.prolong more := by
  obtain ⟨c, hc, hstop⟩ : ∃ c ∈ l.rest, l.layout.separates c = false := by
    simpa [rest_skipSeparators] using h
  have htake := Text.takeWhile_append_of_mem hc hstop more
  rw [skipSeparators, rest_prolong hl]
  exact congrArg (l.prolong more).past htake

theorem rest_ne_nil_of_next (h : l.next = .ok t r) (ht : t.kind ≠ .endInput) :
    l.skipSeparators.rest ≠ [] := by
  intro hrest
  obtain ⟨hkind, -, -, -⟩ := next_eq_ok_iff.1 h
  rw [hrest] at hkind
  exact ht (Except.ok.inj hkind).symm

namespace Sound

theorem scan_prolong (hl : l.Sound) (h : l.skipSeparators.rest ≠ []) :
    Scan.ofChars (l.prolong more).skipSeparators.rest = Scan.ofChars l.skipSeparators.rest := by
  obtain ⟨halpha, hdigit, -⟩ := hl.neutral _ l.layout.separates_endOfLine
  rw [skipSeparators_prolong hl.placed h, rest_prolong hl.skipSeparators.placed]
  exact Scan.ofChars_append_of_mem (hl.skipSeparators.endOfLine_mem_rest h) halpha hdigit more

theorem next_prolong (hl : l.Sound) (h : l.next = .ok t r) (ht : t.kind ≠ .endInput) :
    (l.prolong more).next = .ok t (r.prolong more) := by
  have hrest := rest_ne_nil_of_next h ht
  obtain ⟨hkind, hlexeme, hposition, rfl⟩ := next_eq_ok_iff.1 h
  refine next_eq_ok_iff.2 ⟨?_, ?_, ?_, ?_⟩
  · rwa [hl.scan_prolong hrest]
  · rwa [hl.scan_prolong hrest]
  · rw [skipSeparators_prolong hl.placed hrest]
    exact hposition
  · rw [skipSeparators_prolong hl.placed hrest]
    rfl

theorem next_prolong_error (hl : l.Sound) (h : l.next = .error e r) :
    (l.prolong more).next = .error e (r.prolong more) := by
  obtain ⟨why, hwhy, rfl, rfl⟩ := next_eq_error_iff.1 h
  have hrest : l.skipSeparators.rest ≠ [] := by
    intro hrest
    rw [hrest] at hwhy
    cases hwhy
  refine next_eq_error_iff.2 ⟨why, ?_, ?_, ?_⟩
  · rwa [hl.scan_prolong hrest]
  · rw [hl.scan_prolong hrest, skipSeparators_prolong hl.placed hrest]
    rfl
  · have hafter := hl.skipSeparators.past (Scan.lexeme_isPrefix l.skipSeparators.rest)
    have hline := hafter.line_lt (hl.skipSeparators.rest_ne_nil_of_scan hrest)
    exact refuse_prolong hline why

theorem reads_prolong (hl : l.Sound) (h : l.Reads ts r) (hts : ∀ t ∈ ts, t.kind ≠ .endInput)
    (more : List Char) : r.Sound ∧ (l.prolong more).Reads ts (r.prolong more) := by
  induction h with
  | nil => exact ⟨hl, .nil _⟩
  | cons h _ ih =>
    obtain ⟨ht, hts⟩ := List.forall_mem_cons.1 hts
    obtain ⟨hr, hreads⟩ := ih (hl.next h) hts
    exact ⟨hr, .cons (hl.next_prolong h ht) hreads⟩

theorem breaks_prolong (hl : l.Sound) (h : l.Breaks ts r e)
    (he : ∀ spot expected, e ≠ .unexpectedToken spot expected .endInput) :
    (l.prolong more).Breaks ts (r.prolong more) e := by
  obtain ⟨hreads, hkinds, hviable, hproblem⟩ := h
  obtain ⟨hr, hreads'⟩ := hl.reads_prolong hreads hkinds more
  refine ⟨hreads', hkinds, hviable, ?_⟩
  cases hproblem with
  | @token _ t expected hnext hdead hexpected =>
    have ht : t.kind ≠ .endInput := fun ht => he _ expected (by rw [ht])
    have hline : t.position.line < r.buffer.count r.layout.endOfLine := by
      obtain ⟨-, -, hposition, -⟩ := next_eq_ok_iff.1 hnext
      rw [← hposition]
      exact hr.skipSeparators.line_lt (rest_ne_nil_of_next hnext ht)
    rw [← hreads.spotAt_eq, ← spotAt_prolong hline, hreads'.spotAt_eq]
    exact .token expected (hr.next_prolong hnext ht) hdead hexpected
  | character hnext => exact .character (hr.next_prolong_error hnext)

end Sound

end Lexer

end Timetable
