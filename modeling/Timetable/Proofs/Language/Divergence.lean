import Timetable.Proofs.Language.Beginning
import Timetable.Proofs.Language.Prolongation

namespace Timetable

theorem Cursor.past_of_notMem {endOfLine : Char} {cs : List Char} (k : Cursor)
    (h : endOfLine ∉ cs) : past endOfLine k cs = { k with offset := k.offset + cs.length } := by
  induction cs generalizing k with
  | nil => rfl
  | cons c cs ih =>
    obtain ⟨hc, hcs⟩ := not_or.1 (List.mem_cons.not.1 h)
    have hstep : step endOfLine k c = { k with offset := k.offset + 1 } := if_neg (Ne.symm hc)
    rw [past, List.foldl_cons, hstep, ← past, ih _ hcs, List.length_cons]
    simp only [Nat.add_assoc, Nat.add_comm 1]

namespace Scan

structure Diverges (cs : List Char) (n : Nat) (expected : List Char) : Prop where
  begins : Symbol.Begins (cs.take n)
  stops : ¬ Symbol.Begins (cs.take (n + 1))
  mem_expected_iff : expected ≠ [] →
    ∀ c, c ∈ expected ↔ c.toLower = c ∧ Symbol.Begins (cs.take n ++ [c])

variable {c d : Char} {cs letters rest : List Char} {why : Complaint}

theorem begins_take_iff (hletters : ∀ c ∈ letters, c.isAlpha = true) (n : Nat) :
    Symbol.Begins (letters.take n) ↔
      Text.Trie.Begins (Vocabulary.words.map (·.toList)) ((Text.lower letters).take n) := by
  have htake : ∀ c ∈ letters.take n, c.isAlpha = true := fun c hc =>
    hletters c (List.mem_of_mem_take hc)
  rw [← Vocabulary.begins_lower_iff htake, Vocabulary.lower_of_isAlpha htake,
    Vocabulary.lower_of_isAlpha hletters, List.map_take]

theorem diverges_longestMatch (hletters : ∀ c ∈ letters, c.isAlpha = true)
    (h : ¬ Symbol.Begins letters) (rest : List Char) :
    (Vocabulary.trie.longestMatch letters).length < letters.length ∧
      Diverges (letters ++ rest) (Vocabulary.trie.longestMatch letters).length [] := by
  have hlongest := Text.Trie.isLongestBeginning_longestMatch (Vocabulary.words.map (·.toList)) letters
  rw [← Vocabulary.trie] at hlongest
  generalize Vocabulary.trie.longestMatch letters = matched at hlongest ⊢
  have hmatched := List.prefix_iff_eq_take.1 hlongest.isPrefix
  have hlength : (Text.lower letters).length = letters.length := by
    rw [Vocabulary.lower_of_isAlpha hletters, List.length_map]
  have hbegins : Symbol.Begins (letters.take matched.length) := by
    rw [begins_take_iff hletters, ← hmatched]
    exact hlongest.begins
  have hlt : matched.length < letters.length := by
    by_contra hge
    rw [List.take_of_length_le (Nat.le_of_not_lt hge)] at hbegins
    exact h hbegins
  refine ⟨hlt, ?_, ?_, fun hne => absurd rfl hne⟩
  · rwa [List.take_append_of_le_length hlt.le]
  · rw [List.take_append_of_le_length hlt, begins_take_iff hletters]
    intro hlonger
    have hle := (hlongest.longest _ (List.take_prefix _ _) hlonger).length_le
    rw [List.length_take] at hle
    omega

theorem diverges_of_classify (hletters : ∀ c ∈ letters, c.isAlpha = true) (hne : letters ≠ [])
    (hd : d.isAlpha = false) (h : classify letters = .error why) :
    why.back ≤ letters.length ∧
      Diverges (letters ++ d :: rest) (letters.length - why.back) why.expected := by
  have hcontains : Vocabulary.trie.contains letters ≠ true := by
    intro hcontains
    obtain ⟨x, hx⟩ := Vocabulary.exists_classify_of_contains hcontains
    rw [hx] at h
    cases h
  rw [classify, if_neg hcontains] at h
  split at h
  · next hbegins =>
    cases h
    refine ⟨Nat.zero_le _, ?_, ?_, fun _ c => ?_⟩
    · simpa using (Vocabulary.containsPrefix_iff hletters).1 hbegins
    · intro hlonger
      obtain ⟨c, cs, rfl⟩ := List.exists_cons_of_ne_nil hne
      have htake : (c :: cs ++ d :: rest).take ((c :: cs).length + 1) = c :: (cs ++ [d]) := by
        rw [List.take_length_add_append]
        simp
      rw [Nat.sub_zero, htake] at hlonger
      have halpha := hlonger.isAlpha_of_isAlpha (hletters c List.mem_cons_self) d (by simp)
      rw [hd] at halpha
      cases halpha
    · simpa using Vocabulary.mem_charsAfter_iff hletters hne
  · next hbegins =>
    rw [Vocabulary.containsPrefix_iff hletters] at hbegins
    cases h
    obtain ⟨hlt, hdiverges⟩ := diverges_longestMatch hletters hbegins (d :: rest)
    refine ⟨Nat.sub_le _ _, ?_⟩
    rw [Nat.sub_sub_self hlt.le]
    exact hdiverges

theorem diverges_of_time (hc : c ∈ digitsUpTo 2) (h : (time c (c :: cs)).outcome = .error why)
    (hmore : (time c (c :: cs)).lexeme.length < (c :: cs).length) :
    why.back = 0 ∧ Diverges (c :: cs) (time c (c :: cs)).lexeme.length why.expected := by
  simp only [time] at h hmore ⊢
  have hprefix := oneOfEach_isPrefix (timeClasses c) (c :: cs)
  have hfirst : ∃ ds, (oneOfEach (timeClasses c) (c :: cs)).1 = c :: ds := by
    rw [timeClasses, oneOfEach, if_pos hc]
    exact ⟨_, rfl⟩
  split at h
  · cases h
  · next allowed hallowed =>
    cases h
    have hstops := not_fits_of_oneOfEach hallowed hmore
    have hfits := fits_oneOfEach (timeClasses c) (c :: cs)
    have hnext := fun d => fits_oneOfEach_concat_iff hallowed (c := d)
    obtain ⟨ds, hds⟩ := hfirst
    have htake := List.prefix_iff_eq_take.1 hprefix
    refine ⟨rfl, ?_, ?_, fun _ d => ?_⟩
    · rw [← htake, hds, Symbol.begins_cons_iff_of_mem_digitsUpTo hc, ← hds]
      exact hfits
    · rwa [List.take_succ_cons, Symbol.begins_cons_iff_of_mem_digitsUpTo hc, ← List.take_succ_cons]
    · rw [← htake, hds, List.cons_append, Symbol.begins_cons_iff_of_mem_digitsUpTo hc,
        ← List.cons_append, ← hds, hnext]
      refine ⟨fun hd => ⟨?_, hd⟩, And.right⟩
      have hmem := mem_of_oneOfEach_eq_some hallowed
      exact Text.toLower_of_isDigit (isDigit_of_mem_timeClasses hmem hd)

theorem diverges_of_ofChars (h : (ofChars cs).outcome = .error why)
    (hmore : (ofChars cs).lexeme.length < cs.length) :
    why.back ≤ (ofChars cs).lexeme.length ∧
      Diverges cs ((ofChars cs).lexeme.length - why.back) why.expected := by
  fun_cases ofChars cs with
  | case1 => cases hmore
  | case2 c cs hc =>
    rw [ofChars, if_pos hc] at h hmore
    have hletters : ∀ d ∈ (c :: cs).takeWhile Char.isAlpha, d.isAlpha = true := fun _ =>
      List.mem_takeWhile_imp
    have hne : (c :: cs).takeWhile Char.isAlpha ≠ [] := by simp [hc]
    have hsplit := List.takeWhile_append_dropWhile (p := Char.isAlpha) (l := c :: cs)
    have hstop := List.head?_dropWhile_not Char.isAlpha (c :: cs)
    simp only [word] at h hmore ⊢
    generalize (c :: cs).takeWhile Char.isAlpha = letters at *
    cases hrest : (c :: cs).dropWhile Char.isAlpha with
    | nil =>
      rw [hrest, List.append_nil] at hsplit
      rw [hsplit] at hmore
      exact absurd hmore (Nat.lt_irrefl _)
    | cons d rest =>
      rw [hrest] at hsplit hstop
      rw [← hsplit]
      exact diverges_of_classify hletters hne (by simpa using hstop) h
  | case3 c cs hc hdigit =>
    rw [ofChars, if_neg hc, if_pos hdigit] at h hmore
    obtain ⟨hback, hdiverges⟩ := diverges_of_time hdigit h hmore
    rw [hback]
    exact ⟨Nat.zero_le _, hdiverges⟩
  | case4 cs hc hdigit =>
    rw [ofChars, if_neg hc, if_neg hdigit, if_pos rfl] at h
    cases h
  | case5 c cs hc hdigit hdash =>
    rw [ofChars, if_neg hc, if_neg hdigit, if_neg hdash] at h
    cases h
    refine ⟨Nat.le_refl 0, Symbol.begins_nil, ?_, fun hne => absurd rfl hne⟩
    exact Symbol.not_begins_singleton (by simpa using hc) hdigit hdash

end Scan

namespace Lexer

variable {l r : Lexer} {err : Error}

theorem Sound.after (hl : l.Sound) (n : Nat) : (l.after n).Sound where
  neutral := by
    rw [layout_after]
    exact hl.neutral
  placed := hl.placed.after n
  closed := by
    rw [buffer_after, layout_after]
    exact hl.closed

theorem Placed.offsetOf_position (hl : l.Placed) :
    Text.offsetOf l.layout.endOfLine l.position l.buffer = l.cursor.offset := by
  have hstart := hl.afterLast.lineStart_eq l.rest
  have hle := hl.lineStart_le
  rw [← hl.line_eq, read_append_rest] at hstart
  rw [Text.offsetOf, position, Cursor.position, hstart]
  exact Nat.add_sub_cancel' hle

theorem refuse_eq (l : Lexer) (why : Complaint) :
    l.refuse why = .unexpectedCharacter
      (l.spotAt ⟨l.position.line, l.position.column - why.back⟩) why.expected := rfl

theorem Sound.offsetOf_refused (hl : l.Sound) {back : Nat}
    (hback : back ≤ (Scan.ofChars l.rest).lexeme.length) :
    let r := l.past (Scan.ofChars l.rest).lexeme
    r.position.line = l.position.line ∧ back ≤ r.position.column ∧
      Text.offsetOf l.layout.endOfLine ⟨r.position.line, r.position.column - back⟩ l.buffer =
        l.cursor.offset + ((Scan.ofChars l.rest).lexeme.length - back) := by
  intro r
  have hcursor : r.cursor = _ := Cursor.past_of_notMem l.cursor (hl.endOfLine_not_scanned l.rest)
  have hle := hl.placed.lineStart_le
  have hoffset := hl.placed.offsetOf_position
  simp only [Text.offsetOf, position, Cursor.position, hcursor, true_and] at hoffset ⊢
  omega

theorem Sound.length_lexeme_lt (hl : l.Sound) {why : Complaint}
    (h : (Scan.ofChars l.rest).outcome = .error why) :
    (Scan.ofChars l.rest).lexeme.length < l.rest.length := by
  have hne : l.rest ≠ [] := by
    intro hrest
    rw [hrest] at h
    cases h
  have hmore := hl.rest_ne_nil_of_scan hne
  rwa [rest_past, ← List.length_pos_iff, List.length_drop, Nat.sub_pos_iff_lt] at hmore

theorem Sound.exists_diverges (hl : l.Sound) (h : l.next = .error err r) :
    ∃ spot why n, err = .unexpectedCharacter spot why.expected ∧
      (Scan.ofChars l.skipSeparators.rest).outcome = .error why ∧
      spot.position.line = l.skipSeparators.position.line ∧
      spot.position.column + why.back = r.position.column ∧
      Text.offsetOf l.layout.endOfLine spot.position l.buffer = l.skipSeparators.cursor.offset + n ∧
      n < l.skipSeparators.rest.length ∧ l.layout.endOfLine ∉ l.skipSeparators.rest.take n ∧
      Scan.Diverges l.skipSeparators.rest n why.expected := by
  obtain ⟨why, hwhy, rfl, rfl⟩ := next_eq_error_iff.1 h
  have hskip := hl.skipSeparators
  have hmore := hskip.length_lexeme_lt hwhy
  obtain ⟨hback, hdiverges⟩ := Scan.diverges_of_ofChars hwhy hmore
  obtain ⟨hline, hcolumn, hoffset⟩ := hskip.offsetOf_refused hback
  have hlexeme := Scan.lexeme_isPrefix l.skipSeparators.rest
  refine ⟨_, why, _, refuse_eq _ why, hwhy, hline, Nat.sub_add_cancel hcolumn, hoffset,
    Nat.lt_of_le_of_lt (Nat.sub_le _ _) hmore, fun hmem => ?_, hdiverges⟩
  have htake : l.skipSeparators.rest.take
      ((Scan.ofChars l.skipSeparators.rest).lexeme.length - why.back) <+:
        (Scan.ofChars l.skipSeparators.rest).lexeme :=
    List.prefix_of_prefix_length_le (List.take_prefix _ _) hlexeme
      ((List.length_take_le _ _).trans (Nat.sub_le _ _))
  exact hskip.endOfLine_not_scanned _ (htake.subset hmem)

theorem every_error_at_divergence (source : String) (n : Nat) {err : Error} {r : Lexer}
    (h : ((ofString source {}).after n).next = .error err r) :
    let l := (ofString source {}).after n
    let start := l.cursor.offset + (l.rest.takeWhile l.layout.separates).length
    ∃ spot why, err = .unexpectedCharacter spot why.expected ∧
      let stop := Text.offsetOf '\n' spot.position l.buffer
      (start ≤ stop ∧ stop < l.buffer.length ∧ '\n' ∉ l.buffer.extract start stop ∧
        spot.position.line = (l.buffer.take start).count '\n') ∧
      (Symbol.Begins (l.buffer.extract start stop) ∧
        ¬ Symbol.Begins (l.buffer.extract start (stop + 1))) ∧
      (why.expected ≠ [] → ∀ c, c ∈ why.expected ↔
        c.toLower = c ∧ Symbol.Begins (l.buffer.extract start stop ++ [c])) ∧
      (Scan.ofChars (l.buffer.drop start)).outcome = .error why ∧
      spot.position.column + why.back = r.position.column := by
  intro l start
  have hl : l.Sound := (Sound.ofString source Layout.neutral_default).after n
  have hlayout : l.layout = {} := layout_after _ n
  obtain ⟨spot, why, m, rfl, hwhy, hline, hcolumn, hstop, hlt, hclean, hdiverges⟩ :=
    hl.exists_diverges h
  have hstart : l.skipSeparators.cursor.offset = start := Cursor.offset_past ..
  have hrest : l.skipSeparators.rest = l.buffer.drop start := congrArg (l.buffer.drop ·) hstart
  have hcount : l.skipSeparators.position.line = (l.buffer.take start).count l.layout.endOfLine := by
    rw [← hstart]
    exact hl.skipSeparators.placed.line_eq
  rw [hrest] at hwhy hlt hclean hdiverges
  rw [hstart] at hstop
  rw [hcount] at hline
  simp only [hlayout] at hstop hclean hline
  rw [List.length_drop] at hlt
  refine ⟨spot, why, rfl, ?_⟩
  simp only [hstop, List.extract_eq_take_drop, Nat.add_assoc, Nat.add_sub_cancel_left]
  exact ⟨⟨Nat.le_add_right _ _, by omega, hclean, hline⟩, ⟨hdiverges.begins, hdiverges.stops⟩,
    hdiverges.mem_expected_iff, hwhy, hcolumn⟩

theorem every_error_at_divergence_of_later_words :
    let l := (ofString "ab\n\tTuesxday T" {}).after 1
    let r := (ofString "ab\n\tTuesxday T" {}).after 2
    let word := Error.unexpectedCharacter ⟨⟨1, 5⟩, "\tTuesxday T".toList⟩ []
    let letter := Error.unexpectedCharacter ⟨⟨1, 11⟩, "\tTuesxday T".toList⟩ ['h', 'u']
    l.next = .error word r ∧ r.next = .error letter r.proceed ∧
      Symbol.Begins "Tues".toList ∧ ¬ Symbol.Begins "Tuesx".toList ∧
      ∀ c, c ∈ ['h', 'u'] ↔ c.toLower = c ∧ Symbol.Begins ("T".toList ++ [c]) := by
  intro l r word letter
  have hword : l.next = .error word r := next_eq_error_iff.2 ⟨⟨[], 4⟩, by decide +kernel +zetaReduce⟩
  have hletter : r.next = .error letter r.proceed :=
    next_eq_error_iff.2 ⟨⟨['h', 'u'], 0⟩, by decide +kernel +zetaReduce⟩
  obtain ⟨_, _, hspot, -, ⟨hbegins, hstops⟩, -⟩ := every_error_at_divergence _ _ hword
  obtain ⟨rfl, -⟩ := Error.unexpectedCharacter.inj hspot
  obtain ⟨_, _, hspot, -, -, hexpected, -⟩ := every_error_at_divergence _ _ hletter
  obtain ⟨rfl, hchars⟩ := Error.unexpectedCharacter.inj hspot
  rw [← hchars] at hexpected
  refine ⟨hword, hletter, ?_, ?_, ?_⟩
  · convert hbegins using 1
    decide +kernel +zetaReduce
  · convert hstops using 2
    decide +kernel +zetaReduce
  · convert hexpected (List.cons_ne_nil _ _) using 6
    decide +kernel +zetaReduce

end Lexer

end Timetable
