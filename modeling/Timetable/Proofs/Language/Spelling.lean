import Timetable.Proofs.Language.Stream
import Timetable.Proofs.Text.AsciiLowercase
import Timetable.Proofs.Text.Lines

namespace Timetable

theorem TimeOfDay.isDigit_of_mem_digits (t : TimeOfDay) {c : Char} (hc : c ∈ t.digits) :
    c.isDigit := by
  have hh := t.hour_lt
  have hm := t.minute_lt
  simp only [digits, twoDigits, List.cons_append, List.nil_append, List.mem_cons, List.not_mem_nil,
    or_false] at hc
  rcases hc with rfl | rfl | rfl | rfl
  all_goals
    apply isDigit_digitChar
    omega

namespace Symbol

variable {x : Symbol} {name : String} {cs : List Char}

theorem kind?_of_mem_names (h : name ∈ x.names) :
    Vocabulary.kind? name.toList = some x.kind := by
  cases x with
  | directive d =>
    revert name
    cases d <;> decide
  | day d =>
    revert name
    cases d <;> decide
  | time t => cases h
  | dash => cases h

theorem isAlpha_of_mem_names (h : name ∈ x.names) (hcs : cs.map Char.toLower = name.toList) :
    ∀ c ∈ cs, c.isAlpha := by
  have hletters : ∀ name ∈ Vocabulary.words, name.toList.all Char.isAlpha = true := by decide
  have hname := List.all_eq_true.1 (hletters name (mem_words_of_mem_names h))
  intro c hc
  refine Text.isAlpha_of_isAlpha_toLower (hname _ ?_)
  rw [← hcs]
  exact List.mem_map_of_mem hc

theorem lower_eq_of_mem_names (h : name ∈ x.names) (hcs : cs.map Char.toLower = name.toList) :
    Text.lower cs = name.toList := by
  rw [Text.lower_ascii, hcs]
  intro c hc
  exact Text.toNat_lt_of_isAlpha (isAlpha_of_mem_names h hcs c hc)

theorem contains_of_mem_names (h : name ∈ x.names) :
    Vocabulary.trie.contains name.toList = true := by
  have hnames : ∀ name ∈ Vocabulary.words, Vocabulary.trie.contains name.toList = true := by
    decide +kernel
  exact hnames name (mem_words_of_mem_names h)

theorem classify_of_mem_names (h : name ∈ x.names) (hcs : cs.map Char.toLower = name.toList) :
    Scan.classify cs = .ok x.kind := by
  have hself := map_toLower_of_mem_names h
  have hcontains : Vocabulary.trie.contains cs = true := by
    rw [← contains_of_mem_names h, Text.Trie.contains, Text.Trie.contains,
      lower_eq_of_mem_names h hcs, lower_eq_of_mem_names h hself]
  have hkind : Vocabulary.kind? cs = some x.kind := by
    rw [← kind?_of_mem_names h]
    simp only [Vocabulary.kind?, Weekday.ofName?, hcs, hself]
  rw [Scan.classify, if_pos hcontains, hkind]

namespace Spelling

theorem of_mem_names (h : name ∈ x.names) : Spelling x name.toList :=
  .word h (map_toLower_of_mem_names h)

theorem ne_nil (h : Spelling x cs) : cs ≠ [] := by
  cases h with
  | word hname hcs =>
    have hwords : ∀ name ∈ Vocabulary.words, name.toList ≠ [] := by decide
    rintro rfl
    exact hwords _ (mem_words_of_mem_names hname) hcs.symm
  | time t => simp [TimeOfDay.digits, TimeOfDay.twoDigits]
  | dash => simp

theorem ofChars_append (h : Spelling x cs) {rest : List Char}
    (hrest : x.names ≠ [] → ∀ c ∈ rest.head?, c.isAlpha = false) :
    Scan.ofChars (cs ++ rest) = ⟨cs, .ok x.kind⟩ := by
  cases h with
  | word hname hcs =>
    have hletters := isAlpha_of_mem_names hname hcs
    obtain ⟨c, cs, rfl⟩ := List.exists_cons_of_ne_nil (word hname hcs).ne_nil
    rw [List.cons_append, Scan.ofChars, if_pos (hletters c List.mem_cons_self), Scan.word,
      ← List.cons_append,
      Text.takeWhile_append_of_head? hletters (hrest (List.ne_nil_of_mem hname)),
      classify_of_mem_names hname hcs]
  | time t =>
    have hh := t.hour_lt
    have htens : t.hour / 10 ≤ 2 := by omega
    have hdigit : Nat.digitChar (t.hour / 10) ∈ Scan.digitsUpTo 2 :=
      Scan.mem_digitsUpTo.2 ⟨_, htens, rfl⟩
    have halpha : (Scan.digitsUpTo 2).all (!·.isAlpha) = true := by decide
    have hread := Scan.time_digits_append t rest
    simp only [TimeOfDay.digits, TimeOfDay.twoDigits, List.cons_append, List.nil_append] at hread ⊢
    rw [Scan.ofChars, if_neg (by simpa using List.all_eq_true.1 halpha _ hdigit), if_pos hdigit,
      hread]
    rfl
  | dash => rfl

end Spelling

end Symbol

theorem Scan.isAlpha_or_isDigit_or_eq_dash {c : Char} {cs : List Char}
    (h : c ∈ (ofChars cs).lexeme) :
    c.isAlpha = true ∨ c.isDigit = true ∨ c = '-' := by
  fun_cases ofChars cs with
  | case1 => cases h
  | case2 d ds hd =>
    rw [ofChars, if_pos hd] at h
    exact .inl (List.mem_takeWhile_imp h)
  | case3 d ds hd hdigit =>
    rw [ofChars, if_neg hd, if_pos hdigit] at h
    obtain ⟨allowed, hallowed, hc⟩ := exists_mem_of_mem_oneOfEach h
    exact .inr (.inl (isDigit_of_mem_timeClasses hallowed hc))
  | case4 ds hd hdigit =>
    rw [ofChars, if_neg hd, if_neg hdigit, if_pos rfl] at h
    exact .inr (.inr (List.mem_singleton.1 h))
  | case5 d ds hd hdigit hdash =>
    rw [ofChars, if_neg hd, if_neg hdigit, if_neg hdash] at h
    cases h

namespace Layout

def Neutral (l : Layout) : Prop :=
  ∀ c, l.separates c = true → c.isAlpha = false ∧ c.isDigit = false ∧ c ≠ '-'

theorem neutral_default : Neutral {} := by
  intro c hc
  have hcases : c = '\n' ∨ c = ' ' ∨ c = '\t' ∨ c = '\x0c' := by simpa [separates] using hc
  rcases hcases with rfl | rfl | rfl | rfl <;> decide

theorem Neutral.separates_eq_false {l : Layout} (hl : l.Neutral) {c : Char} {cs : List Char}
    (hc : c ∈ (Scan.ofChars cs).lexeme) : l.separates c = false := by
  rw [Bool.eq_false_iff]
  intro hsep
  obtain ⟨halpha, hdigit, hdash⟩ := hl c hsep
  rcases Scan.isAlpha_or_isDigit_or_eq_dash hc with h | h | h
  · exact absurd (h.symm.trans halpha) (by decide)
  · exact absurd (h.symm.trans hdigit) (by decide)
  · exact hdash h

end Layout

theorem Lexer.terminated_eq_or (endOfLine : Char) (source : List Char) :
    terminated endOfLine source = source ∨ terminated endOfLine source = source ++ [endOfLine] := by
  unfold terminated
  split
  · split
    · exact .inl rfl
    · exact .inr rfl
  · next h => exact .inl (List.getLast?_eq_none_iff.1 h).symm

inductive Written (layout : Layout) : List Char → List Symbol → Prop
  | nil {seps : List Char} (hseps : ∀ c ∈ seps, layout.separates c) : Written layout seps []
  | cons {seps cs rest : List Char} {x : Symbol} {xs : List Symbol}
      (hseps : ∀ c ∈ seps, layout.separates c) (hx : x.Spelling cs)
      (hgap : x.names ≠ [] → ∀ c ∈ rest.head?, c.isAlpha = false) (hrest : Written layout rest xs) :
      Written layout (seps ++ (cs ++ rest)) (x :: xs)

namespace Written

variable {layout : Layout} {cs ds : List Char} {xs ys : List Symbol}

theorem separators_append {seps : List Char} (hseps : ∀ c ∈ seps, layout.separates c)
    (h : Written layout cs xs) : Written layout (seps ++ cs) xs := by
  cases h with
  | nil hmore => exact .nil (List.forall_mem_append.2 ⟨hseps, hmore⟩)
  | cons hmore hx hgap hrest =>
    rw [← List.append_assoc]
    exact .cons (List.forall_mem_append.2 ⟨hseps, hmore⟩) hx hgap hrest

theorem append (h : Written layout cs xs) (h' : Written layout ds ys)
    (hgap : ∀ c ∈ ds.head?, c.isAlpha = false) : Written layout (cs ++ ds) (xs ++ ys) := by
  induction h with
  | nil hseps => exact h'.separators_append hseps
  | @cons seps cs rest x xs hseps hx hword _ ih =>
    have htext : seps ++ (cs ++ rest) ++ ds = seps ++ (cs ++ (rest ++ ds)) := by simp
    rw [htext]
    refine .cons hseps hx ?_ ih
    intro hne
    cases rest with
    | nil => exact hgap
    | cons c rest => exact hword hne

theorem terminated (hl : layout.Neutral) (h : Written layout cs xs) :
    Written layout (Lexer.terminated layout.endOfLine cs) xs := by
  have hend := layout.separates_endOfLine
  rcases Lexer.terminated_eq_or layout.endOfLine cs with heq | heq
  · rw [heq]
    exact h
  · have hline : Written layout [layout.endOfLine] [] := .nil (by simp)
    rw [heq]
    simpa using h.append hline (by simpa using (hl _ hend).1)

end Written

namespace Lexer

theorem next_eq_ok {l : Lexer} {seps cs rest : List Char} {kind : TokenKind}
    (hrest : l.rest = seps ++ (cs ++ rest)) (hseps : ∀ c ∈ seps, l.layout.separates c)
    (hhead : ∀ c ∈ (cs ++ rest).head?, l.layout.separates c = false)
    (hscan : Scan.ofChars (cs ++ rest) = ⟨cs, .ok kind⟩) :
    l.next = .ok ⟨kind, cs, (l.past seps).position⟩ ((l.past seps).past cs) := by
  have hskip : l.skipSeparators = l.past seps := by
    rw [skipSeparators, hrest, Text.takeWhile_append_of_head? hseps hhead]
  have hpast : (l.past seps).rest = cs ++ rest := by
    rw [rest_past, hrest, List.drop_left]
  simp only [next, hskip, hpast, hscan]

theorem next_of_separators {l : Lexer} (h : ∀ c ∈ l.rest, l.layout.separates c) :
    ∃ p r, l.next = .ok ⟨.endInput, [], p⟩ r := by
  have hrest : l.rest = l.rest ++ ([] ++ []) := by simp
  exact ⟨_, _, next_eq_ok hrest h (by simp) rfl⟩

theorem next_of_spelling {l : Lexer} (hl : l.layout.Neutral) {seps cs rest : List Char} {x : Symbol}
    (hrest : l.rest = seps ++ (cs ++ rest)) (hseps : ∀ c ∈ seps, l.layout.separates c)
    (hx : x.Spelling cs) (hgap : x.names ≠ [] → ∀ c ∈ rest.head?, c.isAlpha = false) :
    ∃ p r, l.next = .ok ⟨x.kind, cs, p⟩ r ∧ r.rest = rest ∧ r.layout = l.layout := by
  have hhead : ∀ c ∈ (cs ++ rest).head?, l.layout.separates c = false := by
    obtain ⟨c, cs, rfl⟩ := List.exists_cons_of_ne_nil hx.ne_nil
    rintro _ ⟨⟩
    have hscanned : c ∈ (Scan.ofChars (c :: cs ++ rest)).lexeme := by
      rw [hx.ofChars_append hgap]
      exact List.mem_cons_self
    exact hl.separates_eq_false hscanned
  refine ⟨_, _, next_eq_ok hrest hseps hhead (hx.ofChars_append hgap), ?_, rfl⟩
  rw [rest_past, rest_past, hrest, List.drop_left, List.drop_left]

theorem yields_of_written {l : Lexer} {cs : List Char} {xs : List Symbol} (hl : l.layout.Neutral)
    (hcs : l.rest = cs) (h : Written l.layout cs xs) :
    ∃ ts, l.Yields ts ∧ ts.map Token.symbol? = xs.map some := by
  generalize hlayout : l.layout = layout at h
  induction h generalizing l with
  | nil hseps =>
    subst hcs hlayout
    obtain ⟨_, _, hnext⟩ := next_of_separators hseps
    exact ⟨[], .nil hnext rfl, rfl⟩
  | @cons seps cs rest x xs hseps hx hgap _ ih =>
    subst hlayout
    obtain ⟨p, r, hnext, hrest, hlayout⟩ := next_of_spelling hl hcs hseps hx hgap
    obtain ⟨ts, hyields, hts⟩ := ih (hlayout ▸ hl) hrest hlayout
    refine ⟨_ :: ts, .cons hnext x.kind_ne_endInput hyields, ?_⟩
    rw [List.map_cons, List.map_cons, hts, hx.symbol?]

end Lexer

end Timetable
