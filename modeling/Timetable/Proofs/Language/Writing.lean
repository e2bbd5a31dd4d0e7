import Mathlib.Data.List.Forall2
import Timetable.Proofs.Language.FirstProblem
import Timetable.Proofs.Language.Spelling

namespace Timetable

structure Lexeme where
  symbol : Symbol
  chars : List Char
  spelling : symbol.Spelling chars

namespace Symbol.Spelling

variable {x y : Symbol} {cs ds : List Char}

theorem unique (h : x.Spelling cs) (h' : y.Spelling cs) : x = y := by
  have hscan : Scan.ofChars (cs ++ []) = ⟨cs, .ok x.kind⟩ := h.ofChars_append (by simp)
  rw [h'.ofChars_append (by simp)] at hscan
  injection hscan with _ hkind
  injection hkind with hkind
  have hx := h.symbol? ⟨0, 0⟩
  rw [← hkind, h'.symbol?] at hx
  exact (Option.some.inj hx).symm

theorem map_toLower (h : x.Spelling cs) : x.Spelling (cs.map Char.toLower) := by
  cases h with
  | word hname hcs =>
    rw [hcs]
    exact .of_mem_names hname
  | time t =>
    have hdigits : t.digits.map Char.toLower = t.digits.map id :=
      List.map_congr_left fun c hc => Text.toLower_of_isDigit (t.isDigit_of_mem_digits hc)
    rw [hdigits, List.map_id]
    exact .time t
  | dash => exact .dash

theorem eq_of_map_toLower_eq (h : x.Spelling cs) (h' : y.Spelling ds)
    (heq : cs.map Char.toLower = ds.map Char.toLower) : x = y := by
  have hx := h.map_toLower
  rw [heq] at hx
  exact hx.unique h'.map_toLower

end Symbol.Spelling

namespace Lexeme

def IsWord (x : Lexeme) : Prop :=
  x.symbol.names ≠ []

instance : DecidablePred IsWord :=
  fun x => inferInstanceAs (Decidable (x.symbol.names ≠ []))

def SameLetters (x y : Lexeme) : Prop :=
  x.chars.map Char.toLower = y.chars.map Char.toLower

theorem isAlpha_eq_false_of_mem_head? {x : Lexeme} (h : ¬ x.IsWord) :
    ∀ c ∈ x.chars.head?, c.isAlpha = false := by
  obtain ⟨symbol, chars, spelling⟩ := x
  intro c hc
  cases spelling with
  | word hname => exact absurd (List.ne_nil_of_mem hname) h
  | time t =>
    exact Text.isAlpha_eq_false_of_isDigit (t.isDigit_of_mem_digits (List.mem_of_mem_head? hc))
  | dash =>
    cases hc
    rfl

def ReadAs (x : Lexeme) (t : Token) : Prop :=
  t.kind = x.symbol.kind ∧ t.lexeme = x.chars

theorem ReadAs.symbol? {x : Lexeme} {t : Token} (h : x.ReadAs t) : t.symbol? = some x.symbol := by
  obtain ⟨hkind, hlexeme⟩ := h
  exact Token.StandsFor.symbol? ⟨hkind, hlexeme ▸ x.spelling⟩

theorem map_symbol?_of_readAs {xs : List Lexeme} {ts : List Token} (h : List.Forall₂ ReadAs xs ts) :
    ts.map Token.symbol? = (xs.map symbol).map some := by
  induction h with
  | nil => rfl
  | cons hx _ ih => rw [List.map_cons, List.map_cons, List.map_cons, hx.symbol?, ih]

theorem map_symbol_of_sameLetters {xs ys : List Lexeme} (h : List.Forall₂ SameLetters xs ys) :
    xs.map symbol = ys.map symbol := by
  induction h with
  | nil => rfl
  | @cons x y _ _ hxy _ ih =>
    rw [List.map_cons, List.map_cons, ih, x.spelling.eq_of_map_toLower_eq y.spelling hxy]

end Lexeme

structure Writing (layout : Layout) where
  items : List (List Char × Lexeme)
  last : List Char
  separators : ∀ gap ∈ last :: items.map Prod.fst, ∀ c ∈ gap, layout.separates c
  apart : items.IsChain fun x y => x.2.IsWord → y.2.IsWord → y.1 ≠ []

namespace Writing

variable {layout : Layout}

def lexemes (w : Writing layout) : List Lexeme :=
  w.items.map Prod.snd

def chars (w : Writing layout) : List Char :=
  w.items.flatMap (fun x => x.1 ++ x.2.chars) ++ w.last

end Writing

namespace Lexer

theorem exists_yields_readAs {l : Lexer} (hl : l.layout.Neutral) (items : List (List Char × Lexeme))
    {last : List Char} (hrest : l.rest = items.flatMap (fun x => x.1 ++ x.2.chars) ++ last)
    (hseps : ∀ gap ∈ last :: items.map Prod.fst, ∀ c ∈ gap, l.layout.separates c)
    (hapart : items.IsChain fun x y => x.2.IsWord → y.2.IsWord → y.1 ≠ []) :
    ∃ ts, l.Yields ts ∧ List.Forall₂ Lexeme.ReadAs (items.map Prod.snd) ts := by
  induction items generalizing l with
  | nil =>
    have hlast : ∀ c ∈ l.rest, l.layout.separates c := by
      rw [hrest]
      exact hseps last List.mem_cons_self
    obtain ⟨_, _, hnext⟩ := next_of_separators hlast
    exact ⟨[], .nil hnext rfl, .nil⟩
  | cons item items ih =>
    obtain ⟨gap, x⟩ := item
    simp only [List.map_cons, List.forall_mem_cons] at hseps
    obtain ⟨hlast, hgap, hgaps⟩ := hseps
    obtain ⟨hfirst, hapart⟩ := List.isChain_cons.1 hapart
    have hbehind : x.IsWord → ∀ c ∈ (items.flatMap (fun x => x.1 ++ x.2.chars) ++ last).head?,
        c.isAlpha = false := by
      intro hx c hc
      cases items with
      | nil => exact (hl c (hlast c (List.mem_of_mem_head? hc))).1
      | cons next items =>
        obtain ⟨gap', y⟩ := next
        cases gap' with
        | nil =>
          have hy : ¬ y.IsWord := fun hy => hfirst _ rfl hx hy rfl
          refine Lexeme.isAlpha_eq_false_of_mem_head? hy c ?_
          obtain ⟨d, ds, hds⟩ := List.exists_cons_of_ne_nil y.spelling.ne_nil
          simpa [hds] using hc
        | cons d gap' =>
          obtain rfl : d = c := by simpa using hc
          exact (hl d (hgaps _ List.mem_cons_self d List.mem_cons_self)).1
    have hsplit : l.rest = gap ++ (x.chars ++ (items.flatMap (fun x => x.1 ++ x.2.chars) ++ last)) := by
      rw [hrest]
      simp
    obtain ⟨p, r, hnext, hr, hlayout⟩ := next_of_spelling hl hsplit hgap x.spelling hbehind
    rw [← hlayout] at hl hlast hgaps
    obtain ⟨ts, hyields, hts⟩ := ih hl hr (List.forall_mem_cons.2 ⟨hlast, hgaps⟩) hapart
    exact ⟨_ :: ts, .cons hnext x.symbol.kind_ne_endInput hyields, .cons ⟨rfl, rfl⟩ hts⟩

end Lexer

namespace Writing

variable {layout layout' : Layout}

theorem exists_yields (hl : layout.Neutral) (w : Writing layout) :
    ∃ ts, (Lexer.ofString (String.ofList w.chars) layout).Yields ts ∧
      List.Forall₂ Lexeme.ReadAs w.lexemes ts := by
  have hrest : (Lexer.ofString (String.ofList w.chars) layout).rest =
      Lexer.terminated layout.endOfLine w.chars := by
    simp [Lexer.rest, Lexer.ofString, Cursor.start]
  rcases Lexer.terminated_eq_or layout.endOfLine w.chars with h | h
  · rw [h] at hrest
    exact Lexer.exists_yields_readAs hl w.items hrest w.separators w.apart
  · rw [h, chars, List.append_assoc] at hrest
    refine Lexer.exists_yields_readAs hl w.items hrest ?_ w.apart
    obtain ⟨hlast, hgaps⟩ := List.forall_mem_cons.1 w.separators
    refine List.forall_mem_cons.2 ⟨List.forall_mem_append.2 ⟨hlast, ?_⟩, hgaps⟩
    simp [Lexer.ofString, Layout.separates]

end Writing

namespace Schedule

variable {layout layout' : Layout} {source source' : String} {ts us : List Token}

theorem ofSourceWith_of_symbols_eq (hts : (Lexer.ofString source layout).Yields ts)
    (hus : (Lexer.ofString source' layout').Yields us)
    (h : ts.map Token.symbol? = us.map Token.symbol?) {s : Schedule}
    (hs : ofSourceWith layout source = .ok s) : ofSourceWith layout' source' = .ok s := by
  obtain ⟨ts', x, hts', hx, hmeaning⟩ := ofSourceWith_eq_ok_iff.1 hs
  obtain rfl := hts.unique hts'
  exact ofSourceWith_eq_ok_iff.2 ⟨us, x, hus, h.symm.trans hx, hmeaning⟩

theorem exists_unexpectedToken_of_yields (hts : (Lexer.ofString source layout).Yields ts) {e : Error}
    (he : ofSourceWith layout source = .error e) :
    ∃ spot expected got, e = .unexpectedToken spot expected got := by
  obtain ⟨us, r, hus⟩ := exists_breaks he
  obtain ⟨t, _, hreads, ht, -⟩ := hts
  cases hus.problem with
  | token => exact ⟨_, _, _, rfl⟩
  | character hnext => exact absurd hnext (hreads.next_ne_error ht hus.reads)

end Schedule

namespace Writing

open Schedule (ofSourceWith)

theorem read_back {layout : Layout} (hl : layout.Neutral) (w : Writing layout) :
    (∃ ts, (Lexer.ofString (String.ofList w.chars) layout).Yields ts ∧
      List.Forall₂ Lexeme.ReadAs w.lexemes ts) ∧
    ∀ (layout' : Layout) (w' : Writing layout'), layout'.Neutral →
      List.Forall₂ Lexeme.SameLetters w.lexemes w'.lexemes →
      (∃ s, ofSourceWith layout (String.ofList w.chars) = .ok s ∧
        ofSourceWith layout' (String.ofList w'.chars) = .ok s) ∨
      ((∃ spot expected got, ofSourceWith layout (String.ofList w.chars) =
          .error (.unexpectedToken spot expected got)) ∧
        ∃ spot expected got, ofSourceWith layout' (String.ofList w'.chars) =
          .error (.unexpectedToken spot expected got)) := by
  obtain ⟨ts, hts, hreadAs⟩ := w.exists_yields hl
  refine ⟨⟨ts, hts, hreadAs⟩, fun layout' w' hl' hsame => ?_⟩
  obtain ⟨us, hus, hreadAs'⟩ := w'.exists_yields hl'
  have hsymbols : ts.map Token.symbol? = us.map Token.symbol? := by
    rw [Lexeme.map_symbol?_of_readAs hreadAs, Lexeme.map_symbol?_of_readAs hreadAs',
      Lexeme.map_symbol_of_sameLetters hsame]
  cases h : ofSourceWith layout (String.ofList w.chars) with
  | ok s => exact .inl ⟨s, rfl, Schedule.ofSourceWith_of_symbols_eq hts hus hsymbols h⟩
  | error e =>
    cases h' : ofSourceWith layout' (String.ofList w'.chars) with
    | ok s =>
      rw [Schedule.ofSourceWith_of_symbols_eq hus hts hsymbols.symm h'] at h
      cases h
    | error e' =>
      obtain ⟨_, _, _, rfl⟩ := Schedule.exists_unexpectedToken_of_yields hts h
      obtain ⟨_, _, _, rfl⟩ := Schedule.exists_unexpectedToken_of_yields hus h'
      exact .inr ⟨⟨_, _, _, rfl⟩, _, _, _, rfl⟩

theorem read_back_of_tight_text :
    let monday (cs : List Char) (h : cs.map Char.toLower = "mon".toList) : Lexeme :=
      ⟨.day .monday, cs, .word (show "mon" ∈ (Symbol.day .monday).names by decide) h⟩
    let allow (cs : List Char) (h : cs.map Char.toLower = "allow".toList) : Lexeme :=
      ⟨.directive .allow, cs, .word (show "allow" ∈ (Symbol.directive .allow).names by decide) h⟩
    let eight : Lexeme := ⟨_, _, .time { hour := 8, minute := 0 }⟩
    let nine : Lexeme := ⟨_, _, .time { hour := 9, minute := 0 }⟩
    let w : Writing ⟨[','], ';'⟩ :=
      { items := [([], monday "MON".toList (by decide)), ([','], allow "allow".toList (by decide)),
          ([], eight), ([], nine)]
        last := []
        separators := by simp [Layout.separates]
        apart := by decide }
    let w' : Writing {} :=
      { items := [([' '], monday "mon".toList (by decide)),
          (['\n', ' '], allow "ALLOW".toList (by decide)), ([' '], eight), ([' '], nine)]
        last := []
        separators := by simp [Layout.separates]
        apart := by decide }
    Layout.Neutral ⟨[','], ';'⟩ ∧ Layout.Neutral {} ∧
      List.Forall₂ Lexeme.SameLetters w.lexemes w'.lexemes ∧
      (∃ ts, (Lexer.ofString (String.ofList w.chars) ⟨[','], ';'⟩).Yields ts ∧
        List.Forall₂ Lexeme.ReadAs w.lexemes ts) ∧
      ∃ s, ofSourceWith ⟨[','], ';'⟩ (String.ofList w.chars) = .ok s ∧
        ofSourceWith {} (String.ofList w'.chars) = .ok s := by
  intro monday allow eight nine w w'
  have hneutral : Layout.Neutral ⟨[','], ';'⟩ := by
    intro c hc
    have hcases : c = ';' ∨ c = ',' := by simpa [Layout.separates] using hc
    rcases hcases with rfl | rfl <;> decide
  have hsame : List.Forall₂ Lexeme.SameLetters w.lexemes w'.lexemes :=
    .cons rfl (.cons rfl (.cons rfl (.cons rfl .nil)))
  have haccepted : (ofSourceWith {} (String.ofList w'.chars)).toOption.isSome = true := by
    decide +kernel
  obtain ⟨htokens, hpair⟩ := read_back hneutral w
  refine ⟨hneutral, Layout.neutral_default, hsame, htokens, ?_⟩
  rcases hpair {} w' Layout.neutral_default hsame with hok | ⟨-, spot, expected, got, herror⟩
  · exact hok
  · rw [herror] at haccepted
    cases haccepted

end Writing

end Timetable
