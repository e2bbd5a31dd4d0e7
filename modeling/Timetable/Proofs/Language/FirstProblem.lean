import Timetable.Proofs.Language.Acceptance
import Timetable.Proofs.Language.Placement
import Timetable.Proofs.Language.Refusal

namespace Timetable

open Grammar (Viable Stage)

namespace Lexer

variable {l p q r : Lexer} {ts us : List Token} {t : Token} {e e' : Error}

theorem spotAt_inj {k k' : Text.Position} (h : l.spotAt k = l.spotAt k') : k = k' :=
  congrArg Spot.position h

theorem exists_unexpectedCharacter (h : l.next = .error e r) :
    ∃ spot expected, e = .unexpectedCharacter spot expected := by
  obtain ⟨why, -, -, rfl⟩ := next_eq_error_iff.1 h
  exact ⟨_, _, rfl⟩

theorem Reads.eq_of_next_eq_error (h : l.next = .error e q) (hts : l.Reads ts r) :
    ts = [] ∧ r = l := by
  cases hts with
  | nil => exact ⟨rfl, rfl⟩
  | cons h' =>
    rw [h] at h'
    cases h'

inductive Problem (l r : Lexer) (ts : List Token) : Error → Prop
  | token {r' : Lexer} {t : Token} (expected : List TokenKind) (hnext : r.next = .ok t r')
      (hdead : ¬ Viable ((ts ++ [t]).map Token.kind))
      (hexpected : ∃ s, Stage.start.run (ts.map Token.kind) = some s ∧ s.expected = expected) :
      Problem l r ts (.unexpectedToken (l.spotAt t.position) expected t.kind)
  | character {r' : Lexer} {e : Error} (hnext : r.next = .error e r') : Problem l r ts e

structure Breaks (l : Lexer) (ts : List Token) (r : Lexer) (e : Error) : Prop where
  reads : l.Reads ts r
  kinds : ∀ u ∈ ts, u.kind ≠ .endInput
  viable : Viable (ts.map Token.kind)
  problem : l.Problem r ts e

namespace Breaks

theorem exists_append (h : l.Breaks ts r e) (hus : l.Reads us q)
    (hviable : Viable (us.map Token.kind)) : ∃ vs, ts = us ++ vs ∧ q.Reads vs r := by
  rcases h.reads.comparable hus with ⟨vs, rfl, hvs⟩ | ⟨vs, rfl, hvs⟩
  · cases vs with
    | nil =>
      cases hvs
      exact ⟨[], by simp, .nil _⟩
    | cons v vs =>
      obtain ⟨_, hv, -⟩ := Reads.cons_iff.1 hvs
      cases h.problem with
      | token expected hnext hdead =>
        rw [hnext] at hv
        cases hv
        rw [List.append_cons, List.map_append] at hviable
        exact absurd hviable.of_append hdead
      | character hnext =>
        rw [hnext] at hv
        cases hv
  · exact ⟨vs, rfl, hvs⟩

theorem eq_unexpectedToken (h : l.Breaks us r e) (hts : l.Reads (ts ++ [t]) q)
    (hviable : Viable (ts.map Token.kind)) (hdead : ¬ Viable ((ts ++ [t]).map Token.kind)) :
    ∃ expected, e = .unexpectedToken (l.spotAt t.position) expected t.kind := by
  obtain ⟨p, hp, hnext⟩ := Reads.concat_iff.1 hts
  obtain ⟨vs, rfl, hvs⟩ := h.exists_append hp hviable
  cases vs with
  | nil =>
    cases hvs
    cases h.problem with
    | token expected hnext' =>
      rw [hnext] at hnext'
      cases hnext'
      exact ⟨expected, rfl⟩
    | character hnext' =>
      rw [hnext] at hnext'
      cases hnext'
  | cons v vs =>
    obtain ⟨_, hv, -⟩ := Reads.cons_iff.1 hvs
    rw [hnext] at hv
    cases hv
    have hviable' := h.viable
    rw [List.append_cons, List.map_append] at hviable'
    exact absurd hviable'.of_append hdead

theorem eq_of_next_eq_error (h : l.Breaks us r e') (hts : l.Reads ts p)
    (hviable : Viable (ts.map Token.kind)) (hnext : p.next = .error e q) : e' = e := by
  obtain ⟨vs, rfl, hvs⟩ := h.exists_append hts hviable
  obtain ⟨rfl, rfl⟩ := hvs.eq_of_next_eq_error hnext
  cases h.problem with
  | token _ hnext' =>
    rw [hnext] at hnext'
    cases hnext'
  | character hnext' =>
    rw [hnext] at hnext'
    cases hnext'
    rfl

theorem unique (h : l.Breaks ts r e) (h' : l.Breaks us q e') : e = e' := by
  obtain ⟨vs, rfl, hvs⟩ := h.exists_append h'.reads h'.viable
  obtain ⟨ws, hws, -⟩ := h'.exists_append h.reads h.viable
  obtain ⟨rfl, -⟩ : vs = [] ∧ ws = [] := by simpa using hws
  cases hvs
  cases h.problem with
  | token _ hnext _ hexpected =>
    cases h'.problem with
    | token _ hnext' _ hexpected' =>
      rw [hnext] at hnext'
      cases hnext'
      obtain ⟨s, hs, rfl⟩ := hexpected
      obtain ⟨s', hs', rfl⟩ := hexpected'
      rw [List.append_nil, hs'] at hs
      cases hs
      rfl
    | character hnext' =>
      rw [hnext] at hnext'
      cases hnext'
  | character hnext => exact (h'.eq_of_next_eq_error h'.reads h'.viable hnext).symm

theorem viable_of_unexpectedToken (hl : l.cursor.Proper) {expected : List TokenKind}
    (h : l.Breaks us r (.unexpectedToken (l.spotAt t.position) expected t.kind))
    (hts : l.Reads (ts ++ [t]) q) (hkinds : ∀ u ∈ ts, u.kind ≠ .endInput) :
    Viable (ts.map Token.kind) ∧ ¬ Viable ((ts ++ [t]).map Token.kind) := by
  obtain ⟨hus, hkinds', hviable, hproblem⟩ := h
  generalize he : Error.unexpectedToken (l.spotAt t.position) expected t.kind = e at hproblem
  cases hproblem with
  | token _ hnext hdead =>
    injection he with hspot
    have hus' := Reads.concat_iff.2 ⟨_, hus, hnext⟩
    obtain ⟨rfl, rfl⟩ := Reads.eq_of_position_eq hl hts hus' hkinds hkinds' (spotAt_inj hspot)
    exact ⟨hviable, hdead⟩
  | character hnext =>
    obtain ⟨_, _, rfl⟩ := exists_unexpectedCharacter hnext
    cases he

theorem viable_of_next_eq_error (h : l.Breaks us r e) (hts : l.Reads ts p)
    (hnext : p.next = .error e q) : Viable (ts.map Token.kind) := by
  obtain ⟨hus, -, hviable, hproblem⟩ := h
  obtain ⟨_, _, rfl⟩ := exists_unexpectedCharacter hnext
  cases hproblem with
  | character hnext' =>
    rcases hus.comparable hts with ⟨vs, rfl, hvs⟩ | ⟨vs, rfl, hvs⟩
    · obtain ⟨rfl, -⟩ := hvs.eq_of_next_eq_error hnext'
      rwa [List.append_nil]
    · rw [List.map_append] at hviable
      exact hviable.of_append

end Breaks

end Lexer

namespace Parser

variable {l : Lexer}

theorem exists_breaks_of_parse {e : Error} {q : Parser} (h : parse (.ofLexer l) = .error e q) :
    ∃ ts r, l.Breaks ts r e := by
  rcases parse_eq_error h with ⟨r, hr, -⟩ | ⟨p, hp, s, q, ⟨xs, hxs, hs⟩, hstuck⟩
  · exact ⟨[], l, .nil l, by simp, Grammar.viable_iff.2 ⟨.start, rfl⟩, .character hr⟩
  · obtain ⟨ts, hreads, hts⟩ := exists_advance_consumes_iff.1 ⟨p, hp, hxs⟩
    obtain ⟨r, hread, hnext⟩ := Lexer.Reads.concat_iff.1 hreads
    have hkinds := Token.kind_ne_endInput_of_symbols hts
    rw [← Token.map_kind_of_symbols hts] at hs
    have hconcat (t : Token) : Stage.run .start ((ts ++ [t]).map Token.kind) = s.next t.kind := by
      rw [List.map_append, Stage.run_append, hs, Option.bind_some, List.map_singleton,
        Stage.run_singleton]
    cases hstuck with
    | token hdead =>
      rw [hreads.spotAt_eq]
      refine ⟨ts, r, hread, hkinds, Grammar.viable_iff.2 ⟨s, hs⟩,
        .token s.expected hnext ?_ ⟨s, hs, rfl⟩⟩
      rw [Grammar.viable_iff, hconcat, hdead]
      simp
    | character hx hs' hl =>
      have hkind := Token.kind_of_symbol? hx
      refine ⟨ts ++ [q.token], q.lexer, hreads, ?_, ?_, .character hl⟩
      · rw [List.forall_mem_append]
        refine ⟨hkinds, ?_⟩
        simp [hkind, Symbol.kind_ne_endInput]
      · rw [Grammar.viable_iff, hconcat, hkind, hs']
        exact ⟨_, rfl⟩

theorem exists_sentence_of_parse {s : Schedule} {q : Parser} (h : parse (.ofLexer l) = .ok s q) :
    ∃ ts t r, l.Reads (ts ++ [t]) r ∧ t.kind = .endInput ∧
      Viable ((ts ++ [t]).map Token.kind) := by
  obtain ⟨ts, x, hreads, hend, hts, -⟩ := parse_eq_ok_iff.1 h
  refine ⟨ts, q.token, q.lexer, hreads, hend, [], ?_⟩
  rw [List.append_nil, List.map_append, List.map_singleton, hend, Grammar.source, Language.mem_mul]
  refine ⟨_, ?_, _, rfl, rfl⟩
  rw [Token.map_kind_of_symbols hts]
  exact (Grammar.spells_schedule _).2 ⟨x, rfl⟩

end Parser

namespace Lexer

variable {l q r r' : Lexer} {ts us : List Token} {t : Token} {e : Error}

theorem proper_ofString (source : String) (layout : Layout) :
    (ofString source layout).cursor.Proper :=
  Nat.le_refl 0

theorem locates_position_iff {source : String} {layout : Layout} {spot : Spot}
    (hts : (ofString source layout).Reads (ts ++ [t]) r) :
    (ofString source layout).Locates t.position spot ↔
      spot = (ofString source layout).spotAt t.position :=
  locates_iff ((Placed.ofString source layout).line_le_of_reads hts)

theorem Reads.next_ne_error (hts : l.Reads (ts ++ [t]) r) (ht : t.kind = .endInput)
    (hus : l.Reads us r') : r'.next ≠ .error e q := by
  intro hnext
  obtain ⟨p, -, ht'⟩ := concat_iff.1 hts
  have hend : r.next = .ok t r := next_of_endInput ht' ht
  have heq : r' = r := by
    rcases hts.comparable hus with ⟨vs, -, hvs⟩ | ⟨vs, -, hvs⟩
    · exact eq_of_next_eq_self hend hvs
    · exact (hvs.eq_of_next_eq_error hnext).2.symm
  rw [heq, hend] at hnext
  cases hnext

theorem Reads.viable_of_endInput (hts : l.Reads (ts ++ [t]) r) (ht : t.kind = .endInput)
    (hviable : Viable ((ts ++ [t]).map Token.kind)) {u : Token} (hus : l.Reads (us ++ [u]) r')
    (hkinds : ∀ u ∈ us, u.kind ≠ .endInput) : Viable ((us ++ [u]).map Token.kind) := by
  rcases hts.comparable hus with ⟨vs, heq, -⟩ | ⟨vs, heq, -⟩
  · cases vs using List.reverseRecOn with
    | nil => rwa [heq, List.append_nil]
    | append_singleton vs v =>
      rw [← List.append_assoc] at heq
      obtain ⟨rfl, -⟩ := List.append_inj' heq rfl
      exact absurd ht (hkinds t (by simp))
  · rw [heq, List.map_append] at hviable
    exact hviable.of_append

theorem Reads.not_breaks (hts : l.Reads (ts ++ [t]) r) (ht : t.kind = .endInput)
    (hviable : Viable ((ts ++ [t]).map Token.kind)) : ¬ l.Breaks us r' e := by
  intro h
  cases h.problem with
  | token _ hnext hdead =>
    exact hdead (hts.viable_of_endInput ht hviable (concat_iff.2 ⟨_, h.reads, hnext⟩) h.kinds)
  | character hnext => exact hts.next_ne_error ht h.reads hnext

end Lexer

namespace Schedule

variable {layout : Layout} {source : String} {e : Error}

theorem ofSourceWith_eq_error_iff :
    ofSourceWith layout source = .error e ↔
      ∃ q, Parser.parse (.ofLexer (.ofString source layout)) = .error e q := by
  unfold ofSourceWith
  cases Parser.parse (.ofLexer (.ofString source layout)) <;> simp

theorem exists_breaks (h : ofSourceWith layout source = .error e) :
    ∃ ts r, (Lexer.ofString source layout).Breaks ts r e := by
  obtain ⟨q, hq⟩ := ofSourceWith_eq_error_iff.1 h
  exact Parser.exists_breaks_of_parse hq

theorem exists_sentence {s : Schedule} (h : ofSourceWith layout source = .ok s) :
    ∃ ts t r, (Lexer.ofString source layout).Reads (ts ++ [t]) r ∧ t.kind = .endInput ∧
      Viable ((ts ++ [t]).map Token.kind) := by
  unfold ofSourceWith at h
  split at h
  · next hparse => exact Parser.exists_sentence_of_parse hparse
  · cases h

theorem ofSourceWith_eq_error_iff_breaks :
    ofSourceWith layout source = .error e ↔
      ∃ ts r, (Lexer.ofString source layout).Breaks ts r e := by
  refine ⟨exists_breaks, ?_⟩
  rintro ⟨ts, r, hts⟩
  cases hparse : ofSourceWith layout source with
  | ok s =>
    obtain ⟨us, u, q, hus, hu, hviable⟩ := exists_sentence hparse
    exact absurd hts (hus.not_breaks hu hviable)
  | error e' =>
    obtain ⟨us, q, hus⟩ := exists_breaks hparse
    rw [hus.unique hts]

section Reported

variable {ts : List Token} {t : Token} {r q : Lexer}

theorem exists_unexpectedToken_iff (hts : (Lexer.ofString source layout).Reads (ts ++ [t]) r)
    (hkinds : ∀ u ∈ ts, u.kind ≠ .endInput) :
    (∃ spot expected, ofSourceWith layout source = .error (.unexpectedToken spot expected t.kind) ∧
        (Lexer.ofString source layout).Locates t.position spot) ↔
      Viable (ts.map Token.kind) ∧ ¬ Viable ((ts ++ [t]).map Token.kind) := by
  constructor
  · rintro ⟨spot, expected, he, hspot⟩
    obtain rfl := (Lexer.locates_position_iff hts).1 hspot
    obtain ⟨us, p, hus⟩ := exists_breaks he
    exact hus.viable_of_unexpectedToken (Lexer.proper_ofString source layout) hts hkinds
  · rintro ⟨hviable, hdead⟩
    cases hparse : ofSourceWith layout source with
    | ok s =>
      obtain ⟨us, u, q, hus, hu, hviable'⟩ := exists_sentence hparse
      exact absurd (hus.viable_of_endInput hu hviable' hts hkinds) hdead
    | error e =>
      obtain ⟨us, p, hus⟩ := exists_breaks hparse
      obtain ⟨expected, rfl⟩ := hus.eq_unexpectedToken hts hviable hdead
      exact ⟨_, expected, rfl, (Lexer.locates_position_iff hts).2 rfl⟩

theorem eq_error_iff_of_next (hts : (Lexer.ofString source layout).Reads ts r)
    (hnext : r.next = .error e q) :
    ofSourceWith layout source = .error e ↔ Viable (ts.map Token.kind) := by
  constructor
  · intro he
    obtain ⟨us, p, hus⟩ := exists_breaks he
    exact hus.viable_of_next_eq_error hts hnext
  · intro hviable
    cases hparse : ofSourceWith layout source with
    | ok s =>
      obtain ⟨us, u, q, hus, hu, -⟩ := exists_sentence hparse
      exact absurd hnext (hus.next_ne_error hu hts)
    | error e' =>
      obtain ⟨us, p, hus⟩ := exists_breaks hparse
      rw [hus.eq_of_next_eq_error hts hviable hnext]

end Reported

theorem first_problem_reported (layout : Layout) (source : String) :
    let l := Lexer.ofString source layout
    (∀ ts t r, l.Reads (ts ++ [t]) r → (∀ u ∈ ts, u.kind ≠ .endInput) →
      ((∃ spot expected, ofSourceWith layout source = .error (.unexpectedToken spot expected t.kind) ∧
          l.Locates t.position spot) ↔
        Viable (ts.map Token.kind) ∧ ¬ Viable ((ts ++ [t]).map Token.kind))) ∧
    (∀ ts r e r', l.Reads ts r → r.next = .error e r' →
      (ofSourceWith layout source = .error e ↔ Viable (ts.map Token.kind))) ∧
    ∀ e, ofSourceWith layout source = .error e →
      (∃ ts t r spot expected, l.Reads (ts ++ [t]) r ∧ (∀ u ∈ ts, u.kind ≠ .endInput) ∧
        e = .unexpectedToken spot expected t.kind ∧ l.Locates t.position spot) ∨
      ∃ ts r r', l.Reads ts r ∧ r.next = .error e r' := by
  intro l
  refine ⟨fun ts t r hts hkinds => exists_unexpectedToken_iff hts hkinds,
    fun ts r e r' hts hnext => eq_error_iff_of_next hts hnext, fun e he => ?_⟩
  obtain ⟨us, p, hus⟩ := exists_breaks he
  cases hus.problem with
  | token expected hnext =>
    have hreads := Lexer.Reads.concat_iff.2 ⟨p, hus.reads, hnext⟩
    have hspot := (Lexer.locates_position_iff hreads).2 rfl
    exact .inl ⟨us, _, _, _, expected, hreads, hus.kinds, rfl, hspot⟩
  | character hnext => exact .inr ⟨us, p, _, hus.reads, hnext⟩

theorem first_problem_reported_before_unreadable :
    let l := Lexer.ofString "mon mon @" {}
    ∃ ts t r e r', l.Reads (ts ++ [t]) r ∧ r.next = .error e r' ∧ Viable (ts.map Token.kind) ∧
      ¬ Viable ((ts ++ [t]).map Token.kind) ∧
      (∃ spot expected, ofSourceWith {} "mon mon @" = .error (.unexpectedToken spot expected t.kind) ∧
        l.Locates t.position spot) ∧
      ofSourceWith {} "mon mon @" ≠ .error e := by
  intro l
  obtain ⟨htoken, hcharacter, -⟩ := first_problem_reported {} "mon mon @"
  have hfirst : l.next = .ok ⟨.dayOfWeek, ['m', 'o', 'n'], ⟨0, 0⟩⟩ { l with cursor := ⟨3, 0, 0⟩ } :=
    Lexer.next_eq_ok_iff.2 (by decide +kernel +zetaReduce)
  have hsecond : Lexer.next { l with cursor := ⟨3, 0, 0⟩ } =
      .ok ⟨.dayOfWeek, ['m', 'o', 'n'], ⟨0, 4⟩⟩ { l with cursor := ⟨7, 0, 0⟩ } :=
    Lexer.next_eq_ok_iff.2 (by decide +kernel +zetaReduce)
  have hnext : Lexer.next { l with cursor := ⟨7, 0, 0⟩ } =
      .error (.unexpectedCharacter (l.spotAt ⟨0, 8⟩) []) { l with cursor := ⟨8, 0, 0⟩ } :=
    Lexer.next_eq_error_iff.2 ⟨⟨[], 0⟩, by decide +kernel +zetaReduce⟩
  have hreads := Lexer.Reads.cons hfirst (Lexer.Reads.singleton_iff.2 hsecond)
  have hviable : Viable [.dayOfWeek] := Grammar.viable_iff.2 ⟨.day, rfl⟩
  have hdead : ¬ Viable [.dayOfWeek, .dayOfWeek] := by
    rw [Grammar.viable_iff]
    rintro ⟨_, ⟨⟩⟩
  refine ⟨[_], _, _, _, _, hreads, hnext, hviable, hdead, ?_, ?_⟩
  · exact (htoken [_] _ _ hreads (by simp)).2 ⟨hviable, hdead⟩
  · exact fun h => hdead ((hcharacter _ _ _ _ hreads hnext).1 h)

end Schedule

end Timetable
