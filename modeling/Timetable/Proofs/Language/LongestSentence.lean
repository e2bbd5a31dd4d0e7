import Timetable.Proofs.Language.Continuation
import Timetable.Proofs.Language.FirstProblem

namespace Timetable

open Grammar (Begins Spells Stage)

namespace Phrase

structure Intervals where
  items : List Interval
  nonempty : items ≠ []
  greedy : items.IsChain fun i j => i.EndsBefore j.firstKind

namespace Intervals

def symbols (is : Intervals) : List Symbol :=
  is.items.flatMap Interval.symbols

def meaning (is : Intervals) : List Timetable.Interval :=
  is.items.map Interval.meaning

end Intervals

structure Agendas where
  items : List Agenda
  nonempty : items ≠ []

namespace Agendas

def symbols (as : Agendas) : List Symbol :=
  as.items.flatMap Agenda.symbols

def meaning (as : Agendas) : List Timetable.Agenda :=
  as.items.map Agenda.meaning

end Agendas

end Phrase

namespace Grammar

theorem spells_intervals : Spells (oneOrMore interval) Phrase.Intervals.symbols := by
  intro xs
  rw [spells_interval.oneOrMore]
  constructor
  · rintro ⟨is, hne, rfl⟩
    obtain ⟨js, hjs, hgreedy, hsymbols⟩ := exists_greedy is hne
    exact ⟨⟨js, hjs, hgreedy⟩, hsymbols⟩
  · rintro ⟨⟨is, hne, -⟩, rfl⟩
    exact ⟨is, hne, rfl⟩

theorem spells_agendas : Spells (oneOrMore agenda) Phrase.Agendas.symbols := by
  intro xs
  rw [spells_agenda.oneOrMore]
  constructor
  · rintro ⟨as, hne, rfl⟩
    exact ⟨⟨as, hne⟩, rfl⟩
  · rintro ⟨⟨as, hne⟩, rfl⟩
    exact ⟨as, hne, rfl⟩

theorem Spells.mem {X : Type} {l : Language TokenKind} {symbols : X → List Symbol}
    (h : Spells l symbols) (x : X) : (symbols x).map Symbol.kind ∈ l :=
  (h _).2 ⟨x, rfl⟩

end Grammar

namespace Parser

def Passes (p : Parser) (ts : List Token) (q : Parser) : Prop :=
  ∃ us, p.token :: us = ts ++ [q.token] ∧ p.lexer.Reads us q.lexer

theorem passes_nil_iff {p q : Parser} : p.Passes [] q ↔ p = q := by
  constructor
  · rintro ⟨us, hus, hreads⟩
    obtain ⟨lexer, token⟩ := q
    obtain ⟨rfl, rfl⟩ := List.cons.inj hus
    cases hreads
    rfl
  · rintro rfl
    exact ⟨[], rfl, .nil _⟩

theorem passes_cons_iff {p q : Parser} {t : Token} {ts : List Token} :
    p.Passes (t :: ts) q ↔ p.token = t ∧ ∃ r, advance p = .ok () r ∧ r.Passes ts q := by
  constructor
  · rintro ⟨us, hus, hreads⟩
    obtain ⟨rfl, rfl⟩ := List.cons.inj hus
    cases ts with
    | nil =>
      exact ⟨rfl, q, advance_eq_ok_iff.2 (Lexer.Reads.singleton_iff.1 hreads), passes_nil_iff.2 rfl⟩
    | cons t ts =>
      obtain ⟨l, hl, hreads⟩ := Lexer.Reads.cons_iff.1 hreads
      exact ⟨rfl, ⟨l, t⟩, advance_eq_ok_iff.2 hl, _, rfl, hreads⟩
  · rintro ⟨rfl, r, hr, us, hus, hreads⟩
    exact ⟨ts ++ [q.token], rfl, by rw [← hus]; exact .cons (advance_eq_ok_iff.1 hr) hreads⟩

theorem Passes.legible {p q : Parser} {ts : List Token} (h : p.Passes ts q) (hp : p.Readable) :
    ∀ t ∈ ts, t.Legible := by
  obtain ⟨us, hus, hreads⟩ := h
  have hall : ∀ t ∈ p.token :: us, t.Legible := List.forall_mem_cons.2 ⟨hp, hreads.legible⟩
  rw [hus] at hall
  exact (List.forall_mem_append.1 hall).1

theorem consumes_iff {p q : Parser} {xs : List Symbol} :
    Consumes p xs q ↔ ∃ ts, p.Passes ts q ∧ ts.map Token.symbol? = xs.map some := by
  induction xs generalizing p with
  | nil => simp [Consumes, passes_nil_iff]
  | cons x xs ih =>
    simp only [Consumes, ih, List.map_cons, List.map_eq_cons_iff]
    constructor
    · rintro ⟨hx, r, hr, ts, hpasses, hts⟩
      exact ⟨_, passes_cons_iff.2 ⟨rfl, r, hr, hpasses⟩, _, _, rfl, hx, hts⟩
    · rintro ⟨_, hpasses, t, ts, rfl, hx, hts⟩
      obtain ⟨rfl, r, hr, hpasses⟩ := passes_cons_iff.1 hpasses
      exact ⟨hx, r, hr, ts, hpasses, hts⟩

theorem Consumes.readable {p q : Parser} {xs : List Symbol} (h : Consumes p xs q)
    (hp : p.Readable) : q.Readable :=
  h.preserves (fun _ hr => readable_of_advance hr) hp

section Prolonging

variable {X α : Type}

def Unprolonged (l : Language TokenKind) (symbols : X → List Symbol) (k : TokenKind) (x : X) : Prop :=
  ¬ Begins l ((symbols x).map Symbol.kind ++ [k])

theorem unprolonged_days_iff {x : Phrase.Days} {k : TokenKind} :
    Unprolonged Grammar.days Phrase.Days.symbols k x ↔ x.EndsBefore k := by
  rw [Unprolonged, Grammar.begins_days_concat_iff, not_not]

theorem unprolonged_interval_iff {x : Phrase.Interval} {k : TokenKind} :
    Unprolonged Grammar.interval Phrase.Interval.symbols k x ↔ x.EndsBefore k := by
  rw [Unprolonged, Grammar.begins_interval_concat_iff, not_not]

theorem unprolonged_intervals_iff {x : Phrase.Intervals} {k : TokenKind} :
    Unprolonged (Grammar.oneOrMore Grammar.interval) Phrase.Intervals.symbols k x ↔
      beginsInterval k = false := by
  rw [Unprolonged, Grammar.begins_intervals_concat_iff (Grammar.spells_intervals.mem x),
    Bool.not_eq_true]

theorem unprolonged_agenda_iff {x : Phrase.Agenda} {k : TokenKind} :
    Unprolonged Grammar.agenda Phrase.Agenda.symbols k x ↔ beginsInterval k = false := by
  rw [Unprolonged, Grammar.begins_agenda_concat_iff (Grammar.spells_agenda.mem x),
    Bool.not_eq_true]

theorem unprolonged_agendas_iff {x : Phrase.Agendas} {k : TokenKind} :
    Unprolonged (Grammar.oneOrMore Grammar.agenda) Phrase.Agendas.symbols k x ↔
      beginsInterval k = false ∧ beginsAgenda k = false := by
  rw [Unprolonged, Grammar.begins_agendas_concat_iff (Grammar.spells_agendas.mem x), not_or,
    Bool.not_eq_true, Bool.not_eq_true]

theorem unprolonged_schedule_iff {x : Sentence} {k : TokenKind} :
    Unprolonged Grammar.schedule Sentence.symbols k x ↔ k = .endInput := by
  rw [Unprolonged, Grammar.begins_schedule_concat_iff (Grammar.spells_schedule.mem x), not_not]

def ReadsGreedily (rule : Parse α) (l : Language TokenKind) (symbols : X → List Symbol)
    (meaning : X → α) : Prop :=
  Reads rule symbols meaning (Unprolonged l symbols)

theorem readsGreedily_days :
    ReadsGreedily days Grammar.days Phrase.Days.symbols Phrase.Days.meaning := by
  intro p ds q
  simp only [reads_days p ds q, unprolonged_days_iff]

theorem readsGreedily_interval :
    ReadsGreedily interval Grammar.interval Phrase.Interval.symbols Phrase.Interval.meaning := by
  intro p i q
  simp only [reads_interval p i q, unprolonged_interval_iff]

theorem readsGreedily_intervals :
    ReadsGreedily intervals (Grammar.oneOrMore Grammar.interval) Phrase.Intervals.symbols
      Phrase.Intervals.meaning := by
  intro p is q
  simp only [reads_intervals p is q, unprolonged_intervals_iff]
  constructor
  · rintro ⟨xs, hxs, rfl, hgreedy, ⟨x, hx, -⟩, hk⟩
    exact ⟨⟨xs, List.ne_nil_of_mem (List.mem_of_getLast? hx), hgreedy⟩, hxs, rfl, hk⟩
  · rintro ⟨⟨xs, hne, hgreedy⟩, hxs, rfl, hk⟩
    exact ⟨xs, hxs, rfl, hgreedy, ⟨_, List.getLast?_eq_getLast_of_ne_nil hne,
      endsBefore_of_beginsInterval hk⟩, hk⟩

theorem readsGreedily_agenda :
    ReadsGreedily agenda Grammar.agenda Phrase.Agenda.symbols Phrase.Agenda.meaning := by
  intro p a q
  simp only [reads_agenda p a q, unprolonged_agenda_iff]

theorem readsGreedily_agendas :
    ReadsGreedily agendas (Grammar.oneOrMore Grammar.agenda) Phrase.Agendas.symbols
      Phrase.Agendas.meaning := by
  intro p as q
  simp only [agendas_eq_ok_iff, unprolonged_agendas_iff]
  constructor
  · rintro ⟨xs, hne, hxs, rfl, hk⟩
    exact ⟨⟨xs, hne⟩, hxs, rfl, hk⟩
  · rintro ⟨⟨xs, hne⟩, hxs, rfl, hk⟩
    exact ⟨xs, hne, hxs, rfl, hk⟩

theorem readsGreedily_schedule :
    ReadsGreedily schedule Grammar.schedule Sentence.symbols Sentence.meaning := by
  intro p s q
  simp only [schedule_eq_ok_iff, unprolonged_schedule_iff]

end Prolonging

structure ReadsLongest {X α : Type} (rule : Parse α) (l : Language TokenKind)
    (symbols : X → List Symbol) (meaning : X → α) (p : Parser) : Prop where
  ok_iff : ∀ {a q}, rule p = .ok a q ↔
    ∃ ts x, p.Passes ts q ∧ List.Forall₂ Token.StandsFor ts (symbols x) ∧ meaning x = a ∧
      ts.map Token.kind ∈ l ∧ ¬ Begins l (ts.map Token.kind ++ [q.token.kind])
  refused : ∀ {spot expected got q}, rule p = .error (.unexpectedToken spot expected got) q →
    ∃ ts, p.Passes ts q ∧ spot.position = q.token.position ∧
      spot.line = Text.lineAt q.lexer.layout.endOfLine q.token.position.line q.lexer.buffer ∧
      got = q.token.kind ∧ Begins l (ts.map Token.kind) ∧
      ¬ Begins l (ts.map Token.kind ++ [q.token.kind])
  unreadable : ∀ {e q}, rule p = .error e q →
    (∃ spot expected got, e = .unexpectedToken spot expected got) ∨
      ∃ ts r, p.Passes ts r ∧ Begins l (ts.map Token.kind ++ [r.token.kind]) ∧
        r.lexer.next = .error e q.lexer ∧ q.token = r.token

section Failing

variable {X α : Type} {rule : Parse α} {l : Language TokenKind} {symbols : X → List Symbol}
  {meaning : X → α} {s s' : Stage} {p q r : Parser} {e : Error} {xs : List Symbol}

theorem ReadsGreedily.begins_concat (h : ReadsGreedily rule l symbols meaning)
    (hl : Spells l symbols) (hs : s.Enters l) (herror : rule p = .error e q)
    (hxs : Consumes p xs r) (hbegins : Begins l (xs.map Symbol.kind))
    (hrun : s.run (xs.map Symbol.kind ++ [r.token.kind]) = some s') :
    Begins l (xs.map Symbol.kind ++ [r.token.kind]) := by
  by_cases hmem : xs.map Symbol.kind ∈ l
  · by_contra hdead
    obtain ⟨x, rfl⟩ := (hl xs).1 hmem
    have hok : rule p = .ok (meaning x) r := (h _ _ _).2 ⟨x, hxs, rfl, hdead⟩
    rw [hok] at herror
    cases herror
  · exact hs.begins hbegins hmem hrun

theorem ReadsGreedily.begins (h : ReadsGreedily rule l symbols meaning) (hl : Spells l symbols)
    (hs : s.Enters l) (herror : rule p = .error e q) (hxs : Consumes p xs r)
    (hrun : s.run (xs.map Symbol.kind) = some s') : Begins l (xs.map Symbol.kind) := by
  -- Each symbol was once the current one, behind symbols that began a sentence and made the rule go on.
  induction xs using List.reverseRecOn generalizing r s' with
  | nil => exact hs.nil
  | append_singleton xs x ih =>
    obtain ⟨r', hxs', hx⟩ := consumes_append_iff.1 hxs
    rw [List.map_append, List.map_singleton, ← hx.kind_eq] at hrun ⊢
    have hrun' := hrun
    rw [Stage.run_append, Option.bind_eq_some_iff] at hrun'
    obtain ⟨s'', hs'', -⟩ := hrun'
    exact h.begins_concat hl hs herror hxs' (ih hxs' hs'') hrun

theorem ReadsGreedily.exists_failure {Post : Stage → TokenKind → Prop}
    (h : ReadsGreedily rule l symbols meaning) (hl : Spells l symbols) (hs : s.Enters l)
    (hrule : Follows (Like s) rule Post) (hp : p.Readable) (herror : rule p = .error e q) :
    ∃ ts r, p.Passes ts r ∧ Begins l (ts.map Token.kind) ∧
      ((∃ expected, e = .unexpectedToken (r.lexer.spotAt r.token.position) expected r.token.kind ∧
          q = r ∧ ¬ Begins l (ts.map Token.kind ++ [r.token.kind])) ∨
        Begins l (ts.map Token.kind ++ [r.token.kind]) ∧
          ∃ lexer, r.lexer.next = .error e lexer ∧ q = { r with lexer := lexer }) := by
  obtain ⟨s', r, ⟨xs, hxs, hrun⟩, hstuck⟩ := hrule.error hp (.refl s _) herror
  have hbegins := h.begins hl hs herror hxs hrun
  have hconcat : s.run (xs.map Symbol.kind ++ [r.token.kind]) = s'.next r.token.kind := by
    rw [Stage.run_append, hrun, Option.bind_some, Stage.run_singleton]
  obtain ⟨ts, hpasses, hts⟩ := consumes_iff.1 hxs
  refine ⟨ts, r, hpasses, ?_⟩
  rw [Token.map_kind_of_symbols hts]
  refine ⟨hbegins, ?_⟩
  cases hstuck with
  | token hdead =>
    refine .inl ⟨_, rfl, rfl, fun hmore => ?_⟩
    obtain ⟨s'', hs''⟩ := hs.run hmore
    rw [hconcat, hdead] at hs''
    cases hs''
  | character hx hs' hnext =>
    rw [← Token.kind_of_symbol? hx] at hs'
    exact .inr ⟨h.begins_concat hl hs herror hxs hbegins (hconcat.trans hs'), _, hnext, rfl⟩

theorem ReadsGreedily.longest {Post : Stage → TokenKind → Prop}
    (h : ReadsGreedily rule l symbols meaning) (hl : Spells l symbols) (hs : s.Enters l)
    (hrule : Follows (Like s) rule Post) (hp : p.Readable) :
    ReadsLongest rule l symbols meaning p where
  ok_iff {a q} := by
    rw [h p a q]
    constructor
    · rintro ⟨x, hx, rfl, hends⟩
      obtain ⟨ts, hpasses, hts⟩ := consumes_iff.1 hx
      rw [Unprolonged, ← Token.map_kind_of_symbols hts] at hends
      refine ⟨ts, x, hpasses, (Token.map_symbol?_eq_iff (hpasses.legible hp)).1 hts, rfl, ?_, hends⟩
      rw [Token.map_kind_of_symbols hts]
      exact hl.mem x
    · rintro ⟨ts, x, hpasses, hts, rfl, -, hends⟩
      rw [← Token.map_symbol?_eq_iff (hpasses.legible hp)] at hts
      rw [Token.map_kind_of_symbols hts] at hends
      exact ⟨x, consumes_iff.2 ⟨ts, hpasses, hts⟩, rfl, hends⟩
  refused {spot expected got q} herror := by
    obtain ⟨ts, r, hpasses, hbegins, ⟨_, he, rfl, hdead⟩ | ⟨-, lexer, hnext, -⟩⟩ :=
      h.exists_failure hl hs hrule hp herror
    · injection he with hspot _ hgot
      rw [hspot]
      exact ⟨ts, hpasses, rfl, rfl, hgot, hbegins, hdead⟩
    · obtain ⟨_, _, hcharacter⟩ := Lexer.exists_unexpectedCharacter hnext
      cases hcharacter
  unreadable {e q} herror := by
    obtain ⟨ts, r, hpasses, -, ⟨_, he, -, -⟩ | ⟨hlive, lexer, hnext, rfl⟩⟩ :=
      h.exists_failure hl hs hrule hp herror
    · exact .inl ⟨_, _, _, he⟩
    · exact .inr ⟨ts, r, hpasses, hlive, hnext, rfl⟩

end Failing

section Calls

variable {α : Type} {p : Parser}

inductive Call where
  | advance
  | parse
  | schedule
  | days
  | agendas
  | agenda
  | intervals
  | interval
  deriving DecidableEq, Repr

def leave (rule : Parse α) (p : Parser) : Parser :=
  match rule p with
  | .ok _ q => q
  | .error _ q => q

def Call.leave : Call → Parser → Parser
  | .advance => Parser.leave Parser.advance
  | .parse => Parser.leave Parser.parse
  | .schedule => Parser.leave Parser.schedule
  | .days => Parser.leave Parser.days
  | .agendas => Parser.leave Parser.agendas
  | .agenda => Parser.leave Parser.agenda
  | .intervals => Parser.leave Parser.intervals
  | .interval => Parser.leave Parser.interval

def afterCalls (calls : List Call) (p : Parser) : Parser :=
  calls.foldl (fun p call => call.leave p) p

theorem readable_leave {rule : Parse α} (hok : ∀ {a q}, rule p = .ok a q → q.Readable)
    (herror : ∀ {e q}, rule p = .error e q → q.Readable) : (leave rule p).Readable := by
  unfold leave
  split
  · next h => exact hok h
  · next h => exact herror h

theorem Stops.readable {s : Stage} {e : Error} {q : Parser} (h : Stops s p e q) (hp : p.Readable) :
    q.Readable := by
  obtain ⟨s', r, ⟨xs, hxs, -⟩, hstuck⟩ := h
  cases hstuck with
  | token => exact hxs.readable hp
  | character => exact hxs.readable hp

theorem Follows.readable_leave {rule : Parse α} {s : Stage} {Post : Stage → TokenKind → Prop}
    (h : Follows (Like s) rule Post) (hp : p.Readable) : (leave rule p).Readable := by
  refine Parser.readable_leave (fun hok => ?_) fun herror => ?_
  · obtain ⟨-, -, hq, -⟩ := h.ok hp (.refl s _) hok
    exact hq
  · exact (h.error hp (.refl s _) herror).readable hp

theorem readable_leave_advance (hp : p.Readable) : (leave advance p).Readable := by
  refine readable_leave readable_of_advance fun herror => ?_
  obtain ⟨l, -, rfl⟩ := advance_eq_error_iff.1 herror
  exact hp

theorem readable_leave_parse (hp : p.Readable) : (leave parse p).Readable := by
  refine readable_leave (fun hok => ?_) fun herror => ?_
  · rw [parse_eq] at hok
    obtain ⟨_, r, hr, hschedule⟩ := bind_eq_ok hok
    obtain ⟨-, -, hq, -⟩ := follows_schedule.ok (readable_of_advance hr) (.refl _ _) hschedule
    exact hq
  · rcases parse_eq_error herror with ⟨l, -, rfl⟩ | ⟨r, hr, hstops⟩
    · exact hp
    · exact hstops.readable (readable_of_advance hr)

theorem readable_call (hp : p.Readable) (call : Call) : (call.leave p).Readable := by
  cases call with
  | advance => exact readable_leave_advance hp
  | parse => exact readable_leave_parse hp
  | schedule => exact follows_schedule.readable_leave hp
  | days => exact follows_days.readable_leave hp
  | agendas => exact follows_agendas.readable_leave hp
  | agenda => exact follows_agenda.readable_leave hp
  | intervals => exact follows_intervals.readable_leave hp
  | interval => exact follows_interval.readable_leave hp

theorem readable_afterCalls (hp : p.Readable) (calls : List Call) : (afterCalls calls p).Readable := by
  induction calls generalizing p with
  | nil => exact hp
  | cons call calls ih => exact ih (readable_call hp call)

theorem readable_ofLexer (l : Lexer) : (ofLexer l).Readable :=
  fun h => absurd rfl h

theorem longest_days (hp : p.Readable) :
    ReadsLongest days Grammar.days Phrase.Days.symbols Phrase.Days.meaning p :=
  readsGreedily_days.longest Grammar.spells_days Stage.enters_days follows_days hp

theorem longest_interval (hp : p.Readable) :
    ReadsLongest interval Grammar.interval Phrase.Interval.symbols Phrase.Interval.meaning p :=
  readsGreedily_interval.longest Grammar.spells_interval Stage.enters_interval follows_interval hp

theorem longest_intervals (hp : p.Readable) :
    ReadsLongest intervals (Grammar.oneOrMore Grammar.interval) Phrase.Intervals.symbols
      Phrase.Intervals.meaning p :=
  readsGreedily_intervals.longest Grammar.spells_intervals Stage.enters_intervals follows_intervals hp

theorem longest_agenda (hp : p.Readable) :
    ReadsLongest agenda Grammar.agenda Phrase.Agenda.symbols Phrase.Agenda.meaning p :=
  readsGreedily_agenda.longest Grammar.spells_agenda Stage.enters_agenda follows_agenda hp

theorem longest_agendas (hp : p.Readable) :
    ReadsLongest agendas (Grammar.oneOrMore Grammar.agenda) Phrase.Agendas.symbols
      Phrase.Agendas.meaning p :=
  readsGreedily_agendas.longest Grammar.spells_agendas Stage.enters_agendas follows_agendas hp

theorem longest_schedule (hp : p.Readable) :
    ReadsLongest schedule Grammar.schedule Sentence.symbols Sentence.meaning p :=
  readsGreedily_schedule.longest Grammar.spells_schedule Stage.enters_schedule follows_schedule hp

theorem notMem_time_dash_iff {k : TokenKind} : k ∉ [.time, .dash] ↔ beginsInterval k = false := by
  cases k <;> decide

theorem kind_after_intervals {q : Parser} {is : List Interval} (h : intervals p = .ok is q) :
    q.token.kind ∉ [.time, .dash] := by
  obtain ⟨x, -, -, hends⟩ := (readsGreedily_intervals p is q).1 h
  exact notMem_time_dash_iff.2 (unprolonged_intervals_iff.1 hends)

theorem kind_after_agenda {q : Parser} {a : Agenda} (h : agenda p = .ok a q) :
    q.token.kind ∉ [.time, .dash] := by
  obtain ⟨x, -, -, hends⟩ := (readsGreedily_agenda p a q).1 h
  exact notMem_time_dash_iff.2 (unprolonged_agenda_iff.1 hends)

theorem kind_after_agendas {q : Parser} {as : List Agenda} (h : agendas p = .ok as q) :
    q.token.kind ∉ [.time, .dash, .allow, .forbid] := by
  obtain ⟨x, -, -, hends⟩ := (readsGreedily_agendas p as q).1 h
  obtain ⟨hinterval, hagenda⟩ := unprolonged_agendas_iff.1 hends
  cases hk : q.token.kind <;> simp_all [beginsInterval, beginsAgenda]

theorem kind_after_schedule {q : Parser} {s : Schedule} (h : schedule p = .ok s q) :
    q.token.kind = .endInput := by
  obtain ⟨x, -, -, hend⟩ := schedule_eq_ok_iff.1 h
  exact hend

theorem rules_read_longest (l : Lexer) (calls : List Call) :
    let p := afterCalls calls (.ofLexer l)
    ReadsLongest days Grammar.days Phrase.Days.symbols Phrase.Days.meaning p ∧
    ReadsLongest interval Grammar.interval Phrase.Interval.symbols Phrase.Interval.meaning p ∧
    ReadsLongest intervals (Grammar.oneOrMore Grammar.interval) Phrase.Intervals.symbols
      Phrase.Intervals.meaning p ∧
    ReadsLongest agenda Grammar.agenda Phrase.Agenda.symbols Phrase.Agenda.meaning p ∧
    ReadsLongest agendas (Grammar.oneOrMore Grammar.agenda) Phrase.Agendas.symbols
      Phrase.Agendas.meaning p ∧
    ReadsLongest schedule Grammar.schedule Sentence.symbols Sentence.meaning p ∧
    (∀ is q, intervals p = .ok is q → q.token.kind ∉ [.time, .dash]) ∧
    (∀ a q, agenda p = .ok a q → q.token.kind ∉ [.time, .dash]) ∧
    (∀ as q, agendas p = .ok as q → q.token.kind ∉ [.time, .dash, .allow, .forbid]) ∧
    ∀ s q, schedule p = .ok s q → q.token.kind = .endInput := by
  intro p
  have hp : p.Readable := readable_afterCalls (readable_ofLexer l) calls
  exact ⟨longest_days hp, longest_interval hp, longest_intervals hp, longest_agenda hp,
    longest_agendas hp, longest_schedule hp, fun _ _ => kind_after_intervals,
    fun _ _ => kind_after_agenda, fun _ _ => kind_after_agendas, fun _ _ => kind_after_schedule⟩

theorem run'_eq_some_iff {rule : Parse α} {a : α} : rule.run' p = some a ↔ ∃ q, rule p = .ok a q := by
  unfold EStateM.run' EStateM.run
  cases rule p <;> simp

theorem rules_read_longest_after_failures :
    let p := afterCalls [.days, .advance, .days] (.ofLexer (.ofString "allow 0101-0202-0303 mon" {}))
    (∃ q ts, agenda p = .ok ⟨[⟨{ hour := 1, minute := 1 }, { hour := 2, minute := 2 }⟩,
        ⟨{ hour := 0, minute := 0 }, { hour := 3, minute := 3 }⟩], .allow⟩ q ∧
      p.Passes ts q ∧ ts.map Token.kind ∈ Grammar.agenda ∧ q.token.kind ∉ [.time, .dash]) ∧
    ∃ e q ts, days p = .error e q ∧ p.Passes ts q ∧
      ¬ Begins Grammar.days (ts.map Token.kind ++ [q.token.kind]) := by
  intro p
  obtain ⟨hdays, -, -, hagenda, -, -, -, hkind, -⟩ := rules_read_longest
    (.ofString "allow 0101-0202-0303 mon" {}) [.days, .advance, .days]
  have hgiven : agenda.run' p = some ⟨[⟨{ hour := 1, minute := 1 }, { hour := 2, minute := 2 }⟩,
      ⟨{ hour := 0, minute := 0 }, { hour := 3, minute := 3 }⟩], .allow⟩ := by decide +kernel
  have hother : p.token.kind ≠ .dayOfWeek := by decide +kernel
  constructor
  · obtain ⟨q, hq⟩ := run'_eq_some_iff.1 hgiven
    obtain ⟨ts, -, hpasses, -, -, hmem, -⟩ := hagenda.ok_iff.1 hq
    exact ⟨q, ts, hq, hpasses, hmem, hkind _ _ hq⟩
  · have herror := days_eq_error hother
    obtain ⟨ts, hpasses, -, -, -, -, hdead⟩ := hdays.refused herror
    exact ⟨_, p, ts, herror, hpasses, hdead⟩

end Calls

end Parser

end Timetable
