import Timetable.Language.Grammar
import Timetable.Proofs.Language.Phrase

namespace Timetable.Parser

def Consumes : Parser → List Symbol → Parser → Prop
  | p, [], q => p = q
  | p, x :: xs, q => p.token.symbol? = some x ∧ ∃ r, advance p = .ok () r ∧ Consumes r xs q

theorem consumes_append_iff {p q : Parser} {xs ys : List Symbol} :
    Consumes p (xs ++ ys) q ↔ ∃ r, Consumes p xs r ∧ Consumes r ys q := by
  induction xs generalizing p with
  | nil => simp [Consumes]
  | cons x xs ih =>
    simp only [List.cons_append, Consumes, ih]
    constructor
    · rintro ⟨hx, r, hr, r', hxs, hys⟩
      exact ⟨r', ⟨hx, r, hr, hxs⟩, hys⟩
    · rintro ⟨r', ⟨hx, r, hr, hxs⟩, hys⟩
      exact ⟨hx, r, hr, r', hxs, hys⟩

theorem Consumes.preserves {P : Parser → Prop} {p q : Parser} {xs : List Symbol}
    (h : Consumes p xs q) (hadvance : ∀ {p q}, P p → advance p = .ok () q → P q) (hp : P p) :
    P q := by
  induction xs generalizing p with
  | nil =>
    cases h
    exact hp
  | cons x xs ih =>
    obtain ⟨-, r, hr, hxs⟩ := h
    exact ih hxs (hadvance hp hr)

theorem Consumes.kind_eq {p q : Parser} {x : Symbol} {xs : List Symbol}
    (h : Consumes p (x :: xs) q) : p.token.kind = x.kind :=
  Token.kind_of_symbol? h.1

theorem Consumes.kind_eq_firstKind {p q : Parser} {i : Phrase.Interval}
    (h : Consumes p i.symbols q) : p.token.kind = i.firstKind := by
  cases i <;> exact h.kind_eq

section Bind

variable {ε σ α β : Type} {first : EStateM ε σ α} {next : α → EStateM ε σ β} {s s' : σ}

theorem bind_of_ok {a : α} (h : first s = .ok a s') : (first >>= next) s = next a s' := by
  change EStateM.bind first next s = _
  rw [EStateM.bind, h]

theorem bind_eq_error {e : ε} (h : first s = .error e s') : (first >>= next) s = .error e s' := by
  change EStateM.bind first next s = _
  rw [EStateM.bind, h]

end Bind

theorem bind_eq_ok_iff {α β : Type} {rule : Parse α} {next : α → Parse β} {p q : Parser} {b : β} :
    (rule >>= next) p = .ok b q ↔ ∃ a r, rule p = .ok a r ∧ next a r = .ok b q := by
  constructor
  · exact bind_eq_ok
  · rintro ⟨a, r, h, h'⟩
    rwa [bind_of_ok h]

theorem pure_eq_ok_iff {α : Type} {a b : α} {p q : Parser} :
    (pure a : Parse α) p = .ok b q ↔ a = b ∧ p = q := by
  constructor
  · intro h
    cases h
    exact ⟨rfl, rfl⟩
  · rintro ⟨rfl, rfl⟩
    rfl

theorem unexpected_ne_ok {α : Type} {expected : List TokenKind} {a : α} {p q : Parser} :
    ¬ (unexpected expected : Parse α) p = .ok a q := by
  intro h
  cases h

theorem advance_eq_ok_iff {p q : Parser} {u : Unit} :
    advance p = .ok u q ↔ p.lexer.next = .ok q.token q.lexer := by
  unfold advance
  cases p.lexer.next with
  | ok t l =>
    obtain ⟨lexer, token⟩ := q
    simp [and_comm]
  | error e l => simp

theorem advance_eq_error_iff {p q : Parser} {e : Error} :
    advance p = .error e q ↔ ∃ l, p.lexer.next = .error e l ∧ q = { p with lexer := l } := by
  unfold advance
  cases p.lexer.next <;> simp [eq_comm]

theorem take_eq_ok_iff {α : Type} {a b : α} {p q : Parser} :
    take a p = .ok b q ↔ a = b ∧ advance p = .ok () q := by
  rw [take, bind_eq_ok_iff]
  constructor
  · rintro ⟨_, r, hr, h⟩
    obtain ⟨hab, rfl⟩ := pure_eq_ok_iff.1 h
    exact ⟨hab, hr⟩
  · rintro ⟨hab, hq⟩
    exact ⟨(), q, hq, pure_eq_ok_iff.2 ⟨hab, rfl⟩⟩

theorem dayOfWeek_eq_ok_iff {p q : Parser} {d : Weekday} :
    dayOfWeek p = .ok d q ↔ Consumes p [.day d] q := by
  simp only [Consumes, Token.symbol?_eq_day_iff, exists_eq_right]
  unfold dayOfWeek
  by_cases hk : p.token.kind = .dayOfWeek
  · rw [if_pos hk]
    cases Weekday.ofName? p.token.lexeme with
    | none => simp [unexpected_ne_ok]
    | some e => simp [take_eq_ok_iff, hk]
  · rw [if_neg hk]
    simp [unexpected_ne_ok, hk]

theorem time_eq_ok_iff {p q : Parser} {t : TimeOfDay} :
    time p = .ok t q ↔ Consumes p [.time t] q := by
  simp only [Consumes, Token.symbol?_eq_time_iff, exists_eq_right]
  unfold time
  by_cases hk : p.token.kind = .time
  · rw [if_pos hk, TimeOfDay.ofChars]
    cases TimeOfDay.ofDigits? p.token.lexeme with
    | none => simp
    | some e => simp [take_eq_ok_iff, hk]
  · rw [if_neg hk]
    simp [unexpected_ne_ok, hk]

def Reads {α X : Type} (rule : Parse α) (symbols : X → List Symbol) (meaning : X → α)
    (EndsBefore : TokenKind → X → Prop) : Prop :=
  ∀ p a q, rule p = .ok a q ↔
    ∃ x, Consumes p (symbols x) q ∧ meaning x = a ∧ EndsBefore q.token.kind x

section AfterDash

variable {α β : Type} {rule : Parse α} {symbol : α → Symbol} {f : α → β} {p q : Parser} {b : β}

theorem afterDash_eq_ok_iff (hrule : ∀ {p a q}, rule p = .ok a q ↔ Consumes p [symbol a] q)
    (hp : p.token.kind = .dash) :
    (do advance; let last ← rule; return f last : Parse β) p = .ok b q ↔
      ∃ last, Consumes p [.dash, symbol last] q ∧ f last = b := by
  constructor
  · intro h
    obtain ⟨_, r, hr, h⟩ := bind_eq_ok h
    obtain ⟨last, _, hlast, h⟩ := bind_eq_ok h
    obtain ⟨hb, rfl⟩ := pure_eq_ok_iff.1 h
    exact ⟨last, ⟨Token.symbol?_eq_dash_iff.2 hp, r, hr, hrule.1 hlast⟩, hb⟩
  · rintro ⟨last, ⟨-, r, hr, hlast⟩, hb⟩
    exact bind_eq_ok_iff.2 ⟨(), r, hr, bind_eq_ok_iff.2 ⟨last, q, hrule.2 hlast,
      pure_eq_ok_iff.2 ⟨hb, rfl⟩⟩⟩

theorem onDash_eq_ok_iff (hrule : ∀ {p a q}, rule p = .ok a q ↔ Consumes p [symbol a] q) {c : β} :
    (onKind fun
      | .dash => do
        advance
        let last ← rule
        return f last
      | _ => return c : Parse β) p = .ok b q ↔
      (∃ last, Consumes p [.dash, symbol last] q ∧ f last = b) ∨
        p.token.kind ≠ .dash ∧ c = b ∧ p = q := by
  rw [onKind]
  cases hp : p.token.kind with
  | dash =>
    rw [afterDash_eq_ok_iff hrule hp]
    simp
  | _ =>
    have hnot (last : α) : ¬ Consumes p [.dash, symbol last] q := by
      intro h
      rw [h.kind_eq] at hp
      cases hp
    simp [hnot, pure_eq_ok_iff]

end AfterDash

theorem reads_days : Reads days Phrase.Days.symbols Phrase.Days.meaning Phrase.Days.EndsBefore := by
  intro p ds q
  rw [days, bind_eq_ok_iff]
  constructor
  · rintro ⟨first, r, hfirst, h⟩
    rw [dayOfWeek_eq_ok_iff] at hfirst
    rcases (onDash_eq_ok_iff dayOfWeek_eq_ok_iff).1 h with ⟨last, hlast, rfl⟩ | ⟨hk, rfl, rfl⟩
    · exact ⟨.range first last, consumes_append_iff.2 ⟨r, hfirst, hlast⟩,
        Phrase.Days.meaning_range first last, trivial⟩
    · exact ⟨.single first, hfirst, rfl, hk⟩
  · rintro ⟨x, hx, rfl, hends⟩
    cases x with
    | single day =>
      refine ⟨day, q, dayOfWeek_eq_ok_iff.2 hx, ?_⟩
      exact (onDash_eq_ok_iff dayOfWeek_eq_ok_iff).2 (.inr ⟨hends, rfl, rfl⟩)
    | range first last =>
      have hsplit : Consumes p ([.day first] ++ [.dash, .day last]) q := hx
      obtain ⟨r, hfirst, hlast⟩ := consumes_append_iff.1 hsplit
      refine ⟨first, r, dayOfWeek_eq_ok_iff.2 hfirst, ?_⟩
      exact (onDash_eq_ok_iff dayOfWeek_eq_ok_iff).2
        (.inl ⟨last, hlast, (Phrase.Days.meaning_range first last).symm⟩)

theorem reads_interval :
    Reads interval Phrase.Interval.symbols Phrase.Interval.meaning Phrase.Interval.EndsBefore := by
  intro p i q
  rw [interval, onKind]
  constructor
  · intro h
    cases hp : p.token.kind with
    | time =>
      rw [hp] at h
      obtain ⟨first, r, hfirst, h⟩ := bind_eq_ok h
      rw [time_eq_ok_iff] at hfirst
      rcases (onDash_eq_ok_iff time_eq_ok_iff).1 h with ⟨last, hlast, rfl⟩ | ⟨hk, rfl, rfl⟩
      · exact ⟨.span first last, consumes_append_iff.2 ⟨r, hfirst, hlast⟩, rfl, trivial⟩
      · exact ⟨.since first, hfirst, Phrase.Interval.meaning_since first, hk⟩
    | dash =>
      rw [hp] at h
      obtain ⟨last, hlast, rfl⟩ := (afterDash_eq_ok_iff time_eq_ok_iff hp).1 h
      exact ⟨.upTo last, hlast, Phrase.Interval.meaning_upTo last, trivial⟩
    | _ =>
      rw [hp] at h
      exact absurd h unexpected_ne_ok
  · rintro ⟨x, hx, rfl, hends⟩
    have hp := hx.kind_eq_firstKind
    rw [hp]
    cases x with
    | span first last =>
      have hsplit : Consumes p ([.time first] ++ [.dash, .time last]) q := hx
      obtain ⟨r, hfirst, hlast⟩ := consumes_append_iff.1 hsplit
      refine bind_eq_ok_iff.2 ⟨first, r, time_eq_ok_iff.2 hfirst, ?_⟩
      exact (onDash_eq_ok_iff time_eq_ok_iff).2 (.inl ⟨last, hlast, rfl⟩)
    | since first =>
      refine bind_eq_ok_iff.2 ⟨first, q, time_eq_ok_iff.2 hx, ?_⟩
      exact (onDash_eq_ok_iff time_eq_ok_iff).2
        (.inr ⟨hends, (Phrase.Interval.meaning_since first).symm, rfl⟩)
    | upTo last =>
      exact (afterDash_eq_ok_iff time_eq_ok_iff hp).2
        ⟨last, hx, (Phrase.Interval.meaning_upTo last).symm⟩

section Repetition

variable {α X : Type} {begins : TokenKind → Bool} {item : Parse α} {symbols : X → List Symbol}
  {meaning : X → α} {EndsBefore : TokenKind → X → Prop} {firstKind : X → TokenKind}

theorem oneOrMore_eq_ok_iff (h : Shrinks item) {p q : Parser} {as : List α} :
    oneOrMore begins item h p = .ok as q ↔
      ∃ a r, item p = .ok a r ∧ ((begins r.token.kind = false ∧ as = [a] ∧ r = q) ∨
        (begins r.token.kind = true ∧ ∃ bs, oneOrMore begins item h r = .ok bs q ∧ as = a :: bs)) := by
  rw [oneOrMore]
  split
  · next a r hitem =>
    simp only [hitem, EStateM.Result.ok.injEq, ↓existsAndEq, true_and]
    by_cases hb : begins r.token.kind = true
    · simp only [hb, if_true]
      cases oneOrMore begins item h r with
      | ok bs r' => simp [and_comm, eq_comm]
      | error e r' => simp
    · simp only [Bool.not_eq_true] at hb
      simp [hb, eq_comm]
  · next e r hitem => simp [hitem]

theorem oneOrMore_eq_error (h : Shrinks item) {p q : Parser} {e : Error}
    (hitem : item p = .error e q) : oneOrMore begins item h p = .error e q := by
  rw [oneOrMore]
  split
  · next hok =>
    rw [hitem] at hok
    cases hok
  · next herror =>
    rw [hitem] at herror
    cases herror
    rfl

def EndBefore (begins : TokenKind → Bool) (EndsBefore : TokenKind → X → Prop)
    (firstKind : X → TokenKind) (k : TokenKind) (xs : List X) : Prop :=
  (xs.IsChain fun x y => EndsBefore (firstKind y) x) ∧ (∃ x ∈ xs.getLast?, EndsBefore k x) ∧
    begins k = false

theorem Reads.oneOrMore (hitem : Reads item symbols meaning EndsBefore) (h : Shrinks item)
    (hfirst : ∀ {x p q}, Consumes p (symbols x) q → p.token.kind = firstKind x)
    (hbegins : ∀ x, begins (firstKind x) = true) :
    Reads (oneOrMore begins item h) (fun xs : List X => xs.flatMap symbols) (List.map meaning)
      (EndBefore begins EndsBefore firstKind) := by
  intro p as q
  constructor
  · induction hn : p.size using Nat.strongRecOn generalizing p as with
    | _ n ih =>
      intro hp
      obtain ⟨a, r, ha, hrest⟩ := (oneOrMore_eq_ok_iff h).1 hp
      obtain ⟨x, hx, rfl, hends⟩ := (hitem p a r).1 ha
      rcases hrest with ⟨hb, rfl, rfl⟩ | ⟨hb, bs, hbs, rfl⟩
      · exact ⟨[x], by simpa using hx, rfl, .singleton x, ⟨x, rfl, hends⟩, hb⟩
      · obtain ⟨xs, hxs, rfl, hchain, ⟨z, hz, hlast⟩, hq⟩ := ih r.size (hn ▸ h _ _ _ ha) r bs rfl hbs
        obtain _ | ⟨y, ys⟩ := xs
        · cases hz
        · obtain ⟨_, hy, -⟩ := consumes_append_iff.1 hxs
          rw [hfirst hy] at hends
          exact ⟨x :: y :: ys, consumes_append_iff.2 ⟨r, hx, hxs⟩, rfl, .cons_cons hends hchain,
            ⟨z, by simpa using hz, hlast⟩, hq⟩
  · rintro ⟨xs, hxs, rfl, hchain, ⟨z, hz, hlast⟩, hq⟩
    induction xs generalizing p with
    | nil => cases hz
    | cons x xs ih =>
      obtain ⟨r, hx, hxs⟩ := consumes_append_iff.1 hxs
      rw [oneOrMore_eq_ok_iff]
      cases xs with
      | nil =>
        cases hz
        cases hxs
        exact ⟨_, _, (hitem _ _ _).2 ⟨x, hx, rfl, hlast⟩, .inl ⟨hq, rfl, rfl⟩⟩
      | cons y ys =>
        obtain ⟨_, hy, -⟩ := consumes_append_iff.1 hxs
        cases hchain with
        | cons_cons hends hchain =>
          rw [← hfirst hy] at hends
          refine ⟨_, r, (hitem _ _ _).2 ⟨x, hx, rfl, hends⟩, .inr ⟨?_, _, ?_, rfl⟩⟩
          · rw [hfirst hy, hbegins]
          · exact ih r hxs hchain (by simpa using hz)

theorem endBefore_iff (C : TokenKind → Prop) (hC : ∀ x : X, C (firstKind x)) {k : TokenKind}
    {xs : List X} :
    EndBefore begins (fun k _ => C k) firstKind k xs ↔ xs ≠ [] ∧ C k ∧ begins k = false := by
  constructor
  · rintro ⟨-, ⟨x, hx, hk⟩, hb⟩
    exact ⟨List.ne_nil_of_mem (List.mem_of_getLast? hx), hk, hb⟩
  · rintro ⟨hne, hk, hb⟩
    refine ⟨?_, ⟨_, List.getLast?_eq_getLast_of_ne_nil hne, hk⟩, hb⟩
    exact (List.pairwise_of_forall fun _ y => hC y).isChain

end Repetition

theorem reads_intervals :
    Reads intervals (fun is : List Phrase.Interval => is.flatMap Phrase.Interval.symbols)
      (List.map Phrase.Interval.meaning)
      (EndBefore beginsInterval Phrase.Interval.EndsBefore Phrase.Interval.firstKind) := by
  refine reads_interval.oneOrMore shrinks_interval Consumes.kind_eq_firstKind ?_
  intro i
  cases i <;> rfl

theorem endsBefore_of_beginsInterval {i : Phrase.Interval} {k : TokenKind}
    (h : beginsInterval k = false) : i.EndsBefore k := by
  cases i with
  | since =>
    rintro rfl
    cases h
  | _ => trivial

theorem agendaOf_eq_ok_iff {d : Directive} {p q : Parser} {a : Agenda}
    (hp : p.token.kind = (Symbol.directive d).kind) :
    agenda.agendaOf d p = .ok a q ↔
      ∃ x : Phrase.Agenda, Consumes p x.symbols q ∧ x.meaning = a ∧ x.directive = d ∧
        beginsInterval q.token.kind = false := by
  rw [agenda.agendaOf, bind_eq_ok_iff]
  constructor
  · rintro ⟨_, r, hr, h⟩
    obtain ⟨is, _, his, h⟩ := bind_eq_ok h
    obtain ⟨rfl, rfl⟩ := pure_eq_ok_iff.1 h
    obtain ⟨is, hconsumes, rfl, hgreedy, ⟨z, hz, -⟩, hk⟩ := (reads_intervals _ _ _).1 his
    have hne : is ≠ [] := List.ne_nil_of_mem (List.mem_of_getLast? hz)
    exact ⟨⟨d, is, hne, hgreedy⟩, ⟨Token.symbol?_eq_directive_iff.2 hp, r, hr, hconsumes⟩, rfl, rfl, hk⟩
  · rintro ⟨⟨d, is, hne, hgreedy⟩, ⟨-, r, hr, his⟩, rfl, rfl, hk⟩
    refine ⟨(), r, hr, bind_eq_ok_iff.2 ⟨_, q, (reads_intervals _ _ _).2 ?_, rfl⟩⟩
    exact ⟨is, his, rfl, hgreedy, ⟨_, List.getLast?_eq_getLast_of_ne_nil hne,
      endsBefore_of_beginsInterval hk⟩, hk⟩

theorem reads_agenda :
    Reads agenda Phrase.Agenda.symbols Phrase.Agenda.meaning
      fun k _ => beginsInterval k = false := by
  intro p a q
  rw [agenda, onKind]
  constructor
  · intro h
    cases hp : p.token.kind with
    | allow =>
      rw [hp] at h
      obtain ⟨x, hx, rfl, -, hk⟩ := (agendaOf_eq_ok_iff hp).1 h
      exact ⟨x, hx, rfl, hk⟩
    | forbid =>
      rw [hp] at h
      obtain ⟨x, hx, rfl, -, hk⟩ := (agendaOf_eq_ok_iff hp).1 h
      exact ⟨x, hx, rfl, hk⟩
    | _ =>
      rw [hp] at h
      exact absurd h unexpected_ne_ok
  · rintro ⟨x, hx, rfl, hk⟩
    have hp := hx.kind_eq
    cases hd : x.directive with
    | allow =>
      rw [hd] at hp
      rw [hp]
      exact (agendaOf_eq_ok_iff hp).2 ⟨x, hx, rfl, hd, hk⟩
    | forbid =>
      rw [hd] at hp
      rw [hp]
      exact (agendaOf_eq_ok_iff hp).2 ⟨x, hx, rfl, hd, hk⟩

theorem reads_agendas :
    Reads agendas (fun as : List Phrase.Agenda => as.flatMap Phrase.Agenda.symbols)
      (List.map Phrase.Agenda.meaning)
      (EndBefore beginsAgenda (fun k _ => beginsInterval k = false)
        fun a => (Symbol.directive a.directive).kind) := by
  refine reads_agenda.oneOrMore shrinks_agenda (fun h => h.kind_eq) ?_
  intro a
  cases a.directive <;> rfl

theorem agendas_eq_ok_iff {p q : Parser} {as : List Agenda} :
    agendas p = .ok as q ↔
      ∃ xs : List Phrase.Agenda, xs ≠ [] ∧ Consumes p (xs.flatMap Phrase.Agenda.symbols) q ∧
        xs.map Phrase.Agenda.meaning = as ∧ beginsInterval q.token.kind = false ∧
        beginsAgenda q.token.kind = false := by
  have hfirst (a : Phrase.Agenda) : beginsInterval (Symbol.directive a.directive).kind = false := by
    cases a.directive <;> rfl
  rw [reads_agendas p as q]
  constructor
  · rintro ⟨xs, hxs, rfl, hends⟩
    obtain ⟨hne, hi, ha⟩ := (endBefore_iff (beginsInterval · = false) hfirst).1 hends
    exact ⟨xs, hne, hxs, rfl, hi, ha⟩
  · rintro ⟨xs, hne, hxs, rfl, hi, ha⟩
    exact ⟨xs, hxs, rfl, (endBefore_iff (beginsInterval · = false) hfirst).2 ⟨hne, hi, ha⟩⟩

def EndsGroup (k : TokenKind) : Prop :=
  beginsInterval k = false ∧ beginsAgenda k = false

theorem reads_group :
    Reads group Phrase.Group.symbols
      (fun g => (g.days.meaning, g.agendas.map Phrase.Agenda.meaning)) fun k _ => EndsGroup k := by
  intro p g q
  rw [group, bind_eq_ok_iff]
  constructor
  · rintro ⟨_, r, hdays, h⟩
    obtain ⟨as, _, has, h⟩ := bind_eq_ok h
    obtain ⟨rfl, rfl⟩ := pure_eq_ok_iff.1 h
    obtain ⟨ds, hds, rfl, -⟩ := (reads_days _ _ _).1 hdays
    obtain ⟨xs, hne, hxs, rfl, hends⟩ := agendas_eq_ok_iff.1 has
    exact ⟨⟨ds, xs, hne⟩, consumes_append_iff.2 ⟨r, hds, hxs⟩, rfl, hends⟩
  · rintro ⟨⟨ds, xs, hne⟩, hx, rfl, hends⟩
    obtain ⟨r, hds, hxs⟩ := consumes_append_iff.1 hx
    refine ⟨ds.meaning, r, (reads_days _ _ _).2 ⟨ds, hds, rfl, ?_⟩, ?_⟩
    · obtain ⟨x, xs, rfl⟩ := List.exists_cons_of_ne_nil hne
      have hr : r.token.kind = (Symbol.directive x.directive).kind := hxs.kind_eq
      cases ds with
      | single day =>
        rw [hr]
        cases x.directive <;> simp [Phrase.Days.EndsBefore, Symbol.kind]
      | range first last => trivial
    · exact bind_eq_ok_iff.2 ⟨_, q, agendas_eq_ok_iff.2 ⟨xs, hne, hxs, rfl, hends⟩, rfl⟩

theorem groups_eq_ok_iff {p q : Parser} {gs : List (List Weekday × List Agenda)} :
    oneOrMore beginsGroup group shrinks_group p = .ok gs q ↔
      ∃ xs : List Phrase.Group, xs ≠ [] ∧ Consumes p (xs.flatMap Phrase.Group.symbols) q ∧
        (xs.map fun g => (g.days.meaning, g.agendas.map Phrase.Agenda.meaning)) = gs ∧
        q.token.kind = .endInput := by
  have hkind {x : Phrase.Group} {p q : Parser} (h : Consumes p x.symbols q) :
      p.token.kind = .dayOfWeek := by
    obtain ⟨days, agendas, hne⟩ := x
    cases days <;> exact h.kind_eq
  have hbegins : ∀ _ : Phrase.Group, beginsGroup .dayOfWeek = true := fun _ => rfl
  rw [reads_group.oneOrMore shrinks_group hkind hbegins p gs q]
  constructor
  · rintro ⟨xs, hxs, rfl, hends⟩
    obtain ⟨hne, hk, hb⟩ := (endBefore_iff EndsGroup fun _ => ⟨rfl, rfl⟩).1 hends
    refine ⟨xs, hne, hxs, rfl, ?_⟩
    obtain ⟨hi, ha⟩ := hk
    cases hq : q.token.kind <;> simp_all [beginsInterval, beginsAgenda, beginsGroup]
  · rintro ⟨xs, hne, hxs, rfl, hq⟩
    refine ⟨xs, hxs, rfl, (endBefore_iff EndsGroup fun _ => ⟨rfl, rfl⟩).2 ⟨hne, ?_, ?_⟩⟩
    · rw [hq]
      exact ⟨rfl, rfl⟩
    · rw [hq]
      rfl

end Timetable.Parser
