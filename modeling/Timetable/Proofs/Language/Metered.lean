import Timetable.Proofs.Language.LongestSentence

namespace Timetable

namespace Weekday

def walkTo (day last : Weekday) (steps : Nat) : Option (List Weekday) :=
  if day = last then some [day]
  else match steps with
    | 0 => none
    | steps + 1 => ((ofIndex (day.index + 1)).walkTo last steps).map (day :: ·)

theorem daysUntil_eq_succ {day last : Weekday} (h : day ≠ last) :
    day.daysUntil last = (ofIndex (day.index + 1)).daysUntil last + 1 := by
  revert h
  cases day <;> cases last <;> decide

theorem through_self (day : Weekday) : day.through day = [day] := by
  cases day <;> rfl

theorem through_eq_cons {day last : Weekday} (h : day ≠ last) :
    day.through last = day :: (ofIndex (day.index + 1)).through last := by
  revert h
  cases day <;> cases last <;> decide

theorem walkTo_self (day : Weekday) (steps : Nat) : day.walkTo day steps = some [day] := by
  rw [walkTo.eq_def, if_pos rfl]

theorem walkTo_eq_some {day last : Weekday} {steps : Nat} (h : day.daysUntil last ≤ steps) :
    day.walkTo last steps = some (day.through last) := by
  induction steps generalizing day with
  | zero =>
    obtain rfl : day = last := by
      by_contra hday
      rw [daysUntil_eq_succ hday] at h
      omega
    rw [walkTo_self, through_self]
  | succ steps ih =>
    by_cases hday : day = last
    · rw [hday, walkTo_self, through_self]
    · rw [daysUntil_eq_succ hday] at h
      rw [walkTo, if_neg hday, ih (Nat.le_of_succ_le_succ h), through_eq_cons hday, Option.map_some]

theorem walkTo_six (first last : Weekday) : first.walkTo last 6 = some (first.through last) :=
  walkTo_eq_some (Nat.le_of_lt_succ (first.daysUntil_lt last))

end Weekday

structure Meter where
  parser : Parser
  advances : Nat
  deriving DecidableEq, Repr

inductive Halt where
  | error (e : Error)
  | overrun
  deriving DecidableEq, Repr

abbrev Metered := EStateM Halt Meter

namespace Metered

section Steps

variable {α : Type}

def advance : Metered Unit := fun m =>
  match Parser.advance m.parser with
  | .ok () q => .ok () ⟨q, m.advances + 1⟩
  | .error e q => .error (.error e) { m with parser := q }

def onKind (rule : TokenKind → Metered α) : Metered α := fun m =>
  rule m.parser.token.kind m

def unexpected (expected : List TokenKind) : Metered α := fun m =>
  .error (.error (.unexpectedToken (m.parser.lexer.spotAt m.parser.token.position) expected
    m.parser.token.kind)) m

def overrun : Metered α := fun m =>
  .error .overrun m

def take (a : α) : Metered α := do
  advance
  return a

def whileBegins (begins : TokenKind → Bool) (item : Metered α) : Nat → Metered (List α)
  | 0 => onKind fun k => if begins k then overrun else return []
  | rounds + 1 => onKind fun k =>
    if begins k then do
      let a ← item
      let as ← whileBegins begins item rounds
      return a :: as
    else
      return []

def oneOrMore (begins : TokenKind → Bool) (item : Metered α) (rounds : Nat) :
    Metered (List α) := do
  let a ← item
  let as ← whileBegins begins item rounds
  return a :: as

end Steps

def dayOfWeek : Metered Weekday := fun m =>
  match if m.parser.token.kind = .dayOfWeek then Weekday.ofName? m.parser.token.lexeme else none with
  | some day => take day m
  | none => unexpected [.dayOfWeek] m

def time : Metered TimeOfDay := fun m =>
  if m.parser.token.kind = .time then
    match TimeOfDay.ofChars m.parser.token.lexeme with
    | .ok t => take t m
    | .error e => .error (.error e) m
  else
    unexpected [.time] m

def days : Metered (List Weekday) := do
  let first ← dayOfWeek
  onKind fun
    | .dash => do
      advance
      let last ← dayOfWeek
      match first.walkTo last 6 with
      | some days => return days
      | none => overrun
    | _ => return [first]

def interval : Metered Interval :=
  onKind fun
    | .time => do
      let first ← time
      onKind fun
        | .dash => do
          advance
          let last ← time
          return ⟨first, last⟩
        | _ => return ⟨first, .endOfDay⟩
    | .dash => do
      advance
      let last ← time
      return ⟨.startOfDay, last⟩
    | _ => unexpected [.time, .dash]

def intervals (rounds : Nat) : Metered (List Interval) :=
  oneOrMore Parser.beginsInterval interval rounds

def agendaOf (rounds : Nat) (directive : Directive) : Metered Agenda := do
  advance
  let intervals ← intervals rounds
  return ⟨intervals, directive⟩

def agenda (rounds : Nat) : Metered Agenda :=
  onKind fun
    | .allow => agendaOf rounds .allow
    | .forbid => agendaOf rounds .forbid
    | _ => unexpected [.allow, .forbid]

def agendas (rounds : Nat) : Metered (List Agenda) :=
  oneOrMore Parser.beginsAgenda (agenda rounds) rounds

def group (rounds : Nat) : Metered (List Weekday × List Agenda) := do
  let days ← days
  let agendas ← agendas rounds
  return (days, agendas)

def schedule (rounds : Nat) : Metered Schedule := do
  let groups ← oneOrMore Parser.beginsGroup (group rounds) rounds
  return groups.foldl (fun s g => s.addAgendas g.1 g.2) (.empty .utc)

def parse (rounds : Nat) : Metered Schedule := do
  advance
  let schedule ← schedule rounds
  onKind fun
    | .endInput => return schedule
    | _ => unexpected [.endInput]

end Metered

namespace Parser

section Passing

variable {p q r : Parser} {ts us : List Token}

theorem Passes.append (h : p.Passes ts r) (h' : r.Passes us q) : p.Passes (ts ++ us) q := by
  induction ts generalizing p with
  | nil =>
    obtain rfl := passes_nil_iff.1 h
    exact h'
  | cons t ts ih =>
    obtain ⟨ht, r', hr', hts⟩ := passes_cons_iff.1 h
    exact passes_cons_iff.2 ⟨ht, r', hr', ih hts⟩

theorem Passes.length_add_size_le (h : p.Passes ts q) (hts : ∀ t ∈ ts, t.kind ≠ .endInput) :
    ts.length + q.size ≤ p.size := by
  induction ts generalizing p with
  | nil =>
    obtain rfl := passes_nil_iff.1 h
    simp
  | cons t ts ih =>
    obtain ⟨rfl, r, hr, hrest⟩ := passes_cons_iff.1 h
    obtain ⟨ht, hts⟩ := List.forall_mem_cons.1 hts
    have hstep := size_advance_lt hr ht
    have hmore := ih hrest hts
    simp only [List.length_cons]
    omega

end Passing

end Parser

namespace Metered

variable {α β : Type}

def outcomeAt (n : Nat) : EStateM.Result Error Parser α → EStateM.Result Halt Meter α
  | .ok a q => .ok a ⟨q, n⟩
  | .error e q => .error (.error e) ⟨q, n⟩

def LeavesAt (r : Parser) : EStateM.Result Error Parser α → Prop
  | .ok _ q => q = r
  | .error e q => q = r ∨ ∃ l, r.lexer.next = .error e l ∧ q = { r with lexer := l }

def Counts (metered : Metered α) (rule : Parse α) (p : Parser) : Prop :=
  ∃ ts r, p.Passes ts r ∧ (∀ t ∈ ts, t.kind ≠ .endInput) ∧ LeavesAt r (rule p) ∧
    ∀ n, metered ⟨p, n⟩ = outcomeAt (n + ts.length) (rule p)

section Composition

variable {metered : Metered α} {rule : Parse α} {next : α → Metered β} {next' : α → Parse β}
  {p : Parser}

theorem Counts.of_still (hrule : LeavesAt p (rule p))
    (hmetered : ∀ n, metered ⟨p, n⟩ = outcomeAt n (rule p)) : Counts metered rule p :=
  ⟨[], p, Parser.passes_nil_iff.2 rfl, by simp, hrule, hmetered⟩

theorem Counts.congr {metered' : Metered α} {rule' : Parse α} (h : Counts metered rule p)
    (hmetered : ∀ n, metered' ⟨p, n⟩ = metered ⟨p, n⟩) (hrule : rule' p = rule p) :
    Counts metered' rule' p := by
  rw [Counts, hrule]
  simp only [hmetered]
  exact h

theorem Counts.pure (a : α) : Counts (pure a) (pure a) p :=
  .of_still rfl fun _ => rfl

theorem counts_unexpected (expected : List TokenKind) :
    Counts (unexpected expected : Metered α) (Parser.unexpected expected) p :=
  .of_still (.inl rfl) fun _ => rfl

theorem counts_advance (hp : p.token.kind ≠ .endInput) : Counts advance Parser.advance p := by
  cases h : Parser.advance p with
  | ok u q =>
    refine ⟨[p.token], q, Parser.passes_cons_iff.2 ⟨rfl, q, h, Parser.passes_nil_iff.2 rfl⟩, ?_, ?_,
      fun n => ?_⟩
    · simpa using hp
    · rw [h]
      rfl
    · rw [advance, h]
      rfl
  | error e q =>
    refine .of_still ?_ fun n => ?_
    · rw [h]
      exact .inr (Parser.advance_eq_error_iff.1 h)
    · rw [advance, h]
      rfl

theorem Counts.bind (h : Counts metered rule p)
    (hnext : ∀ a q, rule p = .ok a q → q.size ≤ p.size → Counts (next a) (next' a) q) :
    Counts (metered >>= next) (rule >>= next') p := by
  obtain ⟨ts, r, hpasses, hts, hleaves, hmetered⟩ := h
  cases hrule : rule p with
  | ok a q =>
    rw [hrule] at hleaves hmetered
    obtain rfl : q = r := hleaves
    have hsize := hpasses.length_add_size_le hts
    obtain ⟨us, r', hpasses', hus, hleaves', hmetered'⟩ := hnext a q hrule (by omega)
    rw [Counts, Parser.bind_of_ok hrule]
    refine ⟨ts ++ us, r', hpasses.append hpasses', List.forall_mem_append.2 ⟨hts, hus⟩, hleaves',
      fun n => ?_⟩
    calc (metered >>= next) ⟨p, n⟩
        = next a ⟨q, n + ts.length⟩ := Parser.bind_of_ok (hmetered n)
      _ = outcomeAt (n + ts.length + us.length) (next' a q) := hmetered' _
      _ = outcomeAt (n + (ts ++ us).length) (next' a q) := by rw [List.length_append, Nat.add_assoc]
  | error e q =>
    rw [hrule] at hleaves hmetered
    rw [Counts, Parser.bind_eq_error hrule]
    exact ⟨ts, r, hpasses, hts, hleaves, fun n => Parser.bind_eq_error (hmetered n)⟩

theorem Counts.onKind {rule : TokenKind → Parse α} {metered : TokenKind → Metered α}
    (h : Counts (metered p.token.kind) (rule p.token.kind) p) :
    Counts (onKind metered) (Parser.onKind rule) p :=
  h

theorem counts_take (a : α) (hp : p.token.kind ≠ .endInput) :
    Counts (take a) (Parser.take a) p :=
  (counts_advance hp).bind fun _ _ _ _ => .pure a

end Composition

section Repetition

variable {begins : TokenKind → Bool} {metered : Metered α} {item : Parse α} {rounds : Nat}

theorem oneOrMore_eq_bind (h : Parser.Shrinks item) :
    Parser.oneOrMore begins item h = (do
      let a ← item
      let as ← Parser.onKind fun k =>
        if begins k then Parser.oneOrMore begins item h else pure []
      return a :: as) := by
  funext p
  change _ = EStateM.bind item _ p
  rw [Parser.oneOrMore, EStateM.bind]
  split
  · next a q hitem =>
    rw [hitem]
    change _ = EStateM.bind _ _ q
    rw [EStateM.bind, Parser.onKind]
    by_cases hb : begins q.token.kind = true
    · simp only [hb, if_true]
      cases Parser.oneOrMore begins item h q <;> rfl
    · simp only [hb]
      rfl
  · next e q hitem => rw [hitem]

theorem counts_whileBegins (hend : begins .endInput = false) (h : Parser.Shrinks item)
    (hitem : ∀ p, p.size ≤ rounds → Counts metered item p) {n : Nat} (hn : n ≤ rounds) {p : Parser}
    (hp : p.size ≤ n) :
    Counts (whileBegins begins metered n)
      (Parser.onKind fun k => if begins k then Parser.oneOrMore begins item h else pure []) p := by
  -- A round leaves less to read, and where nothing is left no item begins, so that the rounds do not
  -- run out first.
  induction n generalizing p with
  | zero =>
    have hkind : p.token.kind = .endInput := by
      by_contra hkind
      simp [Parser.size, hkind] at hp
    refine Counts.onKind ?_
    rw [hkind, hend]
    exact .pure []
  | succ n ih =>
    refine Counts.onKind ?_
    by_cases hb : begins p.token.kind = true
    · rw [if_pos hb, if_pos hb, oneOrMore_eq_bind]
      refine (hitem p (by omega)).bind fun a q hq _ => ?_
      have hsize := h _ _ _ hq
      exact (ih (by omega) (by omega)).bind fun as _ _ _ => .pure _
    · rw [if_neg hb, if_neg hb]
      exact .pure []

theorem counts_oneOrMore (hend : begins .endInput = false) (h : Parser.Shrinks item)
    (hitem : ∀ p, p.size ≤ rounds → Counts metered item p) {p : Parser} (hp : p.size ≤ rounds) :
    Counts (oneOrMore begins metered rounds) (Parser.oneOrMore begins item h) p := by
  rw [oneOrMore_eq_bind]
  refine (hitem p hp).bind fun a q _ hq => ?_
  exact (counts_whileBegins hend h hitem (Nat.le_refl _) (by omega)).bind fun as _ _ _ => .pure _

end Repetition

section Rules

variable {p : Parser} {rounds : Nat}

theorem counts_dayOfWeek : Counts dayOfWeek Parser.dayOfWeek p := by
  cases h : if p.token.kind = .dayOfWeek then Weekday.ofName? p.token.lexeme else none with
  | some day =>
    have hkind : p.token.kind ≠ .endInput := by
      intro hkind
      simp [hkind] at h
    exact (counts_take day hkind).congr (fun n => by simp only [dayOfWeek, h])
      (by simp only [Parser.dayOfWeek, h])
  | none =>
    exact (counts_unexpected [.dayOfWeek]).congr (fun n => by simp only [dayOfWeek, h])
      (by simp only [Parser.dayOfWeek, h])

theorem counts_time : Counts time Parser.time p := by
  by_cases hkind : p.token.kind = .time
  · cases h : TimeOfDay.ofChars p.token.lexeme with
    | ok t =>
      exact (counts_take t (by simp [hkind])).congr
        (fun n => by simp only [time, hkind, if_true, h])
        (by simp only [Parser.time, hkind, if_true, h])
    | error e =>
      refine .of_still ?_ fun n => ?_
      · simp only [Parser.time, hkind, if_true, h]
        exact .inl rfl
      · simp only [time, Parser.time, hkind, if_true, h]
        rfl
  · exact (counts_unexpected [.time]).congr (fun n => by simp only [time, hkind, if_false])
      (by simp only [Parser.time, hkind, if_false])

theorem counts_walkTo (first last : Weekday) :
    Counts (match first.walkTo last 6 with
      | some days => return days
      | none => overrun) (pure (first.through last)) p := by
  rw [Weekday.walkTo_six]
  exact .pure _

theorem counts_days : Counts days Parser.days p := by
  refine counts_dayOfWeek.bind fun first q _ _ => Counts.onKind ?_
  cases hkind : q.token.kind with
  | dash =>
    refine (counts_advance (by simp [hkind])).bind fun _ r _ _ => ?_
    exact counts_dayOfWeek.bind fun last _ _ _ => counts_walkTo first last
  | _ => exact .pure _

theorem counts_afterDash (hp : p.token.kind = .dash) (f : TimeOfDay → Interval) :
    Counts (do advance; let last ← time; return f last)
      (do Parser.advance; let last ← Parser.time; return f last) p := by
  refine (counts_advance (by simp [hp])).bind fun _ q _ _ => ?_
  exact counts_time.bind fun last _ _ _ => .pure _

theorem counts_interval : Counts interval Parser.interval p := by
  refine Counts.onKind ?_
  cases hkind : p.token.kind with
  | time =>
    refine counts_time.bind fun first q _ _ => Counts.onKind ?_
    cases hkind : q.token.kind with
    | dash => exact counts_afterDash hkind fun last => ⟨first, last⟩
    | _ => exact .pure _
  | dash => exact counts_afterDash hkind fun last => ⟨.startOfDay, last⟩
  | _ => exact counts_unexpected _

theorem counts_intervals (hp : p.size ≤ rounds) : Counts (intervals rounds) Parser.intervals p :=
  counts_oneOrMore rfl Parser.shrinks_interval (fun _ _ => counts_interval) hp

theorem counts_agendaOf {d : Directive} (hkind : p.token.kind ≠ .endInput) (hp : p.size ≤ rounds) :
    Counts (agendaOf rounds d) (Parser.agenda.agendaOf d) p := by
  refine (counts_advance hkind).bind fun _ q _ hq => ?_
  exact (counts_intervals (by omega)).bind fun is _ _ _ => .pure _

theorem counts_agenda (hp : p.size ≤ rounds) : Counts (agenda rounds) Parser.agenda p := by
  refine Counts.onKind ?_
  cases hkind : p.token.kind with
  | allow => exact counts_agendaOf (by simp [hkind]) hp
  | forbid => exact counts_agendaOf (by simp [hkind]) hp
  | _ => exact counts_unexpected _

theorem counts_agendas (hp : p.size ≤ rounds) : Counts (agendas rounds) Parser.agendas p :=
  counts_oneOrMore rfl Parser.shrinks_agenda (fun _ => counts_agenda) hp

theorem counts_group (hp : p.size ≤ rounds) : Counts (group rounds) Parser.group p := by
  refine counts_days.bind fun days q _ hq => ?_
  exact (counts_agendas (by omega)).bind fun agendas _ _ _ => .pure _

theorem counts_schedule (hp : p.size ≤ rounds) : Counts (schedule rounds) Parser.schedule p := by
  refine Counts.bind ?_ fun groups _ _ _ => .pure _
  exact counts_oneOrMore rfl Parser.shrinks_group (fun _ => counts_group) hp

end Rules

end Metered

end Timetable
