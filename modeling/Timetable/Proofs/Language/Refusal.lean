import Timetable.Proofs.Language.Acceptance
import Timetable.Proofs.Language.Progress

namespace Timetable.Parser

open Grammar (Stage)

def Leads (s : Stage) (p : Parser) (s' : Stage) (q : Parser) : Prop :=
  ∃ xs, Consumes p xs q ∧ s.run (xs.map Symbol.kind) = some s'

namespace Leads

variable {s s' s'' : Stage} {p q r : Parser}

theorem refl (s : Stage) (p : Parser) : Leads s p s p :=
  ⟨[], rfl, rfl⟩

theorem trans (h : Leads s p s' q) (h' : Leads s' q s'' r) : Leads s p s'' r := by
  obtain ⟨xs, hxs, hs⟩ := h
  obtain ⟨ys, hys, hs'⟩ := h'
  refine ⟨xs ++ ys, consumes_append_iff.2 ⟨q, hxs, hys⟩, ?_⟩
  rw [List.map_append, Stage.run_append, hs, Option.bind_some, hs']

end Leads

inductive Stuck (s : Stage) (p : Parser) : Error → Parser → Prop
  | token (h : s.next p.token.kind = none) :
      Stuck s p (.unexpectedToken (p.lexer.spotAt p.token.position) s.expected p.token.kind) p
  | character {x : Symbol} {s' : Stage} {e : Error} {l : Lexer} (hx : p.token.symbol? = some x)
      (hs : s.next x.kind = some s') (h : p.lexer.next = .error e l) :
      Stuck s p e { p with lexer := l }

def Stops (s : Stage) (p : Parser) (e : Error) (q : Parser) : Prop :=
  ∃ s' r, Leads s p s' r ∧ Stuck s' r e q

theorem Stops.of_leads {s s' : Stage} {p q r : Parser} {e : Error} (h : Leads s p s' q)
    (h' : Stops s' q e r) : Stops s p e r := by
  obtain ⟨s'', q', hq', hstuck⟩ := h'
  exact ⟨s'', q', h.trans hq', hstuck⟩

theorem Stuck.stops {s : Stage} {p q : Parser} {e : Error} (h : Stuck s p e q) : Stops s p e q :=
  ⟨s, p, .refl s p, h⟩

def Readable (p : Parser) : Prop :=
  p.token.Legible

theorem readable_of_advance {p q : Parser} (h : advance p = .ok () q) : q.Readable :=
  Lexer.legible_of_next (advance_eq_ok_iff.1 h)

structure Follows {α : Type} (Pre : Stage → TokenKind → Prop) (rule : Parse α)
    (Post : Stage → TokenKind → Prop) : Prop where
  ok : ∀ {s p a q}, p.Readable → Pre s p.token.kind → rule p = .ok a q →
    ∃ s', Leads s p s' q ∧ q.Readable ∧ Post s' q.token.kind
  error : ∀ {s p e q}, p.Readable → Pre s p.token.kind → rule p = .error e q → Stops s p e q

namespace Follows

variable {α β : Type} {rule : Parse α} {Pre Pre' Mid Post Post' : Stage → TokenKind → Prop}

theorem weaken (h : Follows Pre rule Post) (hpre : ∀ s k, Pre' s k → Pre s k)
    (hpost : ∀ s k, Post s k → Post' s k) : Follows Pre' rule Post' where
  ok hp hs hok := by
    obtain ⟨s', hleads, hq, hs'⟩ := h.ok hp (hpre _ _ hs) hok
    exact ⟨s', hleads, hq, hpost _ _ hs'⟩
  error hp hs herror := h.error hp (hpre _ _ hs) herror

theorem pure (a : α) (h : ∀ s k, Pre s k → Post s k) : Follows Pre (pure a) Post where
  ok {s p b q} hp hs hok := by
    obtain ⟨-, rfl⟩ := pure_eq_ok_iff.1 hok
    exact ⟨s, .refl s p, hp, h _ _ hs⟩
  error _ _ herror := by cases herror

theorem bind {next : α → Parse β} (h : Follows Pre rule Mid) (h' : ∀ a, Follows Mid (next a) Post) :
    Follows Pre (rule >>= next) Post where
  ok hp hs hok := by
    obtain ⟨a, r, hr, hok⟩ := bind_eq_ok hok
    obtain ⟨s', hleads, hreadable, hs'⟩ := h.ok hp hs hr
    obtain ⟨s'', hleads', hq, hs''⟩ := (h' a).ok hreadable hs' hok
    exact ⟨s'', hleads.trans hleads', hq, hs''⟩
  error {s p e q} hp hs herror := by
    cases hr : rule p with
    | ok a r =>
      rw [bind_of_ok hr] at herror
      obtain ⟨s', hleads, hreadable, hs'⟩ := h.ok hp hs hr
      exact .of_leads hleads ((h' a).error hreadable hs' herror)
    | error e' r =>
      rw [bind_eq_error hr] at herror
      cases herror
      exact h.error hp hs hr

theorem onKind {rule : TokenKind → Parse α}
    (h : ∀ k, Follows (fun s k' => Pre s k' ∧ k' = k) (rule k) Post) :
    Follows Pre (onKind rule) Post where
  ok hp hs hok := (h _).ok hp ⟨hs, rfl⟩ hok
  error hp hs herror := (h _).error hp ⟨hs, rfl⟩ herror

theorem unexpected (expected : List TokenKind) :
    Follows (fun s k => s.next k = none ∧ s.expected = expected) (unexpected expected : Parse α)
      Post where
  ok _ _ hok := absurd hok unexpected_ne_ok
  error {s p e q} _ hs herror := by
    obtain ⟨hnext, rfl⟩ := hs
    cases herror
    exact (Stuck.token hnext).stops

theorem advance (t : Stage) :
    Follows (fun s k => k ≠ .endInput ∧ s.next k = some t) advance fun s _ => s = t where
  ok {s p a q} hp hs hok := by
    obtain ⟨x, hx⟩ := hp hs.1
    refine ⟨t, ⟨[x], ⟨hx.symbol?, q, hok, rfl⟩, ?_⟩, readable_of_advance hok, rfl⟩
    rw [List.map_singleton, Stage.run_singleton, ← hx.kind_eq, hs.2]
  error {s p e q} hp hs herror := by
    obtain ⟨x, hx⟩ := hp hs.1
    have hnext := hs.2
    rw [hx.kind_eq] at hnext
    obtain ⟨l, hl, rfl⟩ := advance_eq_error_iff.1 herror
    exact (Stuck.character hx.symbol? hnext hl).stops

theorem take (a : α) (t : Stage) :
    Follows (fun s k => k ≠ .endInput ∧ s.next k = some t) (take a) fun s _ => s = t :=
  (advance t).bind fun _ => .pure a fun _ _ h => h

theorem oneOrMore {begins : TokenKind → Bool} (h : Shrinks rule) (hitem : Follows Pre rule Post)
    (hbegins : ∀ s k, Post s k → begins k = true → Pre s k) :
    Follows Pre (oneOrMore begins rule h) fun s k => Post s k ∧ begins k = false where
  ok {s p as q} hp hs hok := by
    induction hn : p.size using Nat.strongRecOn generalizing s p as with
    | _ n ih =>
      obtain ⟨a, r, ha, hrest⟩ := (oneOrMore_eq_ok_iff h).1 hok
      obtain ⟨s', hleads, hr, hs'⟩ := hitem.ok hp hs ha
      rcases hrest with ⟨hb, -, rfl⟩ | ⟨hb, bs, hbs, -⟩
      · exact ⟨s', hleads, hr, hs', hb⟩
      · obtain ⟨s'', hleads', hq⟩ := ih r.size (hn ▸ h _ _ _ ha) hr (hbegins _ _ hs' hb) hbs rfl
        exact ⟨s'', hleads.trans hleads', hq⟩
  error {s p e q} hp hs herror := by
    induction hn : p.size using Nat.strongRecOn generalizing s p with
    | _ n ih =>
      rw [Parser.oneOrMore] at herror
      split at herror
      · next a r ha =>
        obtain ⟨s', hleads, hr, hs'⟩ := hitem.ok hp hs ha
        split at herror
        · next hb =>
          split at herror
          · cases herror
          · next e' r' hmore =>
            cases herror
            exact .of_leads hleads (ih r.size (hn ▸ h _ _ _ ha) hr (hbegins _ _ hs' hb) hmore rfl)
        · cases herror
      · next e' r ha =>
        cases herror
        exact hitem.error hp hs ha

end Follows

def Like (s₀ s : Stage) (k : TokenKind) : Prop :=
  s.next k = s₀.next k ∧ (s₀.next k = none → s.expected = s₀.expected)

theorem Like.refl (s : Stage) (k : TokenKind) : Like s s k :=
  ⟨rfl, fun _ => rfl⟩

theorem Like.dead {s₀ s : Stage} {k : TokenKind} (h : Like s₀ s k) (hk : s₀.next k = none) :
    s.next k = none ∧ s.expected = s₀.expected :=
  ⟨h.1.trans hk, h.2 hk⟩

def Takes {α : Type} (rule : Parse α) (k : TokenKind) : Prop :=
  ∀ p : Parser, p.Readable →
    p.token.kind = k ∧ (∃ a, rule p = take a p) ∨
      p.token.kind ≠ k ∧ rule p = unexpected [k] p

theorem takes_dayOfWeek : Takes dayOfWeek .dayOfWeek := by
  intro p hp
  by_cases hk : p.token.kind = .dayOfWeek
  · obtain ⟨d, hname⟩ := hp.exists_day hk
    exact .inl ⟨hk, d, by rw [dayOfWeek, if_pos hk, hname]⟩
  · exact .inr ⟨hk, by rw [dayOfWeek, if_neg hk]⟩

theorem takes_time : Takes time .time := by
  intro p hp
  by_cases hk : p.token.kind = .time
  · obtain ⟨t, hdigits⟩ := hp.exists_time hk
    exact .inl ⟨hk, t, by rw [time, if_pos hk, TimeOfDay.ofChars, hdigits]⟩
  · exact .inr ⟨hk, by rw [time, if_neg hk]⟩

theorem Takes.follows {α : Type} {rule : Parse α} {k : TokenKind} (h : Takes rule k)
    (hk : k ≠ .endInput) {s₀ t : Stage} (hnext : ∀ k', s₀.next k' = if k' = k then some t else none)
    (hexpected : s₀.expected = [k]) : Follows (Like s₀) rule fun s _ => s = t where
  ok {s p a q} hp hs hok := by
    rcases h p hp with ⟨hpk, a', hrule⟩ | ⟨hpk, hrule⟩
    · rw [hrule] at hok
      have hlive := hs.1
      rw [hnext, if_pos hpk] at hlive
      exact (Follows.take a' t).ok hp ⟨hpk ▸ hk, hlive⟩ hok
    · rw [hrule] at hok
      exact absurd hok unexpected_ne_ok
  error {s p e q} hp hs herror := by
    rcases h p hp with ⟨hpk, a', hrule⟩ | ⟨hpk, hrule⟩
    · rw [hrule] at herror
      have hlive := hs.1
      rw [hnext, if_pos hpk] at hlive
      exact (Follows.take a' t).error hp ⟨hpk ▸ hk, hlive⟩ herror
    · rw [hrule] at herror
      have hdead := hs.dead ((hnext _).trans (if_neg hpk))
      rw [hexpected] at hdead
      have hstops : Follows (fun s k' => s.next k' = none ∧ s.expected = [k])
          (unexpected [k] : Parse α) fun _ _ => True := .unexpected [k]
      exact hstops.error hp hdead herror

theorem follows_afterDash {α β : Type} {rule : Parse α} {f : α → β}
    {Pre : Stage → TokenKind → Prop} {t u : Stage} (hrule : Follows (Like t) rule fun s _ => s = u)
    (hpre : ∀ s k, Pre s k → k = .dash ∧ s.next .dash = some t) :
    Follows Pre (do advance; let last ← rule; return f last : Parse β) fun s _ => s = u := by
  have hadvance : Follows Pre advance (Like t) := by
    refine (Follows.advance t).weaken ?_ ?_
    · intro s k hs
      obtain ⟨rfl, hnext⟩ := hpre s k hs
      exact ⟨by decide, hnext⟩
    · rintro s k rfl
      exact .refl s k
  exact hadvance.bind fun _ => hrule.bind fun last => .pure _ fun _ _ h => h

theorem follows_days : Follows (Like .start) days (Like .days) := by
  have hfirst : Follows (Like .start) dayOfWeek fun s _ => s = .day :=
    takes_dayOfWeek.follows (by decide) (fun k => by cases k <;> rfl) rfl
  have hlast : Follows (Like .dayDash) dayOfWeek fun s _ => s = .days :=
    takes_dayOfWeek.follows (by decide) (fun k => by cases k <;> rfl) rfl
  refine hfirst.bind fun first => .onKind fun k => ?_
  split
  · refine (follows_afterDash hlast ?_).weaken (fun _ _ h => h) ?_
    · rintro _ _ ⟨rfl, rfl⟩
      exact ⟨rfl, rfl⟩
    · rintro _ k rfl
      exact .refl _ k
  · next hdash =>
    refine .pure _ ?_
    rintro _ k ⟨rfl, rfl⟩
    refine ⟨?_, fun _ => rfl⟩
    cases k <;> first | rfl | exact absurd rfl hdash

theorem follows_interval : Follows (Like .directive) interval fun s _ => s = .interval := by
  have htime : Follows (Like .timeDash) time fun s _ => s = .interval :=
    takes_time.follows (by decide) (fun k => by cases k <;> rfl) rfl
  refine .onKind fun k => ?_
  split
  · have hfirst : Follows (fun s k => Like .directive s k ∧ k = .time) time fun s _ => s = .interval := by
      refine htime.weaken ?_ fun _ _ h => h
      rintro s _ ⟨hs, rfl⟩
      exact ⟨hs.1, nofun⟩
    refine hfirst.bind fun first => .onKind fun k => ?_
    split
    · refine follows_afterDash htime ?_
      rintro _ _ ⟨rfl, rfl⟩
      exact ⟨rfl, rfl⟩
    · exact .pure _ fun _ _ h => h.1
  · refine follows_afterDash htime ?_
    rintro s _ ⟨hs, rfl⟩
    exact ⟨rfl, hs.1⟩
  · next htime hdash =>
    refine (Follows.unexpected [.time, .dash]).weaken ?_ fun _ _ h => h
    rintro s k ⟨hs, rfl⟩
    refine hs.dead ?_
    cases k <;> first | rfl | exact absurd rfl htime | exact absurd rfl hdash

def AfterIntervals (s : Stage) (k : TokenKind) : Prop :=
  s = .interval ∧ beginsInterval k = false

theorem follows_intervals : Follows (Like .directive) intervals AfterIntervals := by
  refine follows_interval.oneOrMore shrinks_interval ?_
  rintro _ k rfl hk
  cases k <;> first | exact ⟨rfl, nofun⟩ | cases hk

theorem follows_agenda : Follows (Like .days) agenda AfterIntervals := by
  have hdirective (d : Directive) {Pre : Stage → TokenKind → Prop}
      (hpre : ∀ s k, Pre s k → k ≠ .endInput ∧ s.next k = some .directive) :
      Follows Pre (agenda.agendaOf d) AfterIntervals := by
    have hadvance : Follows Pre advance (Like .directive) := by
      refine (Follows.advance .directive).weaken hpre ?_
      rintro s k rfl
      exact .refl _ k
    exact hadvance.bind fun _ => follows_intervals.bind fun _ => .pure _ fun _ _ h => h
  refine .onKind fun k => ?_
  split
  · refine hdirective .allow ?_
    rintro s _ ⟨hs, rfl⟩
    exact ⟨by decide, hs.1⟩
  · refine hdirective .forbid ?_
    rintro s _ ⟨hs, rfl⟩
    exact ⟨by decide, hs.1⟩
  · next hallow hforbid =>
    refine (Follows.unexpected [.allow, .forbid]).weaken ?_ fun _ _ h => h
    rintro s k ⟨hs, rfl⟩
    refine hs.dead ?_
    cases k <;> first | rfl | exact absurd rfl hallow | exact absurd rfl hforbid

def AfterAgendas (s : Stage) (k : TokenKind) : Prop :=
  AfterIntervals s k ∧ beginsAgenda k = false

theorem follows_agendas : Follows (Like .days) agendas AfterAgendas := by
  refine follows_agenda.oneOrMore shrinks_agenda ?_
  rintro _ k ⟨rfl, -⟩ hk
  cases k <;> first | exact ⟨rfl, nofun⟩ | cases hk

theorem follows_group : Follows (Like .start) group AfterAgendas :=
  follows_days.bind fun _ => follows_agendas.bind fun _ => .pure _ fun _ _ h => h

theorem follows_schedule :
    Follows (Like .start) schedule fun s k => s = .interval ∧ k = .endInput := by
  have hgroups : Follows (Like .start) (oneOrMore beginsGroup group shrinks_group)
      fun s k => AfterAgendas s k ∧ beginsGroup k = false := by
    refine follows_group.oneOrMore shrinks_group ?_
    rintro _ k ⟨⟨rfl, -⟩, -⟩ hk
    cases k <;> first | exact ⟨rfl, nofun⟩ | cases hk
  refine hgroups.bind fun _ => .pure _ ?_
  rintro _ k ⟨⟨⟨rfl, hinterval⟩, hagenda⟩, hgroup⟩
  refine ⟨rfl, ?_⟩
  cases k <;> simp_all [beginsInterval, beginsAgenda, beginsGroup]

theorem parse_eq_error {p q : Parser} {e : Error} (h : parse p = .error e q) :
    (∃ l, p.lexer.next = .error e l ∧ q = { p with lexer := l }) ∨
      ∃ r, advance p = .ok () r ∧ Stops .start r e q := by
  rw [parse_eq] at h
  cases hadvance : advance p with
  | ok _ r =>
    rw [bind_of_ok hadvance] at h
    exact .inr ⟨r, rfl, follows_schedule.error (readable_of_advance hadvance) (.refl _ _) h⟩
  | error e' r =>
    rw [bind_eq_error hadvance] at h
    cases h
    exact .inl (advance_eq_error_iff.1 hadvance)

end Timetable.Parser
