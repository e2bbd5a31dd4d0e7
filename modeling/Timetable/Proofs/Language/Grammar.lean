import Mathlib.Computability.Language
import Mathlib.Data.List.Chain
import Timetable.Proofs.Language.Phrase

namespace Timetable

namespace Grammar

open scoped Computability

def token (k : TokenKind) : Language TokenKind := {[k]}

def optional (l : Language TokenKind) : Language TokenKind := 1 + l

def oneOrMore (l : Language TokenKind) : Language TokenKind := l * l∗

def days : Language TokenKind :=
  token .dayOfWeek * optional (token .dash * token .dayOfWeek)

def interval : Language TokenKind :=
  token .time * optional (token .dash * token .time) + token .dash * token .time

def agenda : Language TokenKind :=
  (token .allow + token .forbid) * oneOrMore interval

def schedule : Language TokenKind :=
  oneOrMore (days * oneOrMore agenda)

theorem mem_token {k : TokenKind} {ks : List TokenKind} : ks ∈ token k ↔ ks = [k] := Iff.rfl

theorem mem_oneOrMore {l : Language TokenKind} {ks : List TokenKind} :
    ks ∈ oneOrMore l ↔ ∃ ws : List (List TokenKind), ws ≠ [] ∧ ws.flatten = ks ∧ ∀ w ∈ ws, w ∈ l := by
  rw [oneOrMore, Language.mem_mul]
  constructor
  · rintro ⟨w, hw, rest, ⟨ws, rfl, hws⟩, rfl⟩
    exact ⟨w :: ws, by simp, by simp, List.forall_mem_cons.2 ⟨hw, hws⟩⟩
  · rintro ⟨ws, hne, rfl, hws⟩
    cases ws with
    | nil => exact absurd rfl hne
    | cons w ws =>
      obtain ⟨hw, hws⟩ := List.forall_mem_cons.1 hws
      exact ⟨w, hw, ws.flatten, ⟨ws, rfl, hws⟩, by simp⟩

def Spells {X : Type} (l : Language TokenKind) (symbols : X → List Symbol) : Prop :=
  ∀ xs : List Symbol, xs.map Symbol.kind ∈ l ↔ ∃ p, symbols p = xs

theorem mem_days {ks : List TokenKind} :
    ks ∈ days ↔ ks = [.dayOfWeek] ∨ ks = [.dayOfWeek, .dash, .dayOfWeek] := by
  simp only [days, optional, Language.mem_mul, Language.mem_add, Language.mem_one, mem_token]
  constructor
  · rintro ⟨_, rfl, _, rfl | ⟨_, rfl, _, rfl, rfl⟩, rfl⟩
    · exact .inl rfl
    · exact .inr rfl
  · rintro (rfl | rfl)
    · exact ⟨_, rfl, _, .inl rfl, rfl⟩
    · exact ⟨_, rfl, _, .inr ⟨_, rfl, _, rfl, rfl⟩, rfl⟩

theorem mem_interval {ks : List TokenKind} :
    ks ∈ interval ↔ ks = [.time] ∨ ks = [.time, .dash, .time] ∨ ks = [.dash, .time] := by
  simp only [interval, optional, Language.mem_mul, Language.mem_add, Language.mem_one, mem_token]
  constructor
  · rintro (⟨_, rfl, _, rfl | ⟨_, rfl, _, rfl, rfl⟩, rfl⟩ | ⟨_, rfl, _, rfl, rfl⟩)
    · exact .inl rfl
    · exact .inr (.inl rfl)
    · exact .inr (.inr rfl)
  · rintro (rfl | rfl | rfl)
    · exact .inl ⟨_, rfl, _, .inl rfl, rfl⟩
    · exact .inl ⟨_, rfl, _, .inr ⟨_, rfl, _, rfl, rfl⟩, rfl⟩
    · exact .inr ⟨_, rfl, _, rfl, rfl⟩

theorem Spells.oneOrMore {X : Type} {l : Language TokenKind} {f : X → List Symbol}
    (hf : Spells l f) (xs : List Symbol) :
    xs.map Symbol.kind ∈ oneOrMore l ↔ ∃ ps : List X, ps ≠ [] ∧ ps.flatMap f = xs := by
  rw [mem_oneOrMore]
  constructor
  · rintro ⟨ws, hne, h, hws⟩
    have hps : ∃ ps : List X, ps.length = ws.length ∧ ps.flatMap f = xs := by
      clear hne
      induction ws generalizing xs with
      | nil => exact ⟨[], rfl, (List.map_eq_nil_iff.1 h.symm).symm⟩
      | cons w ws ih =>
        obtain ⟨ys, zs, rfl, rfl, hzs⟩ := List.map_eq_append_iff.1 h.symm
        obtain ⟨hw, hrest⟩ := List.forall_mem_cons.1 hws
        obtain ⟨p, rfl⟩ := (hf ys).1 hw
        obtain ⟨ps, hlen, rfl⟩ := ih zs hzs.symm hrest
        exact ⟨p :: ps, by simp [hlen], rfl⟩
    obtain ⟨ps, hlen, hxs⟩ := hps
    refine ⟨ps, ?_, hxs⟩
    rintro rfl
    exact hne (List.length_eq_zero_iff.1 hlen.symm)
  · rintro ⟨ps, hne, rfl⟩
    refine ⟨ps.map fun p => (f p).map Symbol.kind, by simpa using hne, ?_, ?_⟩
    · rw [List.map_flatMap, List.flatMap_def]
    · rw [List.forall_mem_map]
      exact fun p _ => (hf _).2 ⟨p, rfl⟩

theorem spells_days : Spells days Phrase.Days.symbols := by
  intro xs
  rw [mem_days]
  constructor
  · rintro (h | h)
    · obtain ⟨x, rfl, hx⟩ := List.map_eq_singleton_iff.1 h
      obtain ⟨d, rfl⟩ := Symbol.kind_eq_dayOfWeek_iff.1 hx
      exact ⟨.single d, rfl⟩
    · simp only [List.map_eq_cons_iff, List.map_eq_nil_iff, Symbol.kind_eq_dayOfWeek_iff,
        Symbol.kind_eq_dash_iff] at h
      obtain ⟨_, _, rfl, ⟨d, rfl⟩, _, _, rfl, rfl, _, _, rfl, ⟨e, rfl⟩, rfl⟩ := h
      exact ⟨.range d e, rfl⟩
  · rintro ⟨_ | _, rfl⟩
    · exact .inl rfl
    · exact .inr rfl

theorem spells_interval : Spells interval Phrase.Interval.symbols := by
  intro xs
  rw [mem_interval]
  constructor
  · rintro (h | h | h)
    · obtain ⟨x, rfl, hx⟩ := List.map_eq_singleton_iff.1 h
      obtain ⟨t, rfl⟩ := Symbol.kind_eq_time_iff.1 hx
      exact ⟨.since t, rfl⟩
    · simp only [List.map_eq_cons_iff, List.map_eq_nil_iff, Symbol.kind_eq_time_iff,
        Symbol.kind_eq_dash_iff] at h
      obtain ⟨_, _, rfl, ⟨t, rfl⟩, _, _, rfl, rfl, _, _, rfl, ⟨u, rfl⟩, rfl⟩ := h
      exact ⟨.span t u, rfl⟩
    · simp only [List.map_eq_cons_iff, List.map_eq_nil_iff, Symbol.kind_eq_time_iff,
        Symbol.kind_eq_dash_iff] at h
      obtain ⟨_, _, rfl, rfl, _, _, rfl, ⟨u, rfl⟩, rfl⟩ := h
      exact ⟨.upTo u, rfl⟩
  · rintro ⟨_ | _ | _, rfl⟩
    · exact .inr (.inl rfl)
    · exact .inl rfl
    · exact .inr (.inr rfl)

theorem exists_greedy (is : List Phrase.Interval) (hne : is ≠ []) :
    ∃ js : List Phrase.Interval, js ≠ [] ∧ (js.IsChain fun i j => i.EndsBefore j.firstKind) ∧
      js.flatMap Phrase.Interval.symbols = is.flatMap Phrase.Interval.symbols := by
  induction is with
  | nil => exact absurd rfl hne
  | cons i is ih =>
    cases is with
    | nil => exact ⟨[i], by simp, .singleton i, rfl⟩
    | cons i' is =>
      obtain ⟨js, hjs, hchain, hsymbols⟩ := ih (by simp)
      rw [List.flatMap_cons, ← hsymbols]
      obtain ⟨j, js, rfl⟩ := List.exists_cons_of_ne_nil hjs
      by_cases hends : i.EndsBefore j.firstKind
      · exact ⟨i :: j :: js, by simp, .cons_cons hends hchain, rfl⟩
      · cases i with
        | span a b => exact absurd trivial hends
        | upTo b => exact absurd trivial hends
        | since a =>
          cases j with
          | span b c => simp [Phrase.Interval.EndsBefore, Phrase.Interval.firstKind] at hends
          | since b => simp [Phrase.Interval.EndsBefore, Phrase.Interval.firstKind] at hends
          | upTo b =>
            refine ⟨.span a b :: js, by simp, ?_, rfl⟩
            exact List.isChain_cons.2 ⟨fun _ _ => trivial, (List.isChain_cons.1 hchain).2⟩

theorem spells_agenda : Spells agenda Phrase.Agenda.symbols := by
  intro xs
  rw [agenda, Language.mem_mul]
  constructor
  · rintro ⟨ks, hks, ks', hks', h⟩
    obtain ⟨ys, zs, rfl, rfl, rfl⟩ := List.map_eq_append_iff.1 h.symm
    obtain ⟨is, hne, rfl⟩ := (spells_interval.oneOrMore zs).1 hks'
    obtain ⟨js, hjs, hgreedy, hsymbols⟩ := exists_greedy is hne
    rcases hks with hk | hk
    · obtain ⟨x, rfl, hx⟩ := List.map_eq_singleton_iff.1 hk
      obtain rfl := (Symbol.kind_eq_directive_iff (d := .allow)).1 hx
      exact ⟨⟨.allow, js, hjs, hgreedy⟩, congrArg (_ :: ·) hsymbols⟩
    · obtain ⟨x, rfl, hx⟩ := List.map_eq_singleton_iff.1 hk
      obtain rfl := (Symbol.kind_eq_directive_iff (d := .forbid)).1 hx
      exact ⟨⟨.forbid, js, hjs, hgreedy⟩, congrArg (_ :: ·) hsymbols⟩
  · rintro ⟨⟨d, is, hne, hgreedy⟩, rfl⟩
    refine ⟨[(Symbol.directive d).kind], ?_, _, (spells_interval.oneOrMore _).2 ⟨is, hne, rfl⟩, rfl⟩
    cases d with
    | allow => exact .inl rfl
    | forbid => exact .inr rfl

theorem spells_group : Spells (days * oneOrMore agenda) Phrase.Group.symbols := by
  intro xs
  rw [Language.mem_mul]
  constructor
  · rintro ⟨ks, hks, ks', hks', h⟩
    obtain ⟨ys, zs, rfl, rfl, rfl⟩ := List.map_eq_append_iff.1 h.symm
    obtain ⟨ds, rfl⟩ := (spells_days ys).1 hks
    obtain ⟨as, hne, rfl⟩ := (spells_agenda.oneOrMore zs).1 hks'
    exact ⟨⟨ds, as, hne⟩, rfl⟩
  · rintro ⟨⟨ds, as, hne⟩, rfl⟩
    exact ⟨_, (spells_days _).2 ⟨ds, rfl⟩, _, (spells_agenda.oneOrMore _).2 ⟨as, hne, rfl⟩,
      List.map_append.symm⟩

theorem spells_schedule : Spells schedule Sentence.symbols := by
  intro xs
  rw [schedule, spells_group.oneOrMore]
  constructor
  · rintro ⟨gs, hne, rfl⟩
    exact ⟨⟨gs, hne⟩, rfl⟩
  · rintro ⟨⟨gs, hne⟩, rfl⟩
    exact ⟨gs, hne, rfl⟩

end Grammar

end Timetable
