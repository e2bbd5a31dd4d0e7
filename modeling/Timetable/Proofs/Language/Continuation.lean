import Timetable.Language.Grammar
import Timetable.Proofs.Language.Progress

namespace Timetable.Grammar

open scoped Computability
open Timetable.Parser (beginsInterval beginsAgenda)

def Begins (l : Language TokenKind) (ks : List TokenKind) : Prop :=
  ∃ ks', ks ++ ks' ∈ l

section General

variable {l m : Language TokenKind} {ks ks' : List TokenKind} {k : TokenKind}

theorem Begins.mul (h : Begins l ks) (hm : ∃ ks, ks ∈ m) : Begins (l * m) ks := by
  obtain ⟨ks', hks'⟩ := h
  obtain ⟨w, hw⟩ := hm
  exact ⟨ks' ++ w, by rw [← List.append_assoc]; exact Language.append_mem_mul hks' hw⟩

theorem mem_oneOrMore_of_mem (h : ks ∈ l) : ks ∈ oneOrMore l :=
  mem_oneOrMore.2 ⟨[ks], by simp, by simp, by simpa using h⟩

theorem concat_mem_oneOrMore (h : ks ∈ oneOrMore l) (h' : ks' ∈ l) : ks ++ ks' ∈ oneOrMore l := by
  obtain ⟨ws, hne, rfl, hws⟩ := mem_oneOrMore.1 h
  refine mem_oneOrMore.2 ⟨ws ++ [ks'], by simp, by simp, ?_⟩
  rw [List.forall_mem_append]
  exact ⟨hws, by simpa using h'⟩

theorem append_mem_oneOrMore_of_append (hl : ∀ ks ∈ l, ks ++ ks' ∈ l) (h : ks ∈ oneOrMore l) :
    ks ++ ks' ∈ oneOrMore l := by
  obtain ⟨ws, hne, rfl, hws⟩ := mem_oneOrMore.1 h
  obtain ⟨ws, w, rfl⟩ := (List.eq_nil_or_concat' ws).resolve_left hne
  rw [List.forall_mem_append] at hws
  refine mem_oneOrMore.2 ⟨ws ++ [w ++ ks'], by simp, by simp, ?_⟩
  rw [List.forall_mem_append]
  exact ⟨hws.1, by simpa using hl w (hws.2 w (by simp))⟩

theorem forall_mem_of_mem_oneOrMore {P : TokenKind → Prop} (hl : ∀ ks ∈ l, ∀ k ∈ ks, P k)
    (h : ks ∈ oneOrMore l) : ∀ k ∈ ks, P k := by
  obtain ⟨ws, -, rfl, hws⟩ := mem_oneOrMore.1 h
  intro k hk
  obtain ⟨w, hw, hkw⟩ := List.mem_flatten.1 hk
  exact hl w (hws w hw) k hkw

theorem Begins.forall_mem {P : TokenKind → Prop} (hl : ∀ ks ∈ l, ∀ k ∈ ks, P k)
    (h : Begins l ks) : ∀ k ∈ ks, P k := by
  obtain ⟨ks', hks'⟩ := h
  exact fun k hk => hl _ hks' k (List.mem_append_left _ hk)

theorem begins_concat_of_append (h : ks ++ k :: ks' ∈ l) : Begins l (ks ++ [k]) :=
  ⟨ks', by rwa [List.append_assoc]⟩

end General

section Prolonging

variable {ks : List TokenKind} {k : TokenKind}

theorem begins_days_concat_iff {x : Phrase.Days} :
    Begins days (x.symbols.map Symbol.kind ++ [k]) ↔ ¬ x.EndsBefore k := by
  cases x <;> simp [Begins, mem_days, Phrase.Days.symbols, Phrase.Days.EndsBefore, Symbol.kind]

theorem begins_interval_concat_iff {x : Phrase.Interval} :
    Begins interval (x.symbols.map Symbol.kind ++ [k]) ↔ ¬ x.EndsBefore k := by
  cases x <;>
    simp [Begins, mem_interval, Phrase.Interval.symbols, Phrase.Interval.EndsBefore, Symbol.kind]

theorem exists_cons_mem_interval (h : beginsInterval k = true) : ∃ ks, k :: ks ∈ interval := by
  cases k with
  | time => exact ⟨[], mem_interval.2 (.inl rfl)⟩
  | dash => exact ⟨[.time], mem_interval.2 (.inr (.inr rfl))⟩
  | _ => cases h

theorem beginsInterval_of_mem_interval (h : ks ∈ interval) : ∀ k ∈ ks, beginsInterval k = true := by
  rcases mem_interval.1 h with rfl | rfl | rfl <;> decide

theorem eq_of_begins_interval (h : Begins interval ks) (hopen : ks ∉ interval) :
    ks = [] ∨ ks = [.dash] ∨ ks = [.time, .dash] := by
  obtain ⟨ks', hks'⟩ := h
  have hprefix : ks <+: ks ++ ks' := List.prefix_append ks ks'
  rw [mem_interval] at hopen
  rcases mem_interval.1 hks' with h | h | h
  all_goals
    rw [h, ← List.mem_inits] at hprefix
    simp only [List.inits, List.map_cons, List.map_nil, List.mem_cons, List.not_mem_nil] at hprefix
    grind

theorem begins_intervals_concat_iff (h : ks ∈ oneOrMore interval) :
    Begins (oneOrMore interval) (ks ++ [k]) ↔ beginsInterval k = true := by
  constructor
  · intro hbegins
    have hkinds : ∀ ks ∈ oneOrMore interval, ∀ k ∈ ks, beginsInterval k = true := fun _ =>
      forall_mem_of_mem_oneOrMore fun _ => beginsInterval_of_mem_interval
    exact hbegins.forall_mem hkinds k (by simp)
  · intro hk
    obtain ⟨ks', hks'⟩ := exists_cons_mem_interval hk
    exact begins_concat_of_append (concat_mem_oneOrMore h hks')

theorem mem_agenda : ks ∈ agenda ↔
    ∃ k ks', ks = k :: ks' ∧ beginsAgenda k = true ∧ ks' ∈ oneOrMore interval := by
  rw [agenda, Language.mem_mul]
  constructor
  · rintro ⟨_, rfl | rfl, ks', hks', rfl⟩
    · exact ⟨.allow, ks', rfl, rfl, hks'⟩
    · exact ⟨.forbid, ks', rfl, rfl, hks'⟩
  · rintro ⟨k, ks', rfl, hk, hks'⟩
    cases k with
    | allow => exact ⟨_, .inl rfl, ks', hks', rfl⟩
    | forbid => exact ⟨_, .inr rfl, ks', hks', rfl⟩
    | _ => cases hk

theorem append_mem_agenda (h : ks ∈ agenda) {ks' : List TokenKind} (h' : ks' ∈ interval) :
    ks ++ ks' ∈ agenda := by
  obtain ⟨k, is, rfl, hk, his⟩ := mem_agenda.1 h
  exact mem_agenda.2 ⟨k, is ++ ks', rfl, hk, concat_mem_oneOrMore his h'⟩

theorem exists_cons_mem_agenda (h : beginsAgenda k = true) : ∃ ks, k :: ks ∈ agenda :=
  ⟨[.time], mem_agenda.2 ⟨k, [.time], rfl, h, mem_oneOrMore_of_mem (mem_interval.2 (.inl rfl))⟩⟩

theorem begins_agenda_concat_iff (h : ks ∈ agenda) :
    Begins agenda (ks ++ [k]) ↔ beginsInterval k = true := by
  constructor
  · rintro ⟨ks', hks'⟩
    obtain ⟨d, is, rfl, -, -⟩ := mem_agenda.1 h
    obtain ⟨_, js, heq, -, hjs⟩ := mem_agenda.1 hks'
    obtain ⟨-, rfl⟩ := List.cons.inj heq
    exact forall_mem_of_mem_oneOrMore (fun _ => beginsInterval_of_mem_interval) hjs k (by simp)
  · intro hk
    obtain ⟨ks', hks'⟩ := exists_cons_mem_interval hk
    exact begins_concat_of_append (append_mem_agenda h hks')

theorem kinds_of_mem_agenda (h : ks ∈ agenda) :
    ∀ k ∈ ks, beginsInterval k = true ∨ beginsAgenda k = true := by
  obtain ⟨k, is, rfl, hk, his⟩ := mem_agenda.1 h
  rw [List.forall_mem_cons]
  exact ⟨.inr hk, fun k hk => .inl
    (forall_mem_of_mem_oneOrMore (fun _ => beginsInterval_of_mem_interval) his k hk)⟩

theorem begins_agendas_concat_iff (h : ks ∈ oneOrMore agenda) :
    Begins (oneOrMore agenda) (ks ++ [k]) ↔ beginsInterval k = true ∨ beginsAgenda k = true := by
  constructor
  · intro hbegins
    have hkinds : ∀ ks ∈ oneOrMore agenda, ∀ k ∈ ks,
        beginsInterval k = true ∨ beginsAgenda k = true := fun _ =>
      forall_mem_of_mem_oneOrMore fun _ => kinds_of_mem_agenda
    exact hbegins.forall_mem hkinds k (by simp)
  · rintro (hk | hk)
    · obtain ⟨ks', hks'⟩ := exists_cons_mem_interval hk
      exact begins_concat_of_append
        (append_mem_oneOrMore_of_append (fun _ ha => append_mem_agenda ha hks') h)
    · obtain ⟨ks', hks'⟩ := exists_cons_mem_agenda hk
      exact begins_concat_of_append (concat_mem_oneOrMore h hks')

theorem append_mem_group {ks' : List TokenKind} (hks' : ∀ ks ∈ oneOrMore agenda,
    ks ++ ks' ∈ oneOrMore agenda) (h : ks ∈ days * oneOrMore agenda) :
    ks ++ ks' ∈ days * oneOrMore agenda := by
  obtain ⟨ds, hds, as, has, rfl⟩ := Language.mem_mul.1 h
  rw [List.append_assoc]
  exact Language.append_mem_mul hds (hks' as has)

theorem ne_endInput_of_mem_group (h : ks ∈ days * oneOrMore agenda) : ∀ k ∈ ks, k ≠ .endInput := by
  obtain ⟨ds, hds, as, has, rfl⟩ := Language.mem_mul.1 h
  rw [List.forall_mem_append]
  constructor
  · rcases mem_days.1 hds with rfl | rfl <;> decide
  · rintro k hk rfl
    have := forall_mem_of_mem_oneOrMore (fun _ => kinds_of_mem_agenda) has _ hk
    simp [beginsInterval, beginsAgenda] at this

theorem begins_schedule_concat_iff (h : ks ∈ schedule) :
    Begins schedule (ks ++ [k]) ↔ k ≠ .endInput := by
  constructor
  · intro hbegins
    have hkinds : ∀ ks ∈ schedule, ∀ k ∈ ks, k ≠ .endInput := fun _ =>
      forall_mem_of_mem_oneOrMore fun _ => ne_endInput_of_mem_group
    exact hbegins.forall_mem hkinds k (by simp)
  · intro hk
    have hgroups {ks' : List TokenKind}
        (hks' : ∀ ks ∈ oneOrMore agenda, ks ++ k :: ks' ∈ oneOrMore agenda) :
        Begins schedule (ks ++ [k]) :=
      begins_concat_of_append (append_mem_oneOrMore_of_append (fun _ => append_mem_group hks') h)
    have hinterval (hk : beginsInterval k = true) : Begins schedule (ks ++ [k]) := by
      obtain ⟨ks', hks'⟩ := exists_cons_mem_interval hk
      exact hgroups fun _ =>
        append_mem_oneOrMore_of_append fun _ ha => append_mem_agenda ha hks'
    have hagenda (hk : beginsAgenda k = true) : Begins schedule (ks ++ [k]) := by
      obtain ⟨ks', hks'⟩ := exists_cons_mem_agenda hk
      exact hgroups fun _ has => concat_mem_oneOrMore has hks'
    cases k with
    | endInput => exact absurd rfl hk
    | time => exact hinterval rfl
    | dash => exact hinterval rfl
    | allow => exact hagenda rfl
    | forbid => exact hagenda rfl
    | dayOfWeek =>
      obtain ⟨as, has⟩ := exists_cons_mem_agenda (k := .allow) rfl
      have hgroup : [.dayOfWeek] ++ .allow :: as ∈ days * oneOrMore agenda :=
        Language.append_mem_mul (mem_days.2 (.inl rfl)) (mem_oneOrMore_of_mem has)
      exact begins_concat_of_append (concat_mem_oneOrMore h hgroup)

end Prolonging

namespace Stage

section Following

variable {k : TokenKind} {ks : List TokenKind}

theorem kind_of_cons_mem_rest_days (h : k :: ks ∈ rest .days) : beginsAgenda k = true := by
  obtain ⟨_, hnext, -⟩ := cons_mem_rest_iff.1 h
  cases k <;> first | rfl | cases hnext

theorem kind_of_cons_mem_moreGroups (h : k :: ks ∈ moreGroups) :
    k = .dayOfWeek ∨ k = .endInput := by
  rw [moreGroups_eq, days_mul, Language.mem_add, cons_mem_token_mul] at h
  rcases h with ⟨rfl, -⟩ | h
  · exact .inl rfl
  · exact .inr (List.cons.inj h).1

theorem beginsInterval_of_cons_mem_moreAgendas (h : k :: ks ∈ moreAgendas) :
    beginsInterval k = false := by
  rw [moreAgendas_eq, Language.mem_add] at h
  rcases h with h | h
  · have hk := kind_of_cons_mem_rest_days h
    cases k <;> first | rfl | cases hk
  · rcases kind_of_cons_mem_moreGroups h with rfl | rfl <;> rfl

end Following

structure Enters (s : Stage) (l : Language TokenKind) : Prop where
  nil : Begins l []
  run : ∀ {ks}, Begins l ks → ∃ s', s.run ks = some s'
  begins : ∀ {ks k s'}, Begins l ks → ks ∉ l → s.run (ks ++ [k]) = some s' → Begins l (ks ++ [k])

theorem run_iff_begins_rest {s : Stage} {ks : List TokenKind} :
    (∃ s', s.run ks = some s') ↔ Begins s.rest ks := by
  simp only [Begins, mem_rest_iff, run_append, Option.bind_eq_some_iff]
  constructor
  · rintro ⟨s', hs'⟩
    obtain ⟨ks', hks'⟩ := s'.exists_completion
    exact ⟨ks', s', hs', hks'⟩
  · rintro ⟨_, s', hs', -⟩
    exact ⟨s', hs'⟩

section Entering

variable {s : Stage} {l m : Language TokenKind}

theorem exists_mem_of_rest_eq (h : s.rest = l * m) : (∃ ks, ks ∈ l) ∧ ∃ ks, ks ∈ m := by
  obtain ⟨ks, hks⟩ := s.exists_completion
  rw [← mem_rest_iff, h, Language.mem_mul] at hks
  obtain ⟨us, hus, vs, hvs, -⟩ := hks
  exact ⟨⟨us, hus⟩, vs, hvs⟩

theorem run_of_begins (h : s.rest = l * m) {ks : List TokenKind} (hks : Begins l ks) :
    ∃ s', s.run ks = some s' := by
  rw [run_iff_begins_rest, h]
  exact hks.mul (exists_mem_of_rest_eq h).2

theorem enters_of_rest_eq (h : s.rest = l * m)
    (hapart : ∀ {ks k ks'}, ks ∈ l → k :: ks' ∈ m → ¬ Begins l (ks ++ [k])) : s.Enters l where
  nil := (exists_mem_of_rest_eq h).1
  run := run_of_begins h
  begins {ks k s'} hks hopen hrun := by
    obtain ⟨more, hmore⟩ := run_iff_begins_rest.1 ⟨s', hrun⟩
    rw [h, Language.mem_mul] at hmore
    obtain ⟨us, hus, vs, hvs, heq⟩ := hmore
    rw [List.append_assoc, List.append_eq_append_iff] at heq
    -- The sentence `us` ends among the kinds that have come, or with the new one or later.
    rcases heq with ⟨ws, rfl, rfl⟩ | ⟨ws, rfl, hws⟩
    · cases ws with
      | nil =>
        rw [List.append_nil] at hopen
        exact absurd hus hopen
      | cons w ws =>
        have hw : Begins l (us ++ [w]) := by
          obtain ⟨ks', hks'⟩ := hks
          rw [List.append_assoc] at hks'
          exact begins_concat_of_append hks'
        exact absurd hw (hapart hus hvs)
    · cases ws with
      | nil =>
        rw [List.append_nil] at hus
        exact absurd hus hopen
      | cons w ws =>
        obtain ⟨rfl, -⟩ := List.cons.inj hws
        exact begins_concat_of_append hus

end Entering

theorem enters_days : Enters .start Grammar.days := by
  refine enters_of_rest_eq source_eq ?_
  intro ks k ks' hks hk
  have hk := kind_of_cons_mem_rest_days hk
  rcases mem_days.1 hks with rfl | rfl <;> cases k <;> simp_all [Begins, mem_days, beginsAgenda]

theorem enters_interval : Enters .directive Grammar.interval where
  nil := ⟨_, mem_interval.2 (.inl rfl)⟩
  run := run_of_begins rfl
  begins {ks k s'} hks hopen hrun := by
    rcases eq_of_begins_interval hks hopen with rfl | rfl | rfl
    · cases k with
      | time => exact ⟨[], mem_interval.2 (.inl rfl)⟩
      | dash => exact ⟨[.time], mem_interval.2 (.inr (.inr rfl))⟩
      | _ => cases hrun
    · cases k with
      | time => exact ⟨[], mem_interval.2 (.inr (.inr rfl))⟩
      | _ => cases hrun
    · cases k with
      | time => exact ⟨[], mem_interval.2 (.inr (.inl rfl))⟩
      | _ => cases hrun

theorem enters_intervals : Enters .directive (oneOrMore Grammar.interval) := by
  refine enters_of_rest_eq (m := moreAgendas) ?_ ?_
  · rw [rest, moreIntervals, oneOrMore, mul_assoc]
  · intro ks k ks' hks hk
    rw [begins_intervals_concat_iff hks, beginsInterval_of_cons_mem_moreAgendas hk]
    exact Bool.false_ne_true

theorem enters_agenda : Enters .days agenda := by
  refine enters_of_rest_eq rfl ?_
  intro ks k ks' hks hk
  rw [begins_agenda_concat_iff hks, beginsInterval_of_cons_mem_moreAgendas hk]
  exact Bool.false_ne_true

theorem enters_agendas : Enters .days (oneOrMore agenda) := by
  refine enters_of_rest_eq (m := moreGroups) ?_ ?_
  · rw [rest, moreAgendas, oneOrMore, mul_assoc]
  · intro ks k ks' hks hk
    rw [begins_agendas_concat_iff hks]
    rcases kind_of_cons_mem_moreGroups hk with rfl | rfl <;> simp [beginsInterval, beginsAgenda]

theorem enters_schedule : Enters .start schedule := by
  refine enters_of_rest_eq (m := token .endInput) rfl ?_
  intro ks k ks' hks hk
  obtain ⟨rfl, -⟩ := List.cons.inj hk
  rw [begins_schedule_concat_iff hks]
  exact not_not.2 rfl

end Stage

end Timetable.Grammar
