import Timetable.Proofs.Language.Consumption
import Timetable.Proofs.Language.Grammar
import Timetable.Proofs.Language.Stream
import Timetable.Schedule.Source

namespace Timetable

theorem Phrase.Group.dayIntervals_eq (g : Phrase.Group) (d : Directive) :
    g.dayIntervals d = ((g.agendas.map Phrase.Agenda.meaning).filter (·.directive = d)).flatMap
      (·.onDays g.days.meaning) := by
  rw [List.filter_map, List.flatMap_map, dayIntervals]
  refine List.flatMap_congr fun a _ => ?_
  rw [Phrase.Agenda.meaning, Timetable.Agenda.onDays, List.flatMap_map]

theorem Sentence.meaning_eq_foldl (s : Schedule) (gs : List Phrase.Group) :
    (gs.map fun g => (g.days.meaning, g.agendas.map Phrase.Agenda.meaning)).foldl
        (fun s g => s.addAgendas g.1 g.2) s =
      ⟨s.allowed ++ gs.flatMap (·.dayIntervals .allow),
        s.forbidden ++ gs.flatMap (·.dayIntervals .forbid), s.zone⟩ := by
  induction gs generalizing s with
  | nil => simp
  | cons g gs ih =>
    rw [List.map_cons, List.foldl_cons, ih, Schedule.addAgendas_eq]
    simp [Phrase.Group.dayIntervals_eq]

namespace Parser

theorem schedule_eq_ok_iff {p q : Parser} {s : Schedule} :
    schedule p = .ok s q ↔
      ∃ x : Sentence, Consumes p x.symbols q ∧ x.meaning = s ∧ q.token.kind = .endInput := by
  rw [schedule, bind_eq_ok_iff]
  constructor
  · rintro ⟨_, r, hgroups, h⟩
    obtain ⟨rfl, rfl⟩ := pure_eq_ok_iff.1 h
    obtain ⟨gs, hne, hgs, rfl, hend⟩ := groups_eq_ok_iff.1 hgroups
    exact ⟨⟨gs, hne⟩, hgs, (Sentence.meaning_eq_foldl (.empty .utc) gs).symm, hend⟩
  · rintro ⟨⟨gs, hne⟩, hgs, rfl, hend⟩
    refine ⟨_, q, groups_eq_ok_iff.2 ⟨gs, hne, hgs, rfl, hend⟩, pure_eq_ok_iff.2 ⟨?_, rfl⟩⟩
    exact Sentence.meaning_eq_foldl (.empty .utc) gs

theorem parse_eq : parse = (do advance; schedule) := by
  funext p
  rw [parse]
  cases hadvance : advance p with
  | ok _ r =>
    rw [bind_of_ok hadvance, bind_of_ok hadvance]
    cases hschedule : schedule r with
    | ok s q =>
      obtain ⟨-, -, -, hend⟩ := schedule_eq_ok_iff.1 hschedule
      rw [bind_of_ok hschedule, onKind, hend]
      rfl
    | error e q => exact bind_eq_error hschedule
  | error e r => rw [bind_eq_error hadvance, bind_eq_error hadvance]

theorem days_eq_error {p : Parser} (h : p.token.kind ≠ .dayOfWeek) :
    days p = .error
      (.unexpectedToken (p.lexer.spotAt p.token.position) [.dayOfWeek] p.token.kind) p := by
  have hday : dayOfWeek p = unexpected [.dayOfWeek] p := by
    rw [dayOfWeek, if_neg h]
  exact bind_eq_error hday

theorem schedule_eq_error {p : Parser} (h : p.token.kind ≠ .dayOfWeek) :
    schedule p = .error
      (.unexpectedToken (p.lexer.spotAt p.token.position) [.dayOfWeek] p.token.kind) p := by
  have hgroup : group p = unexpected [.dayOfWeek] p := bind_eq_error (days_eq_error h)
  exact bind_eq_error (oneOrMore_eq_error shrinks_group hgroup)

theorem exists_advance_consumes_iff {p q : Parser} {xs : List Symbol} :
    (∃ r, advance p = .ok () r ∧ Consumes r xs q) ↔
      ∃ ts, p.lexer.Reads (ts ++ [q.token]) q.lexer ∧ ts.map Token.symbol? = xs.map some := by
  induction xs generalizing p with
  | nil =>
    constructor
    · rintro ⟨_, hr, rfl⟩
      exact ⟨[], Lexer.Reads.singleton_iff.2 (advance_eq_ok_iff.1 hr), rfl⟩
    · rintro ⟨ts, hreads, hts⟩
      obtain rfl := List.map_eq_nil_iff.1 hts
      exact ⟨q, advance_eq_ok_iff.2 (Lexer.Reads.singleton_iff.1 hreads), rfl⟩
  | cons x xs ih =>
    constructor
    · rintro ⟨r, hr, hx, hxs⟩
      obtain ⟨ts, hreads, hts⟩ := ih.1 hxs
      exact ⟨r.token :: ts, .cons (advance_eq_ok_iff.1 hr) hreads, by simp [hx, hts]⟩
    · rintro ⟨ts, hreads, hts⟩
      obtain ⟨t, ts, rfl, hx, hts⟩ := List.map_eq_cons_iff.1 hts
      obtain ⟨l, ht, hreads⟩ := Lexer.Reads.cons_iff.1 hreads
      exact ⟨⟨l, t⟩, advance_eq_ok_iff.2 ht, hx, ih.2 ⟨ts, hreads, hts⟩⟩

theorem parse_eq_ok_iff {p q : Parser} {s : Schedule} :
    parse p = .ok s q ↔
      ∃ ts, ∃ x : Sentence, p.lexer.Reads (ts ++ [q.token]) q.lexer ∧ q.token.kind = .endInput ∧
        ts.map Token.symbol? = x.symbols.map some ∧ x.meaning = s := by
  rw [parse_eq, bind_eq_ok_iff]
  constructor
  · rintro ⟨_, r, hr, h⟩
    obtain ⟨x, hx, rfl, hend⟩ := schedule_eq_ok_iff.1 h
    obtain ⟨ts, hreads, hts⟩ := exists_advance_consumes_iff.1 ⟨r, hr, hx⟩
    exact ⟨ts, x, hreads, hend, hts, rfl⟩
  · rintro ⟨ts, x, hreads, hend, hts, rfl⟩
    obtain ⟨r, hr, hx⟩ := exists_advance_consumes_iff.2 ⟨ts, hreads, hts⟩
    exact ⟨(), r, hr, schedule_eq_ok_iff.2 ⟨x, hx, rfl, hend⟩⟩

end Parser

namespace Schedule

theorem ofSourceWith_eq_ok_iff {layout : Layout} {source : String} {s : Schedule} :
    ofSourceWith layout source = .ok s ↔
      ∃ ts, ∃ x : Sentence, (Lexer.ofString source layout).Yields ts ∧
        ts.map Token.symbol? = x.symbols.map some ∧ x.meaning = s := by
  have hparse : ofSourceWith layout source = .ok s ↔
      ∃ q, Parser.parse (.ofLexer (.ofString source layout)) = .ok s q := by
    unfold ofSourceWith
    cases Parser.parse (.ofLexer (.ofString source layout)) <;> simp
  rw [hparse]
  constructor
  · rintro ⟨q, hq⟩
    obtain ⟨ts, x, hreads, hend, hts, rfl⟩ := Parser.parse_eq_ok_iff.1 hq
    exact ⟨ts, x, ⟨_, _, hreads, hend, Token.kind_ne_endInput_of_symbols hts⟩, hts, rfl⟩
  · rintro ⟨ts, x, ⟨e, l, hreads, hend, -⟩, hts, rfl⟩
    exact ⟨⟨l, e⟩, Parser.parse_eq_ok_iff.2 ⟨ts, x, hreads, hend, hts, rfl⟩⟩

theorem accepts_exactly_sentences (layout : Layout) (source : String) :
    ((∃ s, ofSourceWith layout source = .ok s) ↔
      ∃ ts, (Lexer.ofString source layout).Yields ts ∧ ts.map Token.kind ∈ Grammar.schedule) ∧
    ∀ s, ofSourceWith layout source = .ok s ↔
      ∃ ts, ∃ x : Sentence, (Lexer.ofString source layout).Yields ts ∧
        List.Forall₂ Token.StandsFor ts x.symbols ∧ x.meaning = s := by
  refine ⟨⟨?_, ?_⟩, fun s => ?_⟩
  · rintro ⟨s, hs⟩
    obtain ⟨ts, x, hyields, hts, -⟩ := ofSourceWith_eq_ok_iff.1 hs
    refine ⟨ts, hyields, ?_⟩
    rw [Token.map_kind_of_symbols hts]
    exact (Grammar.spells_schedule _).2 ⟨x, rfl⟩
  · rintro ⟨ts, hyields, hkinds⟩
    obtain ⟨xs, hxs⟩ := hyields.exists_symbols
    rw [Token.map_kind_of_symbols hxs] at hkinds
    obtain ⟨x, rfl⟩ := (Grammar.spells_schedule xs).1 hkinds
    exact ⟨x.meaning, ofSourceWith_eq_ok_iff.2 ⟨ts, x, hyields, hxs, rfl⟩⟩
  · rw [ofSourceWith_eq_ok_iff]
    refine exists_congr fun ts => exists_congr fun x => and_congr_right fun hyields => ?_
    rw [Token.map_symbol?_eq_iff hyields.legible]

example :
    (ofSourceWith {} "mon allow 0101-0202-0303").toOption =
      some ⟨[⟨.monday, ⟨{ hour := 1, minute := 1 }, { hour := 2, minute := 2 }⟩⟩,
        ⟨.monday, ⟨{ hour := 0, minute := 0 }, { hour := 3, minute := 3 }⟩⟩], [], .utc⟩ := by
  decide +kernel

end Schedule

end Timetable
