import Timetable.Proofs.Language.Beginning
import Timetable.Proofs.Language.FirstProblem

namespace Timetable

open Grammar (Stage)

inductive Error.OfReading : Error → Prop
  | character (spot : Spot) (expected : List Char) : OfReading (.unexpectedCharacter spot expected)
  | token (spot : Spot) {expected : List TokenKind} {got : TokenKind} (hgot : got ∉ expected)
      (hend : .endInput ∉ expected) : OfReading (.unexpectedToken spot expected got)

namespace Grammar.Stage

variable {s : Stage} {k : TokenKind}

theorem notMem_expected (h : s.next k = none) : k ∉ s.expected := by
  cases s <;> cases k <;> first | decide | cases h

theorem endInput_notMem_expected (s : Stage) : .endInput ∉ s.expected := by
  cases s <;> decide

end Grammar.Stage

theorem Vocabulary.exists_kind?_of_contains {word : List Char} (h : trie.contains word = true) :
    ∃ kind, kind? word = some kind := by
  obtain ⟨x, hx⟩ := exists_classify_of_contains h
  exact ⟨x.kind, Scan.kind_of_classify hx⟩

namespace Lexer

variable {l r : Lexer} {t : Token} {e : Error}

theorem exists_ofString_of_time (h : l.next = .ok t r) (hk : t.kind = .time) :
    ∃ v, TimeOfDay.ofString (String.ofList t.lexeme) = .ok v := by
  obtain ⟨v, hv⟩ := (legible_of_next h).exists_time hk
  refine ⟨v, TimeOfDay.ofString_eq_ok_iff.2 ?_⟩
  rwa [String.toList_ofList]

theorem ofReading_of_next (h : l.next = .error e r) : e.OfReading := by
  obtain ⟨spot, expected, rfl⟩ := exists_unexpectedCharacter h
  exact .character spot expected

end Lexer

namespace Parser

variable {s : Stage} {p q : Parser} {e : Error}

theorem Stuck.ofReading (h : Stuck s p e q) : e.OfReading := by
  cases h with
  | token hdead => exact .token _ (Stage.notMem_expected hdead) s.endInput_notMem_expected
  | character _ _ hl => exact Lexer.ofReading_of_next hl

theorem ofReading_of_parse (h : parse p = .error e q) : e.OfReading := by
  rcases parse_eq_error h with ⟨l, hl, -⟩ | ⟨_, -, _, _, -, hstuck⟩
  · exact Lexer.ofReading_of_next hl
  · exact hstuck.ofReading

theorem kind_eq_endInput_of_schedule {x : Schedule} (h : schedule p = .ok x q) :
    q.token.kind = .endInput := by
  obtain ⟨-, -, -, hend⟩ := schedule_eq_ok_iff.1 h
  exact hend

end Parser

namespace Schedule

variable {layout : Layout} {source : String} {e : Error}

theorem ofReading_of_ofSourceWith (h : ofSourceWith layout source = .error e) : e.OfReading := by
  obtain ⟨q, hq⟩ := ofSourceWith_eq_error_iff.1 h
  exact Parser.ofReading_of_parse hq

theorem ofReading_of_ofSource {zone : Zone} (h : ofSource source zone = .error e) :
    e.OfReading := by
  rw [ofSource] at h
  cases hsource : ofSourceWith {} source with
  | ok s =>
    rw [hsource] at h
    cases h
  | error e' =>
    rw [hsource] at h
    cases h
    exact ofReading_of_ofSourceWith hsource

theorem lexer_and_rules_agree :
    ((∀ (l : Lexer) (t : Token) (r : Lexer), l.next = .ok t r →
        (t.kind = .time → ∃ v, TimeOfDay.ofString (String.ofList t.lexeme) = .ok v) ∧
        (t.kind = .dayOfWeek → ∃ d, Weekday.ofName? t.lexeme = some d)) ∧
      ∀ word, Vocabulary.trie.contains word = true → ∃ kind, Vocabulary.kind? word = some kind) ∧
    ((∀ p s q, Parser.schedule p = .ok s q → q.token.kind = .endInput) ∧
      Parser.parse = (do Parser.advance; Parser.schedule)) ∧
    (∀ p e q, Parser.parse p = .error e q → e.OfReading) ∧
    (∀ layout source e, ofSourceWith layout source = .error e → e.OfReading) ∧
    ∀ source zone e, ofSource source zone = .error e → e.OfReading := by
  refine ⟨⟨fun l t r h => ⟨Lexer.exists_ofString_of_time h, (Lexer.legible_of_next h).exists_day⟩,
    fun word => Vocabulary.exists_kind?_of_contains⟩,
    ⟨fun p s q => Parser.kind_eq_endInput_of_schedule, Parser.parse_eq⟩, ?_, ?_, ?_⟩
  · exact fun p e q => Parser.ofReading_of_parse
  · exact fun layout source e => ofReading_of_ofSourceWith
  · exact fun source zone e => ofReading_of_ofSource

theorem lexer_and_rules_agree_between_digits :
    let layout : Layout := ⟨['0', '1'], '\n'⟩
    let l := Lexer.ofString "0102030" layout
    let e : Error := .unexpectedToken ⟨⟨0, 3⟩, "0102030".toList⟩ [.dayOfWeek] .time
    (∃ r, l.next = .ok ⟨.time, "2030".toList, ⟨0, 3⟩⟩ r) ∧
      (∃ v, TimeOfDay.ofString "2030" = .ok v) ∧
      ofSourceWith layout "0102030" = .error e ∧ e.OfReading := by
  intro layout l e
  obtain ⟨⟨hlexemes, -⟩, -, -, herrors, -⟩ := lexer_and_rules_agree
  have hnext : l.next = .ok ⟨.time, "2030".toList, ⟨0, 3⟩⟩ { l with cursor := ⟨7, 0, 0⟩ } :=
    Lexer.next_eq_ok_iff.2 (by decide +kernel +zetaReduce)
  have herror : ofSourceWith layout "0102030" = .error e := by decide +kernel +zetaReduce
  exact ⟨⟨_, hnext⟩, (hlexemes _ _ _ hnext).1 rfl, herror, herrors _ _ _ herror⟩

end Schedule

end Timetable
