import Timetable.Language.Lexer
import Timetable.Proofs.Language.TimeLexeme

namespace Timetable

inductive Symbol where
  | directive (d : Directive)
  | day (d : Weekday)
  | time (t : TimeOfDay)
  | dash
  deriving DecidableEq, Repr

def Symbol.kind : Symbol → TokenKind
  | .directive .allow => .allow
  | .directive .forbid => .forbid
  | .day _ => .dayOfWeek
  | .time _ => .time
  | .dash => .dash

namespace Symbol

def names : Symbol → List String
  | .directive d => [d.name]
  | .day d => [d.fullName, d.shortName]
  | _ => []

inductive Spelling : Symbol → List Char → Prop
  | word {x : Symbol} {name : String} {cs : List Char} (hname : name ∈ x.names)
      (h : cs.map Char.toLower = name.toList) : Spelling x cs
  | time (t : TimeOfDay) : Spelling (.time t) t.digits
  | dash : Spelling .dash ['-']

theorem mem_words_of_mem_names {x : Symbol} {name : String} (h : name ∈ x.names) :
    name ∈ Vocabulary.words := by
  cases x with
  | directive d =>
    revert name
    cases d <;> decide
  | day d =>
    revert name
    cases d <;> decide
  | time t => cases h
  | dash => cases h

theorem map_toLower_of_mem_names {x : Symbol} {name : String} (h : name ∈ x.names) :
    name.toList.map Char.toLower = name.toList := by
  have hnames : ∀ name ∈ Vocabulary.words, name.toList.map Char.toLower = name.toList := by decide
  exact hnames name (mem_words_of_mem_names h)

theorem kind_ne_endInput (x : Symbol) : x.kind ≠ .endInput := by
  rcases x with (_ | _) | _ | _ | _ <;> simp [kind]

theorem kind_eq_directive_iff {x : Symbol} {d : Directive} :
    x.kind = (directive d).kind ↔ x = .directive d := by
  rcases x with (_ | _) | _ | _ | _ <;> cases d <;> simp [kind]

theorem kind_eq_dayOfWeek_iff {x : Symbol} : x.kind = .dayOfWeek ↔ ∃ d, x = .day d := by
  rcases x with (_ | _) | _ | _ | _ <;> simp [kind]

theorem kind_eq_time_iff {x : Symbol} : x.kind = .time ↔ ∃ t, x = .time t := by
  rcases x with (_ | _) | _ | _ | _ <;> simp [kind]

theorem kind_eq_dash_iff {x : Symbol} : x.kind = .dash ↔ x = .dash := by
  rcases x with (_ | _) | _ | _ | _ <;> simp [kind]

end Symbol

theorem Weekday.ofName?_eq_some_iff {cs : List Char} {d : Weekday} :
    ofName? cs = some d ↔ ∃ name ∈ (Symbol.day d).names, cs.map Char.toLower = name.toList := by
  constructor
  · intro h
    have hfound := List.find?_some h
    rw [Bool.or_eq_true, decide_eq_true_eq, decide_eq_true_eq] at hfound
    rcases hfound with hfull | hshort
    · exact ⟨_, List.mem_cons_self, hfull⟩
    · exact ⟨_, List.mem_cons_of_mem _ List.mem_cons_self, hshort⟩
  · rintro ⟨name, hname, hcs⟩
    have hself : ofName? cs = ofName? name.toList := by
      simp only [ofName?, hcs, Symbol.map_toLower_of_mem_names hname]
    rw [hself]
    rcases List.mem_pair.1 hname with rfl | rfl
    · exact d.ofName?_fullName
    · exact d.ofName?_shortName

namespace Token

def symbol? (t : Token) : Option Symbol :=
  match t.kind with
  | .endInput => none
  | .allow => some (.directive .allow)
  | .forbid => some (.directive .forbid)
  | .dayOfWeek => (Weekday.ofName? t.lexeme).map .day
  | .time => (TimeOfDay.ofDigits? t.lexeme).map .time
  | .dash => some .dash

theorem kind_of_symbol? {t : Token} {x : Symbol} (h : t.symbol? = some x) : t.kind = x.kind := by
  obtain ⟨kind, lexeme, position⟩ := t
  cases kind with
  | endInput => cases h
  | allow => cases h; rfl
  | forbid => cases h; rfl
  | dash => cases h; rfl
  | dayOfWeek =>
    obtain ⟨d, -, rfl⟩ := Option.map_eq_some_iff.1 h
    rfl
  | time =>
    obtain ⟨d, -, rfl⟩ := Option.map_eq_some_iff.1 h
    rfl

theorem symbol?_eq_dash_iff {t : Token} : t.symbol? = some .dash ↔ t.kind = .dash := by
  obtain ⟨kind, lexeme, position⟩ := t
  cases kind <;> simp [symbol?]

theorem symbol?_eq_directive_iff {t : Token} {d : Directive} :
    t.symbol? = some (.directive d) ↔ t.kind = (Symbol.directive d).kind := by
  obtain ⟨kind, lexeme, position⟩ := t
  cases kind <;> cases d <;> simp [symbol?, Symbol.kind]

theorem symbol?_eq_day_iff {t : Token} {d : Weekday} :
    t.symbol? = some (.day d) ↔ t.kind = .dayOfWeek ∧ Weekday.ofName? t.lexeme = some d := by
  obtain ⟨kind, lexeme, position⟩ := t
  cases kind <;> simp [symbol?]

theorem symbol?_eq_time_iff {t : Token} {v : TimeOfDay} :
    t.symbol? = some (.time v) ↔ t.kind = .time ∧ TimeOfDay.ofDigits? t.lexeme = some v := by
  obtain ⟨kind, lexeme, position⟩ := t
  cases kind <;> simp [symbol?]

end Token

theorem Symbol.Spelling.symbol? {x : Symbol} {cs : List Char} (h : x.Spelling cs)
    (p : Text.Position) : Token.symbol? ⟨x.kind, cs, p⟩ = some x := by
  cases h with
  | word hname hcs =>
    cases x with
    | directive d => exact Token.symbol?_eq_directive_iff.2 rfl
    | day d =>
      exact Token.symbol?_eq_day_iff.2 ⟨rfl, Weekday.ofName?_eq_some_iff.2 ⟨_, hname, hcs⟩⟩
    | time t => cases hname
    | dash => cases hname
  | time t => exact Token.symbol?_eq_time_iff.2 ⟨rfl, t.ofDigits?_digits⟩
  | dash => rfl

namespace Token

variable {t : Token} {x : Symbol}

structure StandsFor (t : Token) (x : Symbol) : Prop where
  kind_eq : t.kind = x.kind
  spelling : x.Spelling t.lexeme

theorem StandsFor.symbol? (h : t.StandsFor x) : t.symbol? = some x := by
  obtain ⟨kind, lexeme, position⟩ := t
  obtain ⟨rfl, hspelling⟩ := h
  exact hspelling.symbol? position

def Legible (t : Token) : Prop :=
  t.kind ≠ .endInput → ∃ x, t.StandsFor x

theorem Legible.symbol?_eq_some_iff (h : t.Legible) : t.symbol? = some x ↔ t.StandsFor x := by
  constructor
  · intro hx
    have hkind := kind_of_symbol? hx
    obtain ⟨y, hy⟩ := h (by rw [hkind]; exact x.kind_ne_endInput)
    rw [hy.symbol?] at hx
    obtain rfl := Option.some.inj hx
    exact hy
  · exact StandsFor.symbol?

theorem Legible.exists_day (h : t.Legible) (hk : t.kind = .dayOfWeek) :
    ∃ d, Weekday.ofName? t.lexeme = some d := by
  obtain ⟨x, hx⟩ := h (by simp [hk])
  obtain ⟨d, rfl⟩ := Symbol.kind_eq_dayOfWeek_iff.1 (hx.kind_eq.symm.trans hk)
  exact ⟨d, (symbol?_eq_day_iff.1 hx.symbol?).2⟩

theorem Legible.exists_time (h : t.Legible) (hk : t.kind = .time) :
    ∃ v, TimeOfDay.ofDigits? t.lexeme = some v := by
  obtain ⟨x, hx⟩ := h (by simp [hk])
  obtain ⟨v, rfl⟩ := Symbol.kind_eq_time_iff.1 (hx.kind_eq.symm.trans hk)
  exact ⟨v, (symbol?_eq_time_iff.1 hx.symbol?).2⟩

end Token

namespace Scan

theorem kind_of_classify {word : List Char} {kind : TokenKind} (h : classify word = .ok kind) :
    Vocabulary.kind? word = some kind := by
  simp only [classify] at h
  split at h
  · split at h
    · next hk =>
      cases h
      exact hk
    · cases h
  · split at h <;> cases h

theorem exists_spelling_of_kind? {word : List Char} {kind : TokenKind}
    (h : Vocabulary.kind? word = some kind) : ∃ x : Symbol, kind = x.kind ∧ x.Spelling word := by
  simp only [Vocabulary.kind?] at h
  split at h
  · next hallow =>
    cases h
    exact ⟨.directive .allow, rfl, .word List.mem_cons_self hallow⟩
  · split at h
    · next hforbid =>
      cases h
      exact ⟨.directive .forbid, rfl, .word List.mem_cons_self hforbid⟩
    · obtain ⟨d, hd, rfl⟩ := Option.map_eq_some_iff.1 h
      obtain ⟨name, hname, hword⟩ := Weekday.ofName?_eq_some_iff.1 hd
      exact ⟨.day d, rfl, .word hname hword⟩

theorem exists_spelling_of_ofChars {cs : List Char} {kind : TokenKind}
    (h : (ofChars cs).outcome = .ok kind) (hk : kind ≠ .endInput) :
    ∃ x : Symbol, kind = x.kind ∧ x.Spelling (ofChars cs).lexeme := by
  fun_cases ofChars cs with
  | case1 =>
    cases h
    exact absurd rfl hk
  | case2 c cs hc =>
    rw [ofChars, if_pos hc] at h
    exact exists_spelling_of_kind? (kind_of_classify h)
  | case3 c cs hc hdigit =>
    rw [ofChars, if_neg hc, if_pos hdigit] at h
    obtain ⟨rfl, t, ht⟩ := exists_digits_of_time h
    rw [← ht]
    exact ⟨.time t, rfl, .time t⟩
  | case4 cs hc hdigit =>
    rw [ofChars, if_neg hc, if_neg hdigit, if_pos rfl] at h
    cases h
    exact ⟨.dash, rfl, .dash⟩
  | case5 c cs hc hdigit hdash =>
    rw [ofChars, if_neg hc, if_neg hdigit, if_neg hdash] at h
    cases h

end Scan

namespace Lexer

variable {l l' : Lexer} {t : Token}

theorem legible_of_next (h : l.next = .ok t l') : t.Legible := by
  intro hk
  simp only [next] at h
  split at h
  · next hkind =>
    cases h
    obtain ⟨x, hx, hspelling⟩ := Scan.exists_spelling_of_ofChars hkind hk
    exact ⟨x, hx, hspelling⟩
  · cases h

end Lexer

end Timetable
