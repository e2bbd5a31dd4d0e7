import Timetable.Language.Lexer

namespace Timetable

structure Parser where
  lexer : Lexer
  token : Token
  deriving DecidableEq, Repr

abbrev Parse := EStateM Error Parser

namespace Parser

def ofLexer (l : Lexer) : Parser := ⟨l, ⟨.endInput, [], ⟨0, 0⟩⟩⟩

def size (p : Parser) : Nat :=
  p.lexer.rest.length + if p.token.kind = .endInput then 0 else 1

def Shrinks {α : Type} (rule : Parse α) : Prop :=
  ∀ p a q, rule p = .ok a q → q.size < p.size

def Keeps {α : Type} (rule : Parse α) : Prop :=
  ∀ p a q, rule p = .ok a q → q.size ≤ p.size

theorem Shrinks.keeps {α : Type} {rule : Parse α} (h : Shrinks rule) : Keeps rule :=
  fun p a q e => Nat.le_of_lt (h p a q e)

theorem bind_eq_ok {α β : Type} {rule : Parse α} {next : α → Parse β} {p q : Parser} {b : β}
    (h : (rule >>= next) p = .ok b q) : ∃ a r, rule p = .ok a r ∧ next a r = .ok b q := by
  change EStateM.bind rule next p = _ at h
  unfold EStateM.bind at h
  split at h
  · next a r e => exact ⟨a, r, e, h⟩
  · cases h

theorem Keeps.pure {α : Type} (a : α) : Keeps (pure a) := by
  intro p b q h
  cases h
  exact Nat.le_refl _

theorem Keeps.bind {α β : Type} {rule : Parse α} {next : α → Parse β} (h : Keeps rule)
    (h' : ∀ a, Keeps (next a)) : Keeps (rule >>= next) := by
  intro p b q e
  obtain ⟨a, r, e₁, e₂⟩ := bind_eq_ok e
  exact Nat.le_trans (h' a r b q e₂) (h p a r e₁)

theorem Keeps.bind_shrinks {α β : Type} {rule : Parse α} {next : α → Parse β} (h : Keeps rule)
    (h' : ∀ a, Shrinks (next a)) : Shrinks (rule >>= next) := by
  intro p b q e
  obtain ⟨a, r, e₁, e₂⟩ := bind_eq_ok e
  exact Nat.lt_of_lt_of_le (h' a r b q e₂) (h p a r e₁)

theorem Shrinks.bind {α β : Type} {rule : Parse α} {next : α → Parse β} (h : Shrinks rule)
    (h' : ∀ a, Keeps (next a)) : Shrinks (rule >>= next) := by
  intro p b q e
  obtain ⟨a, r, e₁, e₂⟩ := bind_eq_ok e
  exact Nat.lt_of_le_of_lt (h' a r b q e₂) (h p a r e₁)

def advance : Parse Unit := fun p =>
  match p.lexer.next with
  | .ok token lexer => .ok () ⟨lexer, token⟩
  | .error e lexer => .error e { p with lexer := lexer }

theorem length_rest_advance {p q : Parser} (h : advance p = .ok () q) :
    q.size ≤ p.lexer.rest.length := by
  unfold advance at h
  split at h
  · next e =>
    cases h
    exact Lexer.length_rest_next e
  · cases h

theorem keeps_advance : Keeps advance := fun _ _ _ h =>
  Nat.le_trans (length_rest_advance h) (Nat.le_add_right _ _)

theorem size_advance_lt {p q : Parser} (h : advance p = .ok () q)
    (hk : p.token.kind ≠ .endInput) : q.size < p.size := by
  have := length_rest_advance h
  simp only [size, hk, if_false] at this ⊢
  omega

def onKind {α : Type} (rule : TokenKind → Parse α) : Parse α := fun p =>
  rule p.token.kind p

theorem Shrinks.onKind {α : Type} {rule : TokenKind → Parse α} (h : ∀ k, Shrinks (rule k)) :
    Shrinks (onKind rule) :=
  fun p => h p.token.kind p

theorem Keeps.onKind {α : Type} {rule : TokenKind → Parse α} (h : ∀ k, Keeps (rule k)) :
    Keeps (onKind rule) :=
  fun p => h p.token.kind p

def unexpected {α : Type} (expected : List TokenKind) : Parse α := fun p =>
  .error (.unexpectedToken (p.lexer.spotAt p.token.position) expected p.token.kind) p

theorem shrinks_unexpected {α : Type} (expected : List TokenKind) :
    Shrinks (unexpected expected : Parse α) := by
  intro p a q h
  cases h

def take {α : Type} (a : α) : Parse α := do
  advance
  return a

theorem size_take_lt {α : Type} {a b : α} {p q : Parser} (h : take a p = .ok b q)
    (hk : p.token.kind ≠ .endInput) : q.size < p.size := by
  obtain ⟨_, r, e₁, e₂⟩ := bind_eq_ok h
  cases e₂
  exact size_advance_lt e₁ hk

def oneOrMore {α : Type} (begins : TokenKind → Bool) (item : Parse α) (h : Shrinks item) :
    Parse (List α) := fun p =>
  match _read : item p with
  | .ok a q =>
    if begins q.token.kind then
      match oneOrMore begins item h q with
      | .ok as r => .ok (a :: as) r
      | .error e r => .error e r
    else
      .ok [a] q
  | .error e q => .error e q
termination_by p => p.size
decreasing_by exact h _ _ _ _read

theorem Shrinks.oneOrMore {α : Type} {begins : TokenKind → Bool} {item : Parse α}
    (h : Shrinks item) : Shrinks (oneOrMore begins item h) := by
  intro p
  induction hn : p.size using Nat.strongRecOn generalizing p with
  | _ n ih =>
    intro as q e
    unfold Parser.oneOrMore at e
    split at e
    · next a r e₁ =>
      have h₁ := h _ _ _ e₁
      split at e
      · split at e
        · next as' r' e₂ =>
          cases e
          have := ih r.size (hn ▸ h₁) r rfl _ _ e₂
          omega
        · cases e
      · cases e
        omega
    · cases e

end Parser

end Timetable
