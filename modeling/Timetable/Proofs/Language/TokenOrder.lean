import Mathlib.Data.List.Induction
import Timetable.Proofs.Language.Stream

namespace Timetable

namespace Cursor

def Before (k k' : Cursor) : Prop :=
  k.line < k'.line ∨ k.line = k'.line ∧ k.lineStart = k'.lineStart ∧ k.offset < k'.offset

variable {endOfLine : Char} {k k' k'' : Cursor}

theorem Before.trans (h : k.Before k') (h' : k'.Before k'') : k.Before k'' := by
  unfold Before at *
  omega

theorem before_step (endOfLine : Char) (k : Cursor) (c : Char) : k.Before (step endOfLine k c) := by
  unfold step Before
  split
  · exact .inl (Nat.lt_succ_self _)
  · exact .inr ⟨rfl, rfl, Nat.lt_succ_self _⟩

def UpTo (k k' : Cursor) : Prop :=
  k = k' ∨ k.Before k'

theorem UpTo.trans (h : k.UpTo k') (h' : k'.UpTo k'') : k.UpTo k'' := by
  rcases h with rfl | h
  · exact h'
  · rcases h' with rfl | h'
    · exact .inr h
    · exact .inr (h.trans h')

theorem Before.trans_upTo (h : k.Before k') (h' : k'.UpTo k'') : k.Before k'' := by
  rcases h' with rfl | h'
  · exact h
  · exact h.trans h'

theorem upTo_past (endOfLine : Char) (k : Cursor) (cs : List Char) :
    k.UpTo (past endOfLine k cs) := by
  induction cs generalizing k with
  | nil => exact .inl rfl
  | cons c cs ih => exact .inr ((before_step endOfLine k c).trans_upTo (ih _))

theorem before_past (k : Cursor) {cs : List Char} (h : cs ≠ []) :
    k.Before (past endOfLine k cs) := by
  obtain ⟨c, cs, rfl⟩ := List.exists_cons_of_ne_nil h
  exact (before_step endOfLine k c).trans_upTo (upTo_past endOfLine _ cs)

def Proper (k : Cursor) : Prop :=
  k.lineStart ≤ k.offset

theorem Proper.past (h : k.Proper) (cs : List Char) : (past endOfLine k cs).Proper := by
  induction cs generalizing k with
  | nil => exact h
  | cons c cs ih =>
    apply ih
    unfold Proper step at *
    split
    · exact Nat.le_refl _
    · exact Nat.le_succ_of_le h

theorem Before.position_ne (h : k.Before k') (hk : k.Proper) : k.position ≠ k'.position := by
  intro heq
  injection heq with hline hcolumn
  unfold Before Proper at *
  omega

end Cursor

theorem Scan.kind_ne_endInput_of_cons {c : Char} {cs : List Char} {kind : TokenKind}
    (h : (ofChars (c :: cs)).outcome = .ok kind) : kind ≠ .endInput := by
  rintro rfl
  rw [ofChars] at h
  split at h
  · have hword := kind_of_classify h
    unfold Vocabulary.kind? at hword
    split at hword
    · cases hword
    · split at hword
      · cases hword
      · obtain ⟨d, -, hd⟩ := Option.map_eq_some_iff.1 hword
        cases hd
  · split at h
    · obtain ⟨hk, -⟩ := exists_digits_of_time h
      cases hk
    · split at h <;> cases h

namespace Lexer

variable {l l' r r' : Lexer} {t t' : Token} {ts us : List Token}

theorem next_eq_ok_iff :
    l.next = .ok t r ↔
      (Scan.ofChars l.skipSeparators.rest).outcome = .ok t.kind ∧
        (Scan.ofChars l.skipSeparators.rest).lexeme = t.lexeme ∧
        l.skipSeparators.position = t.position ∧ l.skipSeparators.past t.lexeme = r := by
  obtain ⟨kind, lexeme, position⟩ := t
  simp only [next]
  constructor
  · intro h
    split at h
    · next hkind =>
      cases h
      exact ⟨hkind, rfl, rfl, rfl⟩
    · cases h
  · rintro ⟨hkind, rfl, rfl, rfl⟩
    split
    · next hkind' =>
      rw [hkind] at hkind'
      cases hkind'
      rfl
    · next herror =>
      rw [hkind] at herror
      cases herror

theorem next_eq_error_iff {e : Error} :
    l.next = .error e r ↔
      ∃ why, (Scan.ofChars l.skipSeparators.rest).outcome = .error why ∧
        l.skipSeparators.past (Scan.ofChars l.skipSeparators.rest).lexeme = r ∧
        r.refuse why = e := by
  simp only [next]
  constructor
  · intro h
    split at h
    · cases h
    · next why hwhy =>
      cases h
      exact ⟨why, hwhy, rfl, rfl⟩
  · rintro ⟨why, hwhy, rfl, rfl⟩
    split
    · next hkind =>
      rw [hwhy] at hkind
      cases hkind
    · next hwhy' =>
      rw [hwhy] at hwhy'
      cases hwhy'
      rfl

theorem past_nil (l : Lexer) : l.past [] = l := rfl

theorem lexeme_ne_nil_of_next (h : l.next = .ok t r) (ht : t.kind ≠ .endInput) : t.lexeme ≠ [] := by
  obtain ⟨hkind, hlexeme, -, -⟩ := next_eq_ok_iff.1 h
  rw [← hlexeme]
  exact Scan.lexeme_ne_nil hkind ht

theorem rest_eq_nil_of_endInput (h : l.next = .ok t r) (ht : t.kind = .endInput) :
    l.skipSeparators.rest = [] := by
  obtain ⟨hkind, -, -, -⟩ := next_eq_ok_iff.1 h
  cases hcs : l.skipSeparators.rest with
  | nil => rfl
  | cons c cs =>
    rw [hcs] at hkind
    exact absurd ht (Scan.kind_ne_endInput_of_cons hkind)

theorem next_of_endInput (h : l.next = .ok t r) (ht : t.kind = .endInput) : r.next = .ok t r := by
  obtain ⟨hkind, hlexeme, hposition, rfl⟩ := next_eq_ok_iff.1 h
  have hrest := rest_eq_nil_of_endInput h ht
  rw [hrest] at hkind hlexeme
  rw [← hlexeme, Scan.ofChars, past_nil]
  have hskip : l.skipSeparators.skipSeparators = l.skipSeparators := by
    rw [skipSeparators, hrest, List.takeWhile_nil, past_nil]
  refine next_eq_ok_iff.2 ⟨?_, ?_, ?_, ?_⟩
  all_goals rw [hskip]
  · rwa [hrest]
  · rwa [hrest]
  · exact hposition
  · rw [← hlexeme]
    rfl

theorem spotAt_of_next (h : l.next = .ok t r) (p : Text.Position) : r.spotAt p = l.spotAt p := by
  obtain ⟨-, -, -, rfl⟩ := next_eq_ok_iff.1 h
  rfl

theorem upTo_of_next (h : l.next = .ok t r) : l.cursor.UpTo r.cursor := by
  obtain ⟨-, -, -, rfl⟩ := next_eq_ok_iff.1 h
  exact (Cursor.upTo_past _ _ _).trans (Cursor.upTo_past _ _ _)

theorem proper_of_next (hl : l.cursor.Proper) (h : l.next = .ok t r) : r.cursor.Proper := by
  obtain ⟨-, -, -, rfl⟩ := next_eq_ok_iff.1 h
  exact (hl.past _).past _

namespace Reads

theorem spotAt_eq (h : l.Reads ts r) (p : Text.Position) : r.spotAt p = l.spotAt p := by
  induction h with
  | nil => rfl
  | cons h _ ih => rw [ih, spotAt_of_next h]

theorem append_iff : l.Reads (ts ++ us) r ↔ ∃ l', l.Reads ts l' ∧ l'.Reads us r := by
  constructor
  · exact of_append
  · rintro ⟨l', hts, hus⟩
    induction hts with
    | nil => exact hus
    | cons h _ ih => exact .cons h (ih hus)

theorem concat_iff : l.Reads (ts ++ [t]) r ↔ ∃ l', l.Reads ts l' ∧ l'.next = .ok t r := by
  simp only [append_iff, singleton_iff]

theorem comparable (h : l.Reads ts r) (h' : l.Reads us r') :
    (∃ vs, us = ts ++ vs ∧ r.Reads vs r') ∨ ∃ vs, ts = us ++ vs ∧ r'.Reads vs r := by
  induction h generalizing us with
  | nil => exact .inl ⟨us, rfl, h'⟩
  | @cons l q r t ts h hs ih =>
    cases us with
    | nil =>
      cases h'
      exact .inr ⟨t :: ts, rfl, .cons h hs⟩
    | cons u us =>
      obtain ⟨q', hu, hus⟩ := cons_iff.1 h'
      rw [h] at hu
      cases hu
      rcases ih hus with ⟨vs, rfl, hvs⟩ | ⟨vs, rfl, hvs⟩
      · exact .inl ⟨vs, rfl, hvs⟩
      · exact .inr ⟨vs, rfl, hvs⟩

theorem eq_of_next_eq_self (h : l.next = .ok t l) (hts : l.Reads ts r) : r = l := by
  induction ts with
  | nil =>
    cases hts
    rfl
  | cons u ts ih =>
    obtain ⟨q, hu, hrest⟩ := cons_iff.1 hts
    rw [h] at hu
    cases hu
    exact ih hrest

theorem exists_position (h : l.Reads (ts ++ [t]) r) :
    ∃ k, t.position = k.position ∧ l.cursor.UpTo k := by
  induction ts generalizing l with
  | nil =>
    obtain ⟨-, -, hposition, -⟩ := next_eq_ok_iff.1 (singleton_iff.1 h)
    exact ⟨_, hposition.symm, Cursor.upTo_past _ _ _⟩
  | cons u ts ih =>
    obtain ⟨q, hu, hrest⟩ := cons_iff.1 h
    obtain ⟨k, hk, hupTo⟩ := ih hrest
    exact ⟨k, hk, (upTo_of_next hu).trans hupTo⟩

theorem position_ne (hl : l.cursor.Proper) (h : l.Reads (t :: (ts ++ [t'])) r)
    (ht : t.kind ≠ .endInput) : t.position ≠ t'.position := by
  obtain ⟨q, hnext, hrest⟩ := cons_iff.1 h
  obtain ⟨k, hk, hupTo⟩ := hrest.exists_position
  have hne := lexeme_ne_nil_of_next hnext ht
  obtain ⟨-, -, hposition, rfl⟩ := next_eq_ok_iff.1 hnext
  rw [hk, ← hposition]
  exact ((Cursor.before_past _ hne).trans_upTo hupTo).position_ne (hl.past _)

theorem proper (hl : l.cursor.Proper) (h : l.Reads ts r) : r.cursor.Proper := by
  induction h with
  | nil => exact hl
  | cons h _ ih => exact ih (proper_of_next hl h)

theorem position_ne_of_append (hl : l.cursor.Proper) {u : Token}
    (h : l.Reads (us ++ [u] ++ ts ++ [t]) r) (hu : u.kind ≠ .endInput) :
    u.position ≠ t.position := by
  rw [List.append_assoc, List.append_assoc] at h
  obtain ⟨q, hus, hrest⟩ := append_iff.1 h
  exact position_ne (hus.proper hl) hrest hu

theorem eq_of_position_eq (hl : l.cursor.Proper) {u : Token} (h : l.Reads (ts ++ [t]) r)
    (h' : l.Reads (us ++ [u]) r') (hts : ∀ v ∈ ts, v.kind ≠ .endInput)
    (hus : ∀ v ∈ us, v.kind ≠ .endInput) (hposition : t.position = u.position) :
    ts = us ∧ t = u := by
  have hlonger {ts us : List Token} {t u : Token} {r : Lexer} {vs : List Token}
      (h : l.Reads (ts ++ [t]) r) (hts : ∀ v ∈ ts, v.kind ≠ .endInput)
      (heq : ts ++ [t] = us ++ [u] ++ vs) (hne : t.position = u.position) : ts = us ∧ t = u := by
    cases vs using List.reverseRecOn with
    | nil => simpa using heq
    | append_singleton vs v =>
      rw [← List.append_assoc] at heq
      obtain ⟨rfl, rfl⟩ := List.append_inj' heq rfl |>.imp id List.singleton_inj.1
      exact absurd hne.symm (position_ne_of_append hl h (hts u (by simp)))
  rcases h.comparable h' with ⟨vs, heq, -⟩ | ⟨vs, heq, -⟩
  · exact (hlonger h' hus heq hposition.symm).imp Eq.symm Eq.symm
  · exact hlonger h hts heq hposition

end Reads

theorem Yields.unique (h : l.Yields ts) (h' : l.Yields us) : ts = us := by
  have hlonger {ts us vs : List Token} {e e' : Token} (he : e.kind = .endInput)
      (hus : ∀ u ∈ us, u.kind ≠ .endInput) (heq : us ++ [e'] = ts ++ [e] ++ vs) : ts = us := by
    cases vs using List.reverseRecOn with
    | nil =>
      rw [List.append_nil] at heq
      exact (List.append_inj' heq rfl).1.symm
    | append_singleton vs v =>
      rw [← List.append_assoc] at heq
      obtain ⟨rfl, -⟩ := List.append_inj' heq rfl
      exact absurd he (hus e (by simp))
  obtain ⟨e, r, hreads, he, hts⟩ := h
  obtain ⟨e', r', hreads', he', hus⟩ := h'
  rcases hreads.comparable hreads' with ⟨vs, heq, -⟩ | ⟨vs, heq, -⟩
  · exact hlonger he hus heq
  · exact (hlonger he' hts heq).symm

end Lexer

end Timetable
