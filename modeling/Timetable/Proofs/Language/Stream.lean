import Timetable.Proofs.Language.Symbol

namespace Timetable

namespace Token

theorem map_symbol?_eq_iff {ts : List Token} {xs : List Symbol} (h : ∀ t ∈ ts, t.Legible) :
    ts.map symbol? = xs.map some ↔ List.Forall₂ StandsFor ts xs := by
  induction ts generalizing xs with
  | nil => cases xs <;> simp
  | cons t ts ih =>
    obtain ⟨ht, hts⟩ := List.forall_mem_cons.1 h
    cases xs with
    | nil => simp
    | cons x xs =>
      rw [List.map_cons, List.map_cons, List.cons.injEq, List.forall₂_cons, ih hts,
        ht.symbol?_eq_some_iff]

theorem exists_symbols {ts : List Token} (h : ∀ t ∈ ts, ∃ x, t.StandsFor x) :
    ∃ xs : List Symbol, ts.map symbol? = xs.map some := by
  induction ts with
  | nil => exact ⟨[], rfl⟩
  | cons t ts ih =>
    obtain ⟨⟨x, hx⟩, hts⟩ := List.forall_mem_cons.1 h
    obtain ⟨xs, hxs⟩ := ih hts
    exact ⟨x :: xs, by rw [List.map_cons, List.map_cons, hx.symbol?, hxs]⟩

theorem map_kind_of_symbols {ts : List Token} {xs : List Symbol}
    (h : ts.map symbol? = xs.map some) : ts.map kind = xs.map Symbol.kind := by
  induction ts generalizing xs with
  | nil =>
    rw [List.map_eq_nil_iff.1 h.symm]
    rfl
  | cons t ts ih =>
    obtain ⟨x, ys, rfl, hx, hys⟩ := List.map_eq_cons_iff.1 h.symm
    rw [List.map_cons, List.map_cons, ih hys.symm, kind_of_symbol? hx.symm]

theorem kind_ne_endInput_of_symbols {ts : List Token} {xs : List Symbol}
    (h : ts.map symbol? = xs.map some) : ∀ t ∈ ts, t.kind ≠ .endInput := by
  intro t ht hk
  have hkinds : t.kind ∈ xs.map Symbol.kind := by
    rw [← map_kind_of_symbols h]
    exact List.mem_map_of_mem ht
  obtain ⟨x, -, hx⟩ := List.mem_map.1 hkinds
  exact x.kind_ne_endInput (hx.trans hk)

end Token

namespace Lexer

inductive Reads : Lexer → List Token → Lexer → Prop
  | nil (l : Lexer) : Reads l [] l
  | cons {l r l' : Lexer} {t : Token} {ts : List Token} (h : l.next = .ok t r) (hs : Reads r ts l') :
      Reads l (t :: ts) l'

def Yields (l : Lexer) (ts : List Token) : Prop :=
  ∃ e l', l.Reads (ts ++ [e]) l' ∧ e.kind = .endInput ∧ ∀ t ∈ ts, t.kind ≠ .endInput

theorem Reads.cons_iff {l l' : Lexer} {t : Token} {ts : List Token} :
    l.Reads (t :: ts) l' ↔ ∃ r, l.next = .ok t r ∧ r.Reads ts l' := by
  constructor
  · rintro (_ | ⟨h, hs⟩)
    exact ⟨_, h, hs⟩
  · rintro ⟨r, h, hs⟩
    exact .cons h hs

theorem Reads.singleton_iff {l l' : Lexer} {t : Token} : l.Reads [t] l' ↔ l.next = .ok t l' := by
  rw [Reads.cons_iff]
  constructor
  · rintro ⟨_, h, _ | _⟩
    exact h
  · intro h
    exact ⟨l', h, .nil l'⟩

theorem Reads.legible {l l' : Lexer} {ts : List Token} (h : l.Reads ts l') :
    ∀ t ∈ ts, t.Legible := by
  induction h with
  | nil => simp
  | cons h _ ih => exact List.forall_mem_cons.2 ⟨legible_of_next h, ih⟩

theorem Reads.of_append {l l' : Lexer} {ts us : List Token} (h : l.Reads (ts ++ us) l') :
    ∃ r, l.Reads ts r ∧ r.Reads us l' := by
  induction ts generalizing l with
  | nil => exact ⟨l, .nil l, h⟩
  | cons t ts ih =>
    obtain ⟨_, ht, h⟩ := Reads.cons_iff.1 h
    obtain ⟨r, hts, hus⟩ := ih h
    exact ⟨r, .cons ht hts, hus⟩

theorem Yields.nil {l l' : Lexer} {t : Token} (h : l.next = .ok t l') (ht : t.kind = .endInput) :
    l.Yields [] :=
  ⟨t, l', Reads.singleton_iff.2 h, ht, by simp⟩

theorem Yields.cons {l r : Lexer} {t : Token} {ts : List Token} (h : l.next = .ok t r)
    (ht : t.kind ≠ .endInput) (hts : r.Yields ts) : l.Yields (t :: ts) := by
  obtain ⟨e, l', hreads, he, hkinds⟩ := hts
  exact ⟨e, l', .cons h hreads, he, List.forall_mem_cons.2 ⟨ht, hkinds⟩⟩

theorem Yields.legible {l : Lexer} {ts : List Token} (h : l.Yields ts) : ∀ t ∈ ts, t.Legible := by
  obtain ⟨_, _, hreads, -⟩ := h
  exact fun t ht => hreads.legible t (List.mem_append_left _ ht)

theorem Yields.exists_symbols {l : Lexer} {ts : List Token} (h : l.Yields ts) :
    ∃ xs : List Symbol, ts.map Token.symbol? = xs.map some := by
  have hlegible := h.legible
  obtain ⟨_, _, -, -, hkinds⟩ := h
  exact Token.exists_symbols fun t ht => hlegible t ht (hkinds t ht)

end Lexer

end Timetable
