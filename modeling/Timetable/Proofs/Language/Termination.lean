import Timetable.Proofs.Language.Metered
import Timetable.Proofs.Language.Placement

namespace Timetable

namespace Lexer

variable {l r : Lexer} {t : Token}

theorem length_rest_le (l : Lexer) : l.rest.length ≤ l.buffer.length := by
  simp [rest]

theorem buffer_of_next (h : l.next = .ok t r) : r.buffer = l.buffer := by
  obtain ⟨-, -, -, rfl⟩ := next_eq_ok_iff.1 h
  rfl

end Lexer

namespace Metered

variable {α : Type} {metered : Metered α} {rule : Parse α} {p q : Parser} {a : α} {rounds : Nat}

theorem Counts.exists_passes (h : Counts metered rule p) (hok : rule p = .ok a q) :
    ∃ ts, p.Passes ts q ∧ ∀ t ∈ ts, t.kind ≠ .endInput := by
  obtain ⟨ts, r, hpasses, hts, hleaves, -⟩ := h
  rw [hok] at hleaves
  obtain rfl : q = r := hleaves
  exact ⟨ts, hpasses, hts⟩

theorem counts_afterAdvance (hp : p.size ≤ rounds) :
    Counts
      (do
        let schedule ← schedule rounds
        onKind fun
          | .endInput => return schedule
          | _ => unexpected [.endInput])
      (do
        let schedule ← Parser.schedule
        Parser.onKind fun
          | .endInput => return schedule
          | _ => Parser.unexpected [.endInput]) p := by
  refine (counts_schedule hp).bind fun schedule q _ _ => Counts.onKind ?_
  cases q.token.kind with
  | endInput => exact .pure schedule
  | _ => exact counts_unexpected _

theorem exists_reads_of_parse (hrounds : p.lexer.rest.length ≤ rounds) :
    ∃ ts r, p.lexer.Reads ts r.lexer ∧ (∀ t ∈ ts.dropLast, t.kind ≠ .endInput) ∧
      ts.length ≤ p.lexer.rest.length + 1 ∧ LeavesAt r (Parser.parse p) ∧
      parse rounds ⟨p, 0⟩ = outcomeAt ts.length (Parser.parse p) := by
  cases hp : Parser.advance p with
  | error e q =>
    have hparse : Parser.parse p = .error e q := Parser.bind_eq_error hp
    have hmetered : advance ⟨p, 0⟩ = .error (.error e) ⟨q, 0⟩ := by rw [advance, hp]
    refine ⟨[], p, .nil _, by simp, by simp, ?_, ?_⟩
    · rw [hparse]
      exact .inr (Parser.advance_eq_error_iff.1 hp)
    · rw [hparse]
      exact Parser.bind_eq_error hmetered
  | ok u q =>
    have hsize : q.size ≤ rounds := (Parser.length_rest_advance hp).trans hrounds
    have hmetered : advance ⟨p, 0⟩ = .ok () ⟨q, 1⟩ := by rw [advance, hp]
    obtain ⟨ts, r, hpasses, hts, hleaves, hcount⟩ := counts_afterAdvance hsize
    have hparse : Parser.parse p = _ := Parser.bind_of_ok hp
    have hlength := hpasses.length_add_size_le hts
    have hrest := Parser.length_rest_advance hp
    obtain ⟨us, hus, hreads⟩ := hpasses
    refine ⟨q.token :: us, r, .cons (Parser.advance_eq_ok_iff.1 hp) hreads, ?_, ?_, ?_, ?_⟩
    · rwa [hus, List.dropLast_concat]
    · rw [hus, List.length_append, List.length_singleton]
      omega
    · rwa [hparse]
    · rw [hparse, hus, List.length_append, Nat.add_comm]
      exact (Parser.bind_of_ok hmetered).trans (hcount 1)

end Metered

namespace Parser

open Metered (Counts LeavesAt outcomeAt)

structure GetsOn {α : Type} (begins : TokenKind → Bool) (item : Parse α) : Prop where
  stops : begins .endInput = false
  round : ∀ p, (∃ e q, item p = .error e q) ∨
    ∃ a q ts, item p = .ok a q ∧ p.Passes ts q ∧ ts ≠ [] ∧ ∀ t ∈ ts, t.kind ≠ .endInput

theorem getsOn_of_counts {α : Type} {begins : TokenKind → Bool} {item : Parse α}
    (metered : Nat → Metered α) (hend : begins .endInput = false) (hitem : Shrinks item)
    (hcounts : ∀ p, Counts (metered p.size) item p) : GetsOn begins item where
  stops := hend
  round p := by
    cases hp : item p with
    | error e q => exact .inl ⟨e, q, rfl⟩
    | ok a q =>
      obtain ⟨ts, hpasses, hts⟩ := (hcounts p).exists_passes hp
      refine .inr ⟨a, q, ts, rfl, hpasses, ?_, hts⟩
      rintro rfl
      obtain rfl := passes_nil_iff.1 hpasses
      exact Nat.lt_irrefl _ (hitem _ _ _ hp)

theorem getsOn_groups : GetsOn beginsGroup group :=
  getsOn_of_counts Metered.group rfl shrinks_group fun _ => Metered.counts_group (Nat.le_refl _)

theorem getsOn_agendas : GetsOn beginsAgenda agenda :=
  getsOn_of_counts Metered.agenda rfl shrinks_agenda fun _ => Metered.counts_agenda (Nat.le_refl _)

theorem getsOn_intervals : GetsOn beginsInterval interval :=
  getsOn_of_counts (fun _ => Metered.interval) rfl shrinks_interval fun _ => Metered.counts_interval

theorem every_call_ends :
    (∀ (p : Parser) (rounds : Nat), p.size ≤ rounds →
      Counts (Metered.schedule rounds) schedule p ∧ Counts (Metered.agendas rounds) agendas p ∧
      Counts (Metered.agenda rounds) agenda p ∧ Counts (Metered.intervals rounds) intervals p ∧
      Counts Metered.interval interval p ∧ Counts Metered.days days p) ∧
    (GetsOn beginsGroup group ∧ GetsOn beginsAgenda agenda ∧ GetsOn beginsInterval interval) ∧
    (∀ (l r : Lexer) (t : Token), l.next = .ok t r → t.kind ≠ .endInput →
      t.lexeme ≠ [] ∧ r.buffer = l.buffer ∧
        l.rest = l.rest.takeWhile l.layout.separates ++ (t.lexeme ++ r.rest)) ∧
    (∀ first last : Weekday, first.walkTo last 6 = some (first.through last)) ∧
    ∀ (p : Parser) (rounds : Nat), p.lexer.rest.length ≤ rounds →
      ∃ ts r, p.lexer.Reads ts r.lexer ∧ (∀ t ∈ ts.dropLast, t.kind ≠ .endInput) ∧
        ts.length ≤ p.lexer.buffer.length + 1 ∧ LeavesAt r (parse p) ∧
        Metered.parse rounds ⟨p, 0⟩ = outcomeAt ts.length (parse p) := by
  refine ⟨fun p rounds hp => ⟨Metered.counts_schedule hp, Metered.counts_agendas hp,
    Metered.counts_agenda hp, Metered.counts_intervals hp, Metered.counts_interval,
    Metered.counts_days⟩, ⟨getsOn_groups, getsOn_agendas, getsOn_intervals⟩, fun l r t h ht => ?_,
    Weekday.walkTo_six, fun p rounds hrounds => ?_⟩
  · exact ⟨Lexer.lexeme_ne_nil_of_next h ht, Lexer.buffer_of_next h, Lexer.rest_eq_of_next h⟩
  · obtain ⟨ts, r, hreads, hts, hlength, hleaves, hmetered⟩ := Metered.exists_reads_of_parse hrounds
    have hrest := p.lexer.length_rest_le
    exact ⟨ts, r, hreads, hts, by omega, hleaves, hmetered⟩

theorem every_call_ends_after_eight_advances :
    let p := ofLexer (.ofString "sat-mon allow -0600 2200" {})
    let first : Token := ⟨.dayOfWeek, "sat".toList, ⟨0, 0⟩⟩
    let q : Parser := ⟨{ p.lexer with cursor := ⟨3, 0, 0⟩ }, first⟩
    (p.lexer.next = .ok first q.lexer ∧ first.kind ≠ .endInput ∧
      p.lexer.rest = [] ++ (first.lexeme ++ q.lexer.rest)) ∧
    (q.size ≤ 25 ∧ Counts (Metered.schedule 25) schedule q) ∧
    p.lexer.rest.length ≤ 25 ∧ 8 ≤ p.lexer.buffer.length + 1 ∧
      ∃ s r, parse p = .ok s r ∧ Metered.parse 25 ⟨p, 0⟩ = .ok s ⟨r, 8⟩ := by
  intro p first q
  obtain ⟨hrules, -, htokens, -, hparse⟩ := every_call_ends
  have hnext : p.lexer.next = .ok first q.lexer :=
    Lexer.next_eq_ok_iff.2 (by decide +kernel +zetaReduce)
  have hkind : first.kind ≠ .endInput := nofun
  have hsize : q.size ≤ 25 := by decide +kernel
  have hrest : p.lexer.rest.length ≤ 25 := by decide +kernel
  obtain ⟨-, -, htoken⟩ := htokens _ _ _ hnext hkind
  obtain ⟨hschedule, -⟩ := hrules q 25 hsize
  obtain ⟨ts, r, -, -, hlength, -, hmetered⟩ := hparse p 25 hrest
  have height : (match Metered.parse 25 ⟨p, 0⟩ with
      | .ok _ m => m.advances
      | .error .. => 0) = 8 := by
    decide +kernel
  refine ⟨⟨hnext, hkind, htoken⟩, ⟨hsize, hschedule⟩, hrest, ?_⟩
  rw [hmetered] at height ⊢
  cases hp : parse p with
  | ok s r =>
    rw [hp] at height
    have hcount : ts.length = 8 := height
    rw [hcount] at hlength ⊢
    exact ⟨hlength, s, r, rfl, rfl⟩
  | error e r =>
    rw [hp] at height
    cases height

example : (match Metered.parse 0 ⟨ofLexer (.ofString "" {}), 0⟩ with
    | .ok _ m | .error _ m => m.advances) = 1 := by
  decide +kernel

end Parser

end Timetable
