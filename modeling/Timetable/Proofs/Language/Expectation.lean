import Timetable.Proofs.Language.FirstProblem

namespace Timetable

namespace Grammar

def AfterFirstDay (ks : List TokenKind) : Prop :=
  ∃ ks', ks = ks' ++ [.dayOfWeek] ∧ ks'.getLast? ≠ some .dash

namespace Stage

variable {s s' : Stage} {k : TokenKind} {ks : List TokenKind}

theorem mem_expected_iff (hstuck : ∃ k, s.next k = none) (hs : s ≠ .done) :
    k ∈ s.expected ↔ (∃ s', s.next k = some s') ∧ ¬ (k = .dash ∧ s = .day) := by
  cases s with
  | interval =>
    obtain ⟨k, hk⟩ := hstuck
    cases k <;> cases hk
  | done => exact absurd rfl hs
  | _ => cases k <;> simp [expected, next]

theorem expected_ne_nil (hstuck : s.next k = none) (hs : s ≠ .done) : s.expected ≠ [] := by
  cases s with
  | interval => cases k <;> cases hstuck
  | done => exact absurd rfl hs
  | _ => simp [expected]

theorem run_concat : s.run (ks ++ [k]) = some s' ↔ ∃ r, s.run ks = some r ∧ r.next k = some s' := by
  rw [run_append, Option.bind_eq_some_iff]
  simp only [run_singleton]

theorem kind_eq_dash_iff {r : Stage} (h : r.next k = some s) (hday : s.next .dayOfWeek = some s') :
    k = .dash ↔ s = .dayDash := by
  cases r <;> cases k <;> cases h <;> first | exact iff_of_true rfl rfl | cases hday <;> simp

theorem getLast?_eq_dash_iff (h : start.run ks = some s) (hday : s.next .dayOfWeek = some s') :
    ks.getLast? = some .dash ↔ s = .dayDash := by
  cases ks using List.reverseRecOn with
  | nil =>
    cases h
    simp
  | append_singleton ks k =>
    obtain ⟨r, -, hr⟩ := run_concat.1 h
    rw [List.getLast?_concat, Option.some_inj, kind_eq_dash_iff hr hday]

theorem next_eq_day_iff {r : Stage} :
    r.next k = some .day ↔ k = .dayOfWeek ∧ (∃ s, r.next .dayOfWeek = some s) ∧ r ≠ .dayDash := by
  cases r <;> cases k <;> simp [next]

theorem eq_day_iff (h : start.run ks = some s) : s = .day ↔ AfterFirstDay ks := by
  constructor
  · rintro rfl
    cases ks using List.reverseRecOn with
    | nil => cases h
    | append_singleton ks k =>
      obtain ⟨r, hr, hk⟩ := run_concat.1 h
      obtain ⟨rfl, ⟨s, hs⟩, hdash⟩ := next_eq_day_iff.1 hk
      exact ⟨ks, rfl, mt (getLast?_eq_dash_iff hr hs).1 hdash⟩
  · rintro ⟨ks, rfl, hlast⟩
    obtain ⟨r, hr, hk⟩ := run_concat.1 h
    have hdash : r ≠ .dayDash := mt (getLast?_eq_dash_iff hr hk).2 hlast
    have hday : r.next .dayOfWeek = some .day := next_eq_day_iff.2 ⟨rfl, ⟨s, hk⟩, hdash⟩
    rw [hk] at hday
    exact Option.some_inj.1 hday

theorem ne_done_of_run (h : start.run ks = some s) (hks : ∀ k ∈ ks, k ≠ .endInput) : s ≠ .done := by
  rintro rfl
  cases ks using List.reverseRecOn with
  | nil => cases h
  | append_singleton ks k =>
    obtain ⟨r, -, hr⟩ := run_concat.1 h
    have hk : k ≠ .endInput := hks k (by simp)
    cases r <;> cases k <;> first | exact hk rfl | cases hr

theorem viable_concat_iff (h : start.run ks = some s) :
    Viable (ks ++ [k]) ↔ ∃ s', s.next k = some s' := by
  rw [viable_iff, run_append, h]
  simp [run_singleton]

end Stage

end Grammar

namespace Schedule

open Grammar (Stage Viable AfterFirstDay)

variable {layout : Layout} {source : String} {spot : Spot} {expected : List TokenKind}
  {got : TokenKind}

theorem exists_stuck (h : ofSourceWith layout source = .error (.unexpectedToken spot expected got)) :
    let l := Lexer.ofString source layout
    ∃ ts t r s, l.Reads (ts ++ [t]) r ∧ (∀ u ∈ ts, u.kind ≠ .endInput) ∧
      spot = l.spotAt t.position ∧ got = t.kind ∧ Stage.start.run (ts.map Token.kind) = some s ∧
      s.expected = expected ∧ s.next got = none := by
  intro l
  obtain ⟨ts, r, hreads, hkinds, -, hproblem⟩ := exists_breaks h
  generalize he : Error.unexpectedToken spot expected got = e at hproblem
  cases hproblem with
  | @token _ t _ hnext hdead hexpected =>
    injection he with hspot hexpected' hgot
    obtain ⟨s, hs, rfl⟩ := hexpected
    refine ⟨ts, t, _, s, Lexer.Reads.concat_iff.2 ⟨r, hreads, hnext⟩, hkinds, hspot, hgot, hs,
      hexpected'.symm, ?_⟩
    rw [List.map_append, List.map_singleton, Stage.viable_concat_iff hs] at hdead
    rw [hgot, Option.eq_none_iff_forall_ne_some]
    exact fun s' hs' => hdead ⟨s', hs'⟩
  | character hnext =>
    obtain ⟨_, _, rfl⟩ := Lexer.exists_unexpectedCharacter hnext
    cases he

theorem expected_iff_viable (layout : Layout) (source : String)
    (h : ofSourceWith layout source = .error (.unexpectedToken spot expected got)) :
    let l := Lexer.ofString source layout
    ∃ ts t r, l.Reads (ts ++ [t]) r ∧ (∀ u ∈ ts, u.kind ≠ .endInput) ∧
      spot = l.spotAt t.position ∧ got = t.kind ∧
      (∀ k, k ∈ expected ↔
        Viable (ts.map Token.kind ++ [k]) ∧ ¬ (k = .dash ∧ AfterFirstDay (ts.map Token.kind))) ∧
      (AfterFirstDay (ts.map Token.kind) →
        expected = [.allow, .forbid] ∧ Viable (ts.map Token.kind ++ [.dash])) ∧
      ¬ Viable ((ts ++ [t]).map Token.kind) := by
  intro l
  obtain ⟨ts, t, r, s, hreads, hkinds, hspot, hgot, hs, rfl, hstuck⟩ := exists_stuck h
  have hdone : s ≠ .done := Stage.ne_done_of_run hs (List.forall_mem_map.2 hkinds)
  refine ⟨ts, t, r, hreads, hkinds, hspot, hgot, fun k => ?_, fun hday => ?_, ?_⟩
  · rw [Stage.viable_concat_iff hs, ← Stage.eq_day_iff hs]
    exact Stage.mem_expected_iff ⟨got, hstuck⟩ hdone
  · rw [Stage.viable_concat_iff hs]
    obtain rfl := (Stage.eq_day_iff hs).2 hday
    exact ⟨rfl, .dayDash, rfl⟩
  · rw [List.map_append, List.map_singleton, Stage.viable_concat_iff hs, ← hgot, hstuck]
    simp

theorem expected_iff_viable_at_end :
    ofSourceWith {} "mon allow" = .error (.unexpectedToken ⟨⟨1, 0⟩, []⟩ [.time, .dash] .endInput) ∧
      ∃ ts t r, (Lexer.ofString "mon allow" {}).Reads (ts ++ [t]) r ∧ t.kind = .endInput ∧
        Viable (ts.map Token.kind ++ [.time]) ∧ Viable (ts.map Token.kind ++ [.dash]) ∧
        ¬ AfterFirstDay (ts.map Token.kind) := by
  have h : ofSourceWith {} "mon allow" =
      .error (.unexpectedToken ⟨⟨1, 0⟩, []⟩ [.time, .dash] .endInput) := by decide +kernel
  obtain ⟨ts, t, r, hreads, -, -, hgot, hviable, hday, -⟩ := expected_iff_viable {} "mon allow" h
  obtain ⟨htime, -⟩ := (hviable .time).1 (by simp)
  obtain ⟨hdash, -⟩ := (hviable .dash).1 (by simp)
  refine ⟨h, ts, t, r, hreads, hgot.symm, htime, hdash, fun hfirst => ?_⟩
  obtain ⟨hexpected, -⟩ := hday hfirst
  cases hexpected

theorem dash_not_expected_after_first_day :
    let l := Lexer.ofString "mon 0000" {}
    ∃ ts t r expected, l.Reads (ts ++ [t]) r ∧ (∀ u ∈ ts, u.kind ≠ .endInput) ∧
      ofSourceWith {} "mon 0000" = .error (.unexpectedToken (l.spotAt t.position) expected t.kind) ∧
      Viable (ts.map Token.kind ++ [.dash]) ∧ .dash ∉ expected := by
  intro l
  have hday : l.next = .ok ⟨.dayOfWeek, ['m', 'o', 'n'], ⟨0, 0⟩⟩ { l with cursor := ⟨3, 0, 0⟩ } :=
    Lexer.next_eq_ok_iff.2 (by decide +kernel +zetaReduce)
  have htime : Lexer.next { l with cursor := ⟨3, 0, 0⟩ } =
      .ok ⟨.time, ['0', '0', '0', '0'], ⟨0, 4⟩⟩ { l with cursor := ⟨8, 0, 0⟩ } :=
    Lexer.next_eq_ok_iff.2 (by decide +kernel +zetaReduce)
  refine ⟨[_], _, _, [.allow, .forbid], .cons hday (Lexer.Reads.singleton_iff.2 htime), by simp, ?_,
    Grammar.viable_iff.2 ⟨.dayDash, rfl⟩, by decide⟩
  decide +kernel +zetaReduce

end Schedule

end Timetable
