import Timetable.Proofs.Language.Grammar

namespace Timetable.Grammar

open scoped Computability

inductive Stage where
  | start
  | day
  | dayDash
  | days
  | directive
  | timeDash
  | interval
  | done
  deriving DecidableEq, Repr

namespace Stage

def next : Stage → TokenKind → Option Stage
  | .start, .dayOfWeek => some .day
  | .day, .dash => some .dayDash
  | .day, .allow | .day, .forbid => some .directive
  | .dayDash, .dayOfWeek => some .days
  | .days, .allow | .days, .forbid => some .directive
  | .directive, .time => some .interval
  | .directive, .dash => some .timeDash
  | .timeDash, .time => some .interval
  | .interval, .time => some .interval
  | .interval, .dash => some .timeDash
  | .interval, .allow | .interval, .forbid => some .directive
  | .interval, .dayOfWeek => some .day
  | .interval, .endInput => some .done
  | _, _ => none

def expected : Stage → List TokenKind
  | .start | .dayDash => [.dayOfWeek]
  | .day | .days => [.allow, .forbid]
  | .directive => [.time, .dash]
  | .timeDash => [.time]
  | .interval | .done => []

def run (s : Stage) : List TokenKind → Option Stage
  | [] => some s
  | k :: ks => (s.next k).bind fun s' => run s' ks

theorem run_append (s : Stage) (ks ks' : List TokenKind) :
    s.run (ks ++ ks') = (s.run ks).bind fun s' => s'.run ks' := by
  induction ks generalizing s with
  | nil => rfl
  | cons k ks ih => simp only [List.cons_append, run, ih, Option.bind_assoc]

theorem run_singleton (s : Stage) (k : TokenKind) : s.run [k] = s.next k := by
  simp [run]

end Stage

section Unfolding

theorem cons_mem_token_mul {k k' : TokenKind} {ks : List TokenKind} {l : Language TokenKind} :
    k :: ks ∈ token k' * l ↔ k = k' ∧ ks ∈ l := by
  rw [Language.mem_mul]
  constructor
  · rintro ⟨_, rfl, ks', hks', h⟩
    cases h
    exact ⟨rfl, hks'⟩
  · rintro ⟨rfl, hks⟩
    exact ⟨_, rfl, ks, hks, rfl⟩

theorem nil_notMem_token_mul {k : TokenKind} {l : Language TokenKind} : [] ∉ token k * l := by
  rw [Language.mem_mul]
  rintro ⟨_, rfl, ks, -, h⟩
  cases h

theorem star_mul_eq (l m : Language TokenKind) : l∗ * m = l * (l∗ * m) + m := by
  nth_rewrite 1 [← Language.one_add_self_mul_kstar_eq_kstar l]
  rw [add_mul, one_mul, mul_assoc, add_comm]

def source : Language TokenKind := schedule * token .endInput

def moreGroups : Language TokenKind := (days * oneOrMore agenda)∗ * token .endInput

def moreAgendas : Language TokenKind := agenda∗ * moreGroups

def moreIntervals : Language TokenKind := interval∗ * moreAgendas

theorem moreGroups_eq : moreGroups = days * (agenda * moreAgendas) + token .endInput := by
  rw [moreGroups, star_mul_eq, ← moreGroups, mul_assoc, oneOrMore, mul_assoc, ← moreAgendas]

theorem moreAgendas_eq : moreAgendas = agenda * moreAgendas + moreGroups := by
  rw [moreAgendas, ← star_mul_eq]

theorem moreIntervals_eq : moreIntervals = interval * moreIntervals + moreAgendas := by
  rw [moreIntervals, ← star_mul_eq]

theorem source_eq : source = days * (agenda * moreAgendas) := by
  rw [source, schedule, oneOrMore, mul_assoc, ← moreGroups, mul_assoc, oneOrMore, mul_assoc,
    ← moreAgendas]

theorem days_mul (l : Language TokenKind) :
    days * l = token .dayOfWeek * (l + token .dash * (token .dayOfWeek * l)) := by
  simp only [days, optional, mul_add, add_mul, mul_assoc, one_mul]

theorem agenda_mul_moreAgendas :
    agenda * moreAgendas =
      token .allow * (interval * moreIntervals) + token .forbid * (interval * moreIntervals) := by
  simp only [agenda, oneOrMore, moreIntervals, add_mul, mul_assoc]

theorem add_dash_time_mul :
    moreIntervals + token .dash * (token .time * moreIntervals) = moreIntervals := by
  ext ks
  rw [Language.mem_add, or_iff_left_of_imp]
  intro hks
  rw [← mul_assoc, Language.mem_mul] at hks
  obtain ⟨xs, hxs, ys, hys, rfl⟩ := hks
  have hinterval : xs ∈ interval := .inr hxs
  rw [moreIntervals_eq, Language.mem_add]
  exact .inl (Language.mem_mul.2 ⟨xs, hinterval, ys, hys, rfl⟩)

theorem interval_mul_moreIntervals :
    interval * moreIntervals =
      token .time * moreIntervals + token .dash * (token .time * moreIntervals) := by
  calc interval * moreIntervals
      = token .time * (moreIntervals + token .dash * (token .time * moreIntervals)) +
          token .dash * (token .time * moreIntervals) := by
        simp only [interval, optional, mul_add, add_mul, mul_assoc, one_mul]
    _ = token .time * moreIntervals + token .dash * (token .time * moreIntervals) := by
        rw [add_dash_time_mul]

end Unfolding

namespace Stage

def rest : Stage → Language TokenKind
  | .start => source
  | .day => agenda * moreAgendas + token .dash * (token .dayOfWeek * (agenda * moreAgendas))
  | .dayDash => token .dayOfWeek * (agenda * moreAgendas)
  | .days => agenda * moreAgendas
  | .directive => Grammar.interval * moreIntervals
  | .timeDash => token .time * moreIntervals
  | .interval => moreIntervals
  | .done => 1

theorem rest_days : rest .days = token .allow * rest .directive + token .forbid * rest .directive :=
  agenda_mul_moreAgendas

theorem rest_day : rest .day = rest .days + token .dash * rest .dayDash := rfl

theorem rest_dayDash : rest .dayDash = token .dayOfWeek * rest .days := rfl

theorem rest_timeDash : rest .timeDash = token .time * rest .interval := rfl

theorem rest_start : rest .start = token .dayOfWeek * rest .day := by
  rw [rest, source_eq, days_mul, rest]

theorem rest_directive :
    rest .directive = token .time * rest .interval + token .dash * rest .timeDash :=
  interval_mul_moreIntervals

theorem rest_interval :
    rest .interval = rest .directive + (rest .days + (rest .start + token .endInput * rest .done)) := by
  calc moreIntervals
      = Grammar.interval * moreIntervals + moreAgendas := moreIntervals_eq
    _ = Grammar.interval * moreIntervals + (agenda * moreAgendas + moreGroups) := by
        rw [← moreAgendas_eq]
    _ = Grammar.interval * moreIntervals +
          (agenda * moreAgendas + (source + token .endInput * 1)) := by
        rw [mul_one, source_eq, ← moreGroups_eq]

theorem nil_mem_rest_iff {s : Stage} : [] ∈ s.rest ↔ s = .done := by
  have hdays : [] ∉ rest .days := by
    rw [rest_days, Language.mem_add]
    exact not_or.2 ⟨nil_notMem_token_mul, nil_notMem_token_mul⟩
  have hdirective : [] ∉ rest .directive := by
    rw [rest_directive, Language.mem_add]
    exact not_or.2 ⟨nil_notMem_token_mul, nil_notMem_token_mul⟩
  have hstart : [] ∉ rest .start := by
    rw [rest_start]
    exact nil_notMem_token_mul
  cases s with
  | start => simp [hstart]
  | day =>
    rw [rest_day, Language.mem_add]
    simp [hdays, nil_notMem_token_mul]
  | dayDash => simp [rest_dayDash, nil_notMem_token_mul]
  | days => simp [hdays]
  | directive => simp [hdirective]
  | timeDash => simp [rest_timeDash, nil_notMem_token_mul]
  | interval =>
    rw [rest_interval, Language.mem_add, Language.mem_add, Language.mem_add]
    simp [hdirective, hdays, hstart, nil_notMem_token_mul]
  | done => simp [rest]

theorem cons_mem_rest_iff {s : Stage} {k : TokenKind} {ks : List TokenKind} :
    k :: ks ∈ s.rest ↔ ∃ s', s.next k = some s' ∧ ks ∈ s'.rest := by
  cases s with
  | start =>
    rw [rest_start, cons_mem_token_mul]
    cases k <;> simp [next]
  | day =>
    rw [rest_day, rest_days, Language.mem_add, Language.mem_add, cons_mem_token_mul,
      cons_mem_token_mul, cons_mem_token_mul]
    cases k <;> simp [next]
  | dayDash =>
    rw [rest_dayDash, cons_mem_token_mul]
    cases k <;> simp [next]
  | days =>
    rw [rest_days, Language.mem_add, cons_mem_token_mul, cons_mem_token_mul]
    cases k <;> simp [next]
  | directive =>
    rw [rest_directive, Language.mem_add, cons_mem_token_mul, cons_mem_token_mul]
    cases k <;> simp [next]
  | timeDash =>
    rw [rest_timeDash, cons_mem_token_mul]
    cases k <;> simp [next]
  | interval =>
    rw [rest_interval, rest_directive, rest_days, rest_start]
    simp only [Language.mem_add, cons_mem_token_mul]
    cases k <;> simp [next]
  | done => simp [rest, next]

theorem mem_rest_iff {s : Stage} {ks : List TokenKind} : ks ∈ s.rest ↔ s.run ks = some .done := by
  induction ks generalizing s with
  | nil => rw [nil_mem_rest_iff, run, Option.some_inj]
  | cons k ks ih => simp only [cons_mem_rest_iff, ih, run, Option.bind_eq_some_iff]

theorem exists_completion (s : Stage) : ∃ ks, s.run ks = some .done := by
  cases s with
  | start => exact ⟨[.dayOfWeek, .allow, .time, .endInput], rfl⟩
  | day => exact ⟨[.allow, .time, .endInput], rfl⟩
  | dayDash => exact ⟨[.dayOfWeek, .allow, .time, .endInput], rfl⟩
  | days => exact ⟨[.allow, .time, .endInput], rfl⟩
  | directive => exact ⟨[.time, .endInput], rfl⟩
  | timeDash => exact ⟨[.time, .endInput], rfl⟩
  | interval => exact ⟨[.endInput], rfl⟩
  | done => exact ⟨[], rfl⟩

end Stage

def Viable (ks : List TokenKind) : Prop :=
  ∃ ks', ks ++ ks' ∈ source

theorem viable_iff {ks : List TokenKind} : Viable ks ↔ ∃ s, Stage.start.run ks = some s := by
  have hsource (ks : List TokenKind) : ks ∈ source ↔ Stage.start.run ks = some .done :=
    Stage.mem_rest_iff (s := .start)
  simp only [Viable, hsource, Stage.run_append, Option.bind_eq_some_iff]
  constructor
  · rintro ⟨_, s, hs, -⟩
    exact ⟨s, hs⟩
  · rintro ⟨s, hs⟩
    obtain ⟨ks', hks'⟩ := s.exists_completion
    exact ⟨ks', s, hs, hks'⟩

theorem Viable.of_append {ks ks' : List TokenKind} (h : Viable (ks ++ ks')) : Viable ks := by
  obtain ⟨ks'', h⟩ := h
  rw [List.append_assoc] at h
  exact ⟨_, h⟩

end Timetable.Grammar
