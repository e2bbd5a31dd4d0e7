import Mathlib.Logic.Relation
import Timetable.Proofs.Search.Soundness

namespace Timetable.Schedule

variable {s s' : Schedule} {m m' r : Moment} {w : DayInterval}

structure SameIntervals (s s' : Schedule) : Prop where
  zone : s'.zone = s.zone
  allowed : ∀ w, w ∈ s'.allowed ↔ w ∈ s.allowed
  forbidden : ∀ w, w ∈ s'.forbidden ↔ w ∈ s.forbidden

structure Grants (s s' : Schedule) : Prop where
  zone : s'.zone = s.zone
  allowed : ∀ w ∈ s.allowed, w ∈ s'.allowed
  forbidden : ∀ w, w ∈ s'.forbidden ↔ w ∈ s.forbidden

theorem grants_allow (s : Schedule) (w : DayInterval) : s.Grants (s.allow w) where
  zone := rfl
  allowed _ hv := List.mem_append_left [w] hv
  forbidden _ := Iff.rfl

namespace Grants

theorem allows (h : s.Grants s') (hm : m'.instant = m.instant) (ha : s.allows m = true) :
    s'.allows m' = true := by
  obtain ⟨⟨v, hv, hcontains⟩, hfree⟩ := allows_eq_true_iff.1 ha
  rw [allows_eq_true_iff, hm, h.zone]
  refine ⟨⟨v, h.allowed v hv, hcontains⟩, fun g hg => ?_⟩
  apply hfree
  exact (h.forbidden g).1 hg

theorem mem_candidates (h : s.Grants s') (hm : m'.instant = m.instant) {c : Moment}
    (hc : c ∈ s.candidates (m.inZone s.zone)) : c ∈ s'.candidates (m'.inZone s'.zone) := by
  have hhere : m'.inZone s'.zone = m.inZone s.zone := by
    simp only [Moment.inZone, hm, h.zone]
  rw [hhere, Schedule.mem_candidates]
  rcases Schedule.mem_candidates.1 hc with ⟨v, hv, hstart⟩ | ⟨g, hg, hend⟩ | rfl
  · exact .inl ⟨v, h.allowed v hv, hstart⟩
  · exact .inr (.inl ⟨g, (h.forbidden g).2 hg, hend⟩)
  · exact .inr (.inr rfl)

theorem exists_nextAllowed_le (h : s.Grants s') (hm : m'.instant = m.instant)
    (hr : s.nextAllowed m = .ok r) :
    ∃ r', s'.nextAllowed m' = .ok r' ∧ r'.instant ≤ r.instant := by
  obtain ⟨-, ⟨c, hc, ha, hcr⟩, -⟩ := nextAllowed_eq_ok_iff.1 hr
  have hc' := h.mem_candidates hm hc
  have ha' : s'.allows c = true := h.allows rfl ha
  cases hr' : s'.nextAllowed m' with
  | ok r' =>
    obtain ⟨-, -, hleast⟩ := nextAllowed_eq_ok_iff.1 hr'
    refine ⟨r', rfl, ?_⟩
    rw [← hcr]
    exact hleast c hc' ha'
  | error e =>
    obtain ⟨-, hnone⟩ := nextAllowed_eq_error_iff.1 hr'
    rw [hnone c hc'] at ha'
    cases ha'

end Grants

namespace SameIntervals

theorem symm (h : s.SameIntervals s') : s'.SameIntervals s where
  zone := h.zone.symm
  allowed v := (h.allowed v).symm
  forbidden g := (h.forbidden g).symm

theorem grants (h : s.SameIntervals s') : s.Grants s' where
  zone := h.zone
  allowed v hv := (h.allowed v).2 hv
  forbidden := h.forbidden

theorem allows_eq (h : s.SameIntervals s') (hm : m'.instant = m.instant) :
    s'.allows m' = s.allows m := by
  rw [Bool.eq_iff_iff]
  exact ⟨h.symm.grants.allows hm.symm, h.grants.allows hm⟩

theorem map_instant_nextAllowed (h : s.SameIntervals s') (hm : m'.instant = m.instant) :
    (s'.nextAllowed m').map Moment.instant = (s.nextAllowed m).map Moment.instant := by
  cases hr : s.nextAllowed m with
  | ok r =>
    obtain ⟨r', hr', hle⟩ := h.grants.exists_nextAllowed_le hm hr
    obtain ⟨q, hq, hge⟩ := h.symm.grants.exists_nextAllowed_le hm.symm hr'
    obtain rfl : r = q := Except.ok.inj (hr.symm.trans hq)
    rw [hr']
    exact congrArg Except.ok (Int.le_antisymm hle hge)
  | error e =>
    cases hr' : s'.nextAllowed m' with
    | ok r' =>
      obtain ⟨q, hq, -⟩ := h.symm.grants.exists_nextAllowed_le hm.symm hr'
      rw [hr] at hq
      cases hq
    | error e' =>
      obtain ⟨rfl, -⟩ := nextAllowed_eq_error_iff.1 hr
      obtain ⟨rfl, -⟩ := nextAllowed_eq_error_iff.1 hr'
      rfl

theorem wait_eq (h : s.SameIntervals s') (hm : m'.instant = m.instant) :
    s'.wait m' = s.wait m := by
  rw [wait_eq_map, wait_eq_map, h.map_instant_nextAllowed hm, hm]

end SameIntervals

theorem allows_of_allows_forbid (h : (s.forbid w).allows m = true) : s.allows m = true := by
  obtain ⟨hallowed, hfree⟩ := allows_eq_true_iff.1 h
  refine allows_eq_true_iff.2 ⟨hallowed, fun g hg => ?_⟩
  apply hfree
  exact List.mem_append_left [w] hg

theorem allows_eq_false_of_forbidden (hw : w ∈ s.forbidden)
    (hm : w.contains (m.inZone s.zone) = true) : s.allows m = false := by
  rw [← Bool.not_eq_true, allows_eq_true_iff]
  rintro ⟨-, hfree⟩
  exact hfree w hw hm

inductive Addition : Schedule → Schedule → Prop
  | allow (s : Schedule) (w : DayInterval) : Addition s (s.allow w)
  | forbid (s : Schedule) (w : DayInterval) : Addition s (s.forbid w)
  | agenda (s : Schedule) (days : List Weekday) (a : Agenda) : Addition s (s.addAgenda days a)
  | agendas (s : Schedule) (days : List Weekday) (as : List Agenda) :
    Addition s (s.addAgendas days as)

theorem Addition.keeps (h : Addition s s') : s'.zone = s.zone ∧ s.forbidden ⊆ s'.forbidden := by
  cases h with
  | allow w => exact ⟨rfl, List.Subset.refl _⟩
  | forbid w => exact ⟨rfl, List.subset_append_left _ _⟩
  | agenda days a =>
    rw [addAgenda_eq]
    exact ⟨rfl, List.subset_append_left _ _⟩
  | agendas days as =>
    rw [addAgendas_eq]
    exact ⟨rfl, List.subset_append_left _ _⟩

theorem keeps_of_additions (h : Relation.ReflTransGen Addition s s') :
    s'.zone = s.zone ∧ s.forbidden ⊆ s'.forbidden := by
  induction h with
  | refl => exact ⟨rfl, List.Subset.refl _⟩
  | tail _ hstep ih =>
    obtain ⟨hzone, hforbidden⟩ := ih
    obtain ⟨hzone', hforbidden'⟩ := hstep.keeps
    exact ⟨hzone'.trans hzone, List.Subset.trans hforbidden hforbidden'⟩

theorem allows_eq_false_after_forbid (hm : w.contains (m.inZone s.zone) = true)
    (h : Relation.ReflTransGen Addition (s.forbid w) s') : s'.allows m = false := by
  obtain ⟨hzone, hforbidden⟩ := keeps_of_additions h
  refine allows_eq_false_of_forbidden (hforbidden (List.mem_append_right _ List.mem_cons_self)) ?_
  rw [hzone]
  exact hm

theorem answers_of_interval_sets (s : Schedule) (m : Moment) :
    (∀ s' m', s.SameIntervals s' → m'.instant = m.instant →
      s'.allows m' = s.allows m ∧
      (s'.nextAllowed m').map Moment.instant = (s.nextAllowed m).map Moment.instant ∧
      s'.wait m' = s.wait m) ∧
    ∀ w : DayInterval,
      (s.allows m = true → (s.allow w).allows m = true) ∧
      (∀ r, s.nextAllowed m = .ok r →
        ∃ r', (s.allow w).nextAllowed m = .ok r' ∧ r'.instant ≤ r.instant) ∧
      (s.allows m = false → (s.forbid w).allows m = false) ∧
      (w.contains (m.inZone s.zone) = true →
        ∀ s', Relation.ReflTransGen Addition (s.forbid w) s' → s'.allows m = false) := by
  refine ⟨fun s' m' h hm => ⟨h.allows_eq hm, h.map_instant_nextAllowed hm, h.wait_eq hm⟩,
    fun w => ⟨(grants_allow s w).allows rfl, fun r => (grants_allow s w).exists_nextAllowed_le rfl,
      fun hdenied => ?_, fun hm s' => allows_eq_false_after_forbid hm⟩⟩
  rw [← Bool.not_eq_true] at hdenied ⊢
  exact fun hallows => hdenied (allows_of_allows_forbid hallows)

theorem answers_of_interval_sets_before_repeated_hour :
    let a : DayInterval := ⟨.sunday, { hour := 3, minute := 30 }, { hour := 4, minute := 30 }⟩
    let b : DayInterval := ⟨.monday, { hour := 9, minute := 0 }, { hour := 17, minute := 0 }⟩
    let g : DayInterval := ⟨.sunday, { hour := 3, minute := 0 }, { hour := 3, minute := 44 }⟩
    let w : DayInterval := ⟨.saturday, .wholeDay⟩
    let s : Schedule := ⟨[a, b], [g], .europeKyiv⟩
    let s' : Schedule := ⟨[b, a, b], [g, g], .europeKyiv⟩
    let m : Moment := ⟨1288440000 * Span.second, .utc⟩
    let m' : Moment := m.inZone .asiaTokyo
    let r : Moment := ⟨1288485900 * Span.second, .utc⟩
    s.SameIntervals s' ∧ s.nextAllowed m = .ok r ∧ s.allows r = true ∧ s.allows m = false ∧
      w.contains (m.inZone s.zone) = true ∧
      (s'.nextAllowed m').map Moment.instant = .ok r.instant ∧ s'.wait m' = s.wait m ∧
      (∃ r', (s.allow w).nextAllowed m = .ok r' ∧ r'.instant ≤ r.instant) ∧
      (s.allow w).allows r = true ∧ (s.forbid w).allows m = false ∧
      ((s.forbid w).allow w).allows m = false := by
  intro a b g w s s' m m' r
  have hsame : s.SameIntervals s' := by
    refine ⟨rfl, fun v => ?_, fun v => ?_⟩
    · simp only [s, s', List.mem_cons, List.not_mem_nil, or_false]
      grind
    · simp only [s, s', List.mem_cons, List.not_mem_nil, or_false, or_self]
  have hr : s.nextAllowed m = .ok r := nextAllowed_eq_ok_iff.2 (by decide +kernel +zetaReduce)
  have hallows : s.allows r = true := allows_of_nextAllowed hr
  have hdenied : s.allows m = false := by decide +kernel +zetaReduce
  have hcontains : w.contains (m.inZone s.zone) = true := by decide +kernel +zetaReduce
  obtain ⟨hsets, hmore⟩ := answers_of_interval_sets s m
  obtain ⟨-, hmap, hwait⟩ := hsets s' m' hsame rfl
  obtain ⟨-, hsooner, hforbid, hforever⟩ := hmore w
  obtain ⟨hkept, -⟩ := (answers_of_interval_sets s r).2 w
  rw [hr] at hmap
  exact ⟨hsame, hr, hallows, hdenied, hcontains, hmap, hwait, hsooner r hr, hkept hallows,
    hforbid hdenied, hforever hcontains _ (.single (.allow _ w))⟩

end Timetable.Schedule
