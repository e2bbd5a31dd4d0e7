import Mathlib.Data.Int.LeastGreatest
import Timetable.Proofs.Interval.Coverage
import Timetable.Schedule.Basic

namespace Timetable

namespace DayInterval

variable {w : DayInterval} {r r' : Int}

def Covers (w : DayInterval) (r : Int) : Prop :=
  ∃ d, Date.weekday d = w.day ∧ Reading.on d w.interval.first ≤ r ∧
    r < Reading.on d w.interval.last + Span.minute

def Starts (w : DayInterval) (r : Int) : Prop :=
  ∃ d, Date.weekday d = w.day ∧ Reading.on d w.interval.first = r

def Ends (w : DayInterval) (r : Int) : Prop :=
  ∃ d, Date.weekday d = w.day ∧ Reading.on d w.interval.last + Span.minute = r

theorem ends_of_covers (h : w.Covers (r - 1)) (h' : ¬ w.Covers r) : w.Ends r := by
  obtain ⟨d, hd, hfirst, hlast⟩ := h
  refine ⟨d, hd, ?_⟩
  by_contra hne
  exact h' ⟨d, hd, by omega, by omega⟩

theorem Covers.add_weeks (h : w.Covers r) (k : Int) : w.Covers (r + k * Span.week) := by
  obtain ⟨d, hd, hfirst, hlast⟩ := h
  refine ⟨d + 7 * k, (Date.weekday_add_weeks d k).trans hd, ?_, ?_⟩
  all_goals rw [Reading.on_add_weeks]
  · omega
  · omega

theorem covers_add_weeks_iff (k : Int) : w.Covers (r + k * Span.week) ↔ w.Covers r := by
  constructor
  · intro h
    have hback := h.add_weeks (-k)
    rwa [Int.neg_mul, Int.add_neg_cancel_right] at hback
  · exact fun h => h.add_weeks k

theorem Starts.exists_weeks (h : w.Starts r) (h' : w.Starts r') :
    ∃ k : Int, r' = r + k * Span.week := by
  obtain ⟨d, hd, rfl⟩ := h
  obtain ⟨e, he, rfl⟩ := h'
  obtain ⟨k, rfl⟩ := Date.exists_weeks_of_weekday_eq (hd.trans he.symm)
  exact ⟨k, Reading.on_add_weeks d k _⟩

theorem Ends.exists_weeks (h : w.Ends r) (h' : w.Ends r') :
    ∃ k : Int, r' = r + k * Span.week := by
  obtain ⟨d, hd, rfl⟩ := h
  obtain ⟨e, he, rfl⟩ := h'
  obtain ⟨k, rfl⟩ := Date.exists_weeks_of_weekday_eq (hd.trans he.symm)
  refine ⟨k, ?_⟩
  rw [Reading.on_add_weeks]
  omega

end DayInterval

namespace Schedule

variable {s : Schedule} {r : Int}

def Open (s : Schedule) (r : Int) : Prop :=
  (∃ w ∈ s.allowed, w.Covers r) ∧ ∀ g ∈ s.forbidden, ¬ g.Covers r

def FreeBetween (s : Schedule) (b r : Int) : Prop :=
  ∀ r', b ≤ r' → r' ≤ r → ∀ g ∈ s.forbidden, ¬ g.Covers r'

theorem allows_iff_open
    (hs : ∀ w ∈ s.allowed ++ s.forbidden, w.interval.first.hour ≤ w.interval.last.hour)
    (m : Moment) : s.allows m = true ↔ s.Open (s.zone.reading m.instant) := by
  have hcontains (w : DayInterval) (hw : w ∈ s.allowed ++ s.forbidden) :
      w.contains (m.inZone s.zone) = true ↔ w.Covers (s.zone.reading m.instant) :=
    DayInterval.contains_iff_occurrence (hs w hw) (m.inZone s.zone)
  simp only [allows, Bool.and_eq_true, Bool.not_eq_true', List.any_eq_true, List.any_eq_false]
  refine and_congr (exists_congr fun w => ?_) (forall_congr' fun g => ?_)
  · exact and_congr_right fun hw => hcontains w (List.mem_append_left _ hw)
  · exact imp_congr_right fun hg => not_congr (hcontains g (List.mem_append_right _ hg))

theorem open_add_weeks_iff (k : Int) : s.Open (r + k * Span.week) ↔ s.Open r := by
  simp only [Open, DayInterval.covers_add_weeks_iff]

theorem Open.exists_boundary (h : s.Open r) :
    ∃ b ≤ r, ((∃ w ∈ s.allowed, w.Starts b) ∨ ∃ g ∈ s.forbidden, g.Ends b) ∧
      ∀ r', b ≤ r' → r' ≤ r → s.Open r' := by
  obtain ⟨⟨w, hw, d, hd, hfirst, hlast⟩, hfree⟩ := h
  have hself : s.FreeBetween r r := by
    intro r' hr hr'
    rwa [Int.le_antisymm hr' hr]
  obtain ⟨b, ⟨hb, hbr, hfree'⟩, hleast⟩ :=
    Int.exists_least_of_bdd
      (P := fun b => Reading.on d w.interval.first ≤ b ∧ b ≤ r ∧ s.FreeBetween b r)
      ⟨_, fun z hz => hz.1⟩ ⟨r, hfirst, Int.le_refl r, hself⟩
  refine ⟨b, hbr, ?_, fun r' hr hr' => ⟨⟨w, hw, d, hd, by omega, by omega⟩, hfree' r' hr hr'⟩⟩
  rcases Int.lt_or_eq_of_le hb with hlt | heq
  -- The reading before `b` is still one of `w`, so only a forbidden interval can have kept it closed.
  · right
    by_contra hnone
    have hprevious : s.FreeBetween (b - 1) r := by
      intro r' hr hr' g hg hcover
      rcases Int.lt_or_eq_of_le hr with hlt' | rfl
      · exact hfree' r' (by omega) hr' g hg hcover
      · exact hnone ⟨g, hg, DayInterval.ends_of_covers hcover (hfree' b (Int.le_refl b) hbr g hg)⟩
    have := hleast (b - 1) ⟨by omega, by omega, hprevious⟩
    omega
  · exact .inl ⟨w, hw, d, hd, heq⟩

end Schedule

end Timetable
