import Timetable.Interval.Basic
import Timetable.Proofs.Clock.Calendar

namespace Timetable

namespace Interval

def Between (i : Interval) (t : TimeOfDay) : Prop :=
  i.first ≤ t ∧ t ≤ i.last

def InOuterHour (i : Interval) (t : TimeOfDay) : Prop :=
  t.hour = i.first.hour ∧ i.first ≤ t ∨ t.hour = i.last.hour ∧ t ≤ i.last

theorem covers_iff (i : Interval) (t : TimeOfDay) :
    i.covers t = true ↔ i.Between t ∨ i.last.hour < i.first.hour ∧ i.InOuterHour t := by
  simp only [covers, Between, InOuterHour, TimeOfDay.le_iff, Bool.or_eq_true, Bool.and_eq_true,
    decide_eq_true_eq]
  omega

theorem covers_iff_of_hour_le {i : Interval} (h : i.first.hour ≤ i.last.hour) (t : TimeOfDay) :
    i.covers t = true ↔ i.first ≤ t ∧ t ≤ i.last := by
  have hordered : ¬ i.last.hour < i.first.hour := Nat.not_lt.2 h
  rw [covers_iff, or_iff_left (fun hreversed => hordered hreversed.1), Between]

theorem covers_first_of_hour_lt {i : Interval} (h : i.last.hour < i.first.hour) :
    i.covers i.first = true := by
  rw [covers_iff]
  refine .inr ⟨h, .inl ⟨rfl, ?_⟩⟩
  rw [TimeOfDay.le_iff]
  omega

end Interval

namespace DayInterval

theorem contains_iff_occurrence {w : DayInterval} (h : w.interval.first.hour ≤ w.interval.last.hour)
    (m : Moment) :
    w.contains m = true ↔ ∃ d, Date.weekday d = w.day ∧ Reading.on d w.interval.first ≤ m.reading ∧
      m.reading < Reading.on d w.interval.last + Span.minute := by
  simp only [contains, Bool.and_eq_true, decide_eq_true_eq, Interval.covers_iff_of_hour_le h,
    Reading.le_timeOfDay_iff, Reading.timeOfDay_le_iff]
  constructor
  · rintro ⟨hd, hf, hl⟩
    exact ⟨Reading.date m.reading, hd, hf, hl⟩
  · rintro ⟨d, hd, hf, hl⟩
    have hdate : Reading.date m.reading = d := by
      have hlow := Reading.le_on d w.interval.first
      have hhigh := Reading.on_add_minute_le d w.interval.last
      exact Reading.date_eq (by omega) (by omega)
    rw [Reading.weekday, hdate]
    exact ⟨hd, hf, hl⟩

theorem contains_congr (w : DayInterval) {a b : Moment}
    (hd : Reading.weekday a.reading = Reading.weekday b.reading)
    (ht : Reading.timeOfDay a.reading = Reading.timeOfDay b.reading) :
    w.contains a = w.contains b := by
  rw [contains, contains, hd, ht]

theorem exists_reading_on (d : Int) (t : TimeOfDay) :
    ∃ m : Moment, m.reading = Reading.on d t := by
  refine ⟨⟨Reading.on d t, .utc⟩, ?_⟩
  simp [Moment.reading, Zone.reading, Zone.offsetAt, Zone.offsetFrom, Zone.utc]

theorem contains_iff_between (w : DayInterval) :
    (∀ m, w.contains m = true ↔ Reading.weekday m.reading = w.day ∧
      (w.interval.Between (Reading.timeOfDay m.reading) ∨
        w.interval.last.hour < w.interval.first.hour ∧
          w.interval.InOuterHour (Reading.timeOfDay m.reading))) ∧
    ((∀ m, w.contains m = true ↔ Reading.weekday m.reading = w.day ∧
      w.interval.Between (Reading.timeOfDay m.reading)) ↔
        w.interval.first.hour ≤ w.interval.last.hour) := by
  have hcontains (m : Moment) : w.contains m = true ↔ Reading.weekday m.reading = w.day ∧
      w.interval.covers (Reading.timeOfDay m.reading) = true := by
    simp only [contains, Bool.and_eq_true, decide_eq_true_eq]
  refine ⟨fun m => ?_, fun hbetween => ?_, fun hordered m => ?_⟩
  · rw [hcontains, Interval.covers_iff]
  · refine Nat.not_lt.1 fun hreversed => ?_
    obtain ⟨m, hm⟩ := exists_reading_on (Date.onOrAfter 0 w.day) w.interval.first
    have hday : Reading.weekday m.reading = w.day := by
      rw [Reading.weekday, hm, Reading.date_on, Date.weekday_onOrAfter]
    have htime : Reading.timeOfDay m.reading = w.interval.first := by
      rw [hm, Reading.timeOfDay_on]
    have hfirst : w.contains m = true := by
      rw [hcontains, htime]
      exact ⟨hday, Interval.covers_first_of_hour_lt hreversed⟩
    obtain ⟨-, -, hlast⟩ := (hbetween m).1 hfirst
    rw [htime, TimeOfDay.le_iff] at hlast
    omega
  · rw [hcontains, Interval.covers_iff_of_hour_le hordered, Interval.Between]

theorem contains_first_of_overnight :
    let w : DayInterval := ⟨.sunday, { hour := 20, minute := 0 }, { hour := 8, minute := 0 }⟩
    let m : Moment := ⟨1483300800 * Span.second, .utc⟩
    w.contains m = true ∧ Reading.weekday m.reading = w.day ∧
      ¬ w.interval.Between (Reading.timeOfDay m.reading) := by
  refine ⟨?_, ?_, ?_⟩
  · decide +kernel
  · decide +kernel
  · rintro ⟨-, hlast⟩
    revert hlast
    decide +kernel

end DayInterval

end Timetable
