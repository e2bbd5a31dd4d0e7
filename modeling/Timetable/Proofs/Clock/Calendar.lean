import Timetable.Clock.Reading

namespace Timetable

namespace Span

theorem minute_pos : 0 < minute := by decide

theorem hour_pos : 0 < hour := by decide

theorem day_pos : 0 < day := by decide

theorem week_pos : 0 < week := by decide

end Span

namespace Date

theorem le_onOrAfter (d : Int) (target : Weekday) : d ≤ onOrAfter d target := by
  simp only [onOrAfter]
  omega

theorem onOrAfter_lt (d : Int) (target : Weekday) : onOrAfter d target < d + 7 := by
  have h := (weekday d).daysUntil_lt target
  simp only [onOrAfter]
  omega

theorem weekday_add_seven (d : Int) : weekday (d + 7) = weekday d := by
  rw [← Weekday.index_inj]
  have h := index_weekday d
  have h' := index_weekday (d + 7)
  omega

theorem onOrAfter_add_seven (d : Int) (target : Weekday) :
    onOrAfter (d + 7) target = onOrAfter d target + 7 := by
  rw [onOrAfter, onOrAfter, weekday_add_seven]
  omega

theorem weekday_add_weeks (d k : Int) : weekday (d + 7 * k) = weekday d := by
  rw [← Weekday.index_inj]
  have h := index_weekday d
  have h' := index_weekday (d + 7 * k)
  omega

theorem exists_weeks_of_weekday_eq {d e : Int} (h : weekday d = weekday e) :
    ∃ k, e = d + 7 * k := by
  have hd := index_weekday d
  have he := index_weekday e
  rw [h] at hd
  exact ⟨(e - d) / 7, by omega⟩

theorem eq_of_weekday_eq {d e : Int} (h : weekday d = weekday e) (hde : d < e + 7)
    (hed : e < d + 7) : d = e := by
  have hd := index_weekday d
  have he := index_weekday e
  rw [h] at hd
  omega

end Date

namespace Reading

theorem on_add_seven (d : Int) (t : TimeOfDay) : on (d + 7) t = on d t + Span.week := by
  simp only [on, Span.day, Span.week]
  omega

theorem on_add_weeks (d k : Int) (t : TimeOfDay) : on (d + 7 * k) t = on d t + k * Span.week := by
  simp only [on, Span.day, Span.week]
  omega

theorem lt_of_on_lt {d e : Int} {t : TimeOfDay} (h : on d t < on e t + Span.week) : d < e + 7 := by
  simp only [on, Span.day, Span.week] at h
  omega

theorem le_on (d : Int) (t : TimeOfDay) : d * Span.day ≤ on d t := by
  simp only [on, Span.day, Span.hour, Span.minute]
  omega

theorem on_add_minute_le (d : Int) (t : TimeOfDay) : on d t + Span.minute ≤ (d + 1) * Span.day := by
  have hh := t.hour_lt
  have hm := t.minute_lt
  simp only [on, Span.day, Span.hour, Span.minute]
  omega

theorem date_mul_le (w : Int) : date w * Span.day ≤ w :=
  Int.ediv_mul_le w (Int.ne_of_gt Span.day_pos)

theorem lt_date_add_one_mul (w : Int) : w < (date w + 1) * Span.day :=
  Int.lt_ediv_add_one_mul_self w Span.day_pos

theorem onOrAfter_within_week (w : Int) (target : Weekday) (t : TimeOfDay) :
    on (Date.onOrAfter (date w) target) t + Span.minute ≤ w + Span.week ∧
      w < on (Date.onOrAfter (date w) target + 7) t := by
  have hle := Date.le_onOrAfter (date w) target
  have hlt := Date.onOrAfter_lt (date w) target
  have hdate := date_mul_le w
  have hdate' := lt_date_add_one_mul w
  have hlow := le_on (Date.onOrAfter (date w) target + 7) t
  have hhigh := on_add_minute_le (Date.onOrAfter (date w) target) t
  simp only [Span.day, Span.minute, Span.week] at *
  omega

theorem date_eq {d w : Int} (h : d * Span.day ≤ w) (h' : w < (d + 1) * Span.day) : date w = d := by
  simp only [date, Span.day] at h h' ⊢
  omega

theorem date_add_week (w : Int) : date (w + Span.week) = date w + 7 := by
  simp only [date, Span.day, Span.week]
  omega

theorem weekday_add_week (w : Int) : weekday (w + Span.week) = weekday w := by
  rw [weekday, date_add_week, Date.weekday_add_seven, weekday]

theorem timeOfDay_add_week (w : Int) : timeOfDay (w + Span.week) = timeOfDay w := by
  apply TimeOfDay.ext <;> simp only [timeOfDay, Span.day, Span.hour, Span.minute, Span.week] <;> omega

theorem le_timeOfDay_iff {t : TimeOfDay} {w : Int} : t ≤ timeOfDay w ↔ on (date w) t ≤ w := by
  have hh := t.hour_lt
  have hm := t.minute_lt
  rw [TimeOfDay.le_iff]
  simp only [timeOfDay, on, date, Span.day, Span.hour, Span.minute]
  omega

theorem timeOfDay_le_iff {t : TimeOfDay} {w : Int} :
    timeOfDay w ≤ t ↔ w < on (date w) t + Span.minute := by
  have hh := t.hour_lt
  have hm := t.minute_lt
  rw [TimeOfDay.le_iff]
  simp only [timeOfDay, on, date, Span.day, Span.hour, Span.minute]
  omega

end Reading

end Timetable
