import Timetable.Interval.Occurrence
import Timetable.Proofs.Clock.Calendar
import Timetable.Proofs.Clock.Steady

namespace Timetable

def Moment.Steady (m : Moment) (o : Int) : Prop :=
  m.zone.Steady o (m.instant - 3 * Span.day) (m.instant + 8 * Span.day)

namespace Moment.Steady

variable {m : Moment} {o : Int}

theorem reading_eq (h : m.Steady o) : m.reading = m.instant + o * Span.second := by
  have hday := Span.day_pos
  exact Zone.Steady.reading_eq h (by omega) (by omega)

theorem instantOf_this_week (h : m.Steady o) (target : Weekday) (t : TimeOfDay) :
    let d := Date.onOrAfter (Reading.date m.reading) target
    m.zone.instantOf d t = Reading.on d t - o * Span.second ∧
      m.instant < Reading.on d t - o * Span.second + Span.day ∧
      Reading.on d t - o * Span.second + Span.minute ≤ m.instant + Span.week := by
  intro d
  have hr := h.reading_eq
  have hlow := Reading.le_on d t
  have hhigh := Reading.on_add_minute_le d t
  have hdate := Reading.date_mul_le m.reading
  have hdate' := Reading.lt_date_add_one_mul m.reading
  have hd : Reading.date m.reading ≤ d := Date.le_onOrAfter _ target
  have hd' : d < Reading.date m.reading + 7 := Date.onOrAfter_lt _ target
  have hafter : m.instant < Reading.on d t - o * Span.second + Span.day := by
    simp only [Span.day] at *
    omega
  have hbefore : Reading.on d t - o * Span.second + Span.minute ≤ m.instant + Span.week := by
    simp only [Span.day, Span.minute, Span.week] at *
    omega
  refine ⟨Zone.Steady.instantOf_eq h ?_ ?_, hafter, hbefore⟩
  · simp only [Span.day] at *
    omega
  · simp only [Span.day, Span.minute, Span.week] at *
    omega

theorem instantOf_next_week (h : m.Steady o) {d : Int} {t : TimeOfDay}
    (hafter : m.instant < Reading.on d t - o * Span.second + Span.day)
    (hbefore : Reading.on d t - o * Span.second ≤ m.instant) :
    m.zone.instantOf (d + 7) t = Reading.on (d + 7) t - o * Span.second := by
  have hon := Reading.on_add_seven d t
  refine Zone.Steady.instantOf_eq h ?_ ?_ <;>
  · simp only [Span.day, Span.week] at *
    omega

end Moment.Steady

namespace DayInterval

variable {w : DayInterval} {m : Moment} {o : Int}

theorem exists_nextStart (h : m.Steady o) :
    ∃ d, Date.weekday d = w.day ∧
      (w.nextStart m).instant = Reading.on d w.interval.first - o * Span.second ∧
      m.instant ≤ (w.nextStart m).instant ∧ (w.nextStart m).instant < m.instant + Span.week := by
  have hminute := Span.minute_pos
  obtain ⟨hthis, hafter, hbefore⟩ := h.instantOf_this_week w.day w.interval.first
  have hday := Date.weekday_onOrAfter (Reading.date m.reading) w.day
  generalize hd : Date.onOrAfter (Reading.date m.reading) w.day = d at *
  simp only [nextStart, hd, hthis]
  split
  · next hle => exact ⟨d, hday, rfl, hle, by omega⟩
  · next hlt =>
    have hon := Reading.on_add_seven d w.interval.first
    have hnext := h.instantOf_next_week hafter (by omega)
    refine ⟨d + 7, by rw [Date.weekday_add_seven, hday], hnext, ?_, ?_⟩ <;>
    · simp only [Span.day, Span.week] at *
      omega

theorem exists_nextEnd (h : m.Steady o) :
    ∃ d, Date.weekday d = w.day ∧
      (w.nextEnd m).instant = Reading.on d w.interval.last - o * Span.second + Span.minute ∧
      m.instant < (w.nextEnd m).instant ∧ (w.nextEnd m).instant ≤ m.instant + Span.week := by
  have hminute := Span.minute_pos
  obtain ⟨hthis, hafter, hbefore⟩ := h.instantOf_this_week w.day w.interval.last
  have hday := Date.weekday_onOrAfter (Reading.date m.reading) w.day
  generalize hd : Date.onOrAfter (Reading.date m.reading) w.day = d at *
  simp only [nextEnd, hd, hthis]
  split
  · next hlt => exact ⟨d, hday, rfl, hlt, hbefore⟩
  · next hle =>
    have hon := Reading.on_add_seven d w.interval.last
    have hnext := h.instantOf_next_week hafter (by omega)
    refine ⟨d + 7, by rw [Date.weekday_add_seven, hday], by rw [hnext], ?_, ?_⟩ <;>
    · simp only [Span.day, Span.week, Span.minute] at *
      omega

theorem nextStart_eq (h : m.Steady o) {d : Int} (hd : Date.weekday d = w.day)
    (hle : m.instant ≤ Reading.on d w.interval.first - o * Span.second)
    (hlt : Reading.on d w.interval.first - o * Span.second < m.instant + Span.week) :
    (w.nextStart m).instant = Reading.on d w.interval.first - o * Span.second := by
  obtain ⟨e, he, hstart, hle', hlt'⟩ := exists_nextStart (w := w) h
  have hde : d < e + 7 := Reading.lt_of_on_lt (t := w.interval.first) (by omega)
  have hed : e < d + 7 := Reading.lt_of_on_lt (t := w.interval.first) (by omega)
  rw [Date.eq_of_weekday_eq (hd.trans he.symm) hde hed, hstart]

theorem nextEnd_eq (h : m.Steady o) {d : Int} (hd : Date.weekday d = w.day)
    (hlt : m.instant < Reading.on d w.interval.last - o * Span.second + Span.minute)
    (hle : Reading.on d w.interval.last - o * Span.second + Span.minute ≤ m.instant + Span.week) :
    (w.nextEnd m).instant = Reading.on d w.interval.last - o * Span.second + Span.minute := by
  obtain ⟨e, he, hend, hlt', hle'⟩ := exists_nextEnd (w := w) h
  have hde : d < e + 7 := Reading.lt_of_on_lt (t := w.interval.last) (by omega)
  have hed : e < d + 7 := Reading.lt_of_on_lt (t := w.interval.last) (by omega)
  rw [Date.eq_of_weekday_eq (hd.trans he.symm) hde hed, hend]

end DayInterval

end Timetable
