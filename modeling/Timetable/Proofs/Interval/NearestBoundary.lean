import Mathlib.Data.Int.Order.Basic
import Mathlib.Order.Bounds.Basic
import Timetable.Proofs.Interval.NextOccurrence

namespace Timetable

namespace Date

theorem isLeast_onOrAfter (d : Int) (target : Weekday) :
    IsLeast {e | d ≤ e ∧ weekday e = target} (onOrAfter d target) := by
  refine ⟨⟨le_onOrAfter d target, weekday_onOrAfter d target⟩, ?_⟩
  rintro e ⟨hde, he⟩
  by_contra hlt
  have hweek := onOrAfter_lt d target
  have heq := eq_of_weekday_eq (he.trans (weekday_onOrAfter d target).symm) (by omega) (by omega)
  omega

end Date

theorem Weekday.index_le_add_seven (d e : Weekday) : d.index ≤ 7 + e.index := by
  have hd := d.index_lt
  omega

theorem Weekday.coe_daysUntil (d e : Weekday) :
    (d.daysUntil e : Int) = (7 + e.index - d.index) % 7 := by
  have hle := d.index_le_add_seven e
  rw [daysUntil]
  omega

namespace Reading

structure Strikes (w : Int) (day : Weekday) (time : TimeOfDay) : Prop where
  weekday_eq : weekday w = day
  timeOfDay_eq : timeOfDay w = time
  exactly : w % Span.minute = 0

theorem on_timeOfDay (w : Int) : on (date w) (timeOfDay w) + w % Span.minute = w := by
  simp only [on, date, timeOfDay, Span.day, Span.hour, Span.minute]
  omega

theorem on_emod_minute (d : Int) (t : TimeOfDay) : on d t % Span.minute = 0 := by
  simp only [on, Span.day, Span.hour, Span.minute]
  omega

theorem strikes_iff {w : Int} {day : Weekday} {time : TimeOfDay} :
    Strikes w day time ↔ ∃ d, Date.weekday d = day ∧ w = on d time := by
  constructor
  · rintro ⟨hday, rfl, hexactly⟩
    have hw := on_timeOfDay w
    exact ⟨date w, hday, by omega⟩
  · rintro ⟨d, hday, rfl⟩
    refine ⟨?_, timeOfDay_on d time, on_emod_minute d time⟩
    rw [weekday, date_on, hday]

end Reading

theorem Zone.Constant.strikes_iff {z : Zone} {o : Int} (ho : z.Constant o) {t : Int} {day : Weekday}
    {time : TimeOfDay} : Reading.Strikes (z.reading t) day time ↔
      ∃ d, Date.weekday d = day ∧ t = Reading.on d time - o * Span.second := by
  rw [Reading.strikes_iff, ho.reading_eq]
  refine exists_congr fun d => and_congr_right fun _ => ?_
  omega

namespace DayInterval

variable {w : DayInterval} {m : Moment} {o : Int}

theorem isLeast_nextStart (ho : m.zone.Constant o) :
    IsLeast {t | m.instant ≤ t ∧ Reading.Strikes (m.zone.reading t) w.day w.interval.first}
      (w.nextStart m).instant := by
  have h : m.Steady o := ho.steady _ _
  obtain ⟨d, hd, hstart, hle, hlt⟩ := exists_nextStart (w := w) h
  refine ⟨⟨hle, ho.strikes_iff.2 ⟨d, hd, hstart⟩⟩, ?_⟩
  rintro t ⟨hmt, ht⟩
  obtain ⟨e, he, hte⟩ := ho.strikes_iff.1 ht
  rcases Int.lt_or_le t (m.instant + Span.week) with hweek | hweek
  · rw [nextStart_eq h he (by omega) (by omega), hte]
  · omega

theorem isLeast_nextEnd (ho : m.zone.Constant o) :
    IsLeast {t | m.instant < t ∧
        Reading.Strikes (m.zone.reading (t - Span.minute)) w.day w.interval.last}
      (w.nextEnd m).instant := by
  have h : m.Steady o := ho.steady _ _
  obtain ⟨d, hd, hend, hlt, hle⟩ := exists_nextEnd (w := w) h
  refine ⟨⟨hlt, ho.strikes_iff.2 ⟨d, hd, by omega⟩⟩, ?_⟩
  rintro t ⟨hmt, ht⟩
  obtain ⟨e, he, hte⟩ := ho.strikes_iff.1 ht
  rcases Int.lt_or_le (m.instant + Span.week) t with hweek | hweek
  · omega
  · rw [nextEnd_eq h he (by omega) (by omega)]
    omega

theorem next_boundaries_nearest (w : DayInterval) (m : Moment) {o : Int} (ho : m.zone.Constant o) :
    (IsLeast {t | m.instant ≤ t ∧ Reading.Strikes (m.zone.reading t) w.day w.interval.first}
        (w.nextStart m).instant ∧
      (w.nextStart m).instant - m.instant < Span.week) ∧
    (IsLeast {t | m.instant < t ∧
          Reading.Strikes (m.zone.reading (t - Span.minute)) w.day w.interval.last}
        (w.nextEnd m).instant ∧
      (w.nextEnd m).instant - m.instant ≤ Span.week) ∧
    ∀ (date : Int) (target : Weekday),
      (Date.weekday date).index ≤ 7 + target.index ∧
      ((Date.weekday date).daysUntil target : Int) =
        (7 + target.index - (Date.weekday date).index) % 7 ∧
      IsLeast {e | date ≤ e ∧ Date.weekday e = target} (Date.onOrAfter date target) := by
  have h : m.Steady o := ho.steady _ _
  obtain ⟨-, -, -, -, hstart⟩ := exists_nextStart (w := w) h
  obtain ⟨-, -, -, -, hend⟩ := exists_nextEnd (w := w) h
  refine ⟨⟨isLeast_nextStart ho, by omega⟩, ⟨isLeast_nextEnd ho, by omega⟩, fun date target => ?_⟩
  exact ⟨Weekday.index_le_add_seven _ _, Weekday.coe_daysUntil _ _, Date.isLeast_onOrAfter date target⟩

theorem next_boundaries_nearest_at_midnight :
    let z : Zone := { name := "Asia/Kathmandu", base := 20700, changes := [] }
    let w : DayInterval := ⟨.wednesday, { hour := 20, minute := 0 }, .endOfDay⟩
    let m : Moment := ⟨-20700 * Span.second, z⟩
    IsLeast {t | m.instant ≤ t ∧ Reading.Strikes (z.reading t) .wednesday w.interval.first}
        (569700 * Span.second) ∧
      IsLeast {t | m.instant < t ∧ Reading.Strikes (z.reading (t - Span.minute)) .wednesday .endOfDay}
        (m.instant + Span.week) := by
  intro z w m
  have hz : m.zone.Constant 20700 := fun _ => rfl
  obtain ⟨⟨hstart, -⟩, ⟨hend, -⟩, -⟩ := next_boundaries_nearest w m hz
  have hs : (w.nextStart m).instant = 569700 * Span.second := by decide +kernel +zetaReduce
  have he : (w.nextEnd m).instant = m.instant + Span.week := by decide +kernel +zetaReduce
  exact ⟨hs ▸ hstart, he ▸ hend⟩

end DayInterval

end Timetable
