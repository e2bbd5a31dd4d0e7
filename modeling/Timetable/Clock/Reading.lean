import Timetable.Clock.TimeOfDay
import Timetable.Clock.Weekday

namespace Timetable

namespace Span

abbrev second : Int := 1000000000

abbrev minute : Int := 60000000000

abbrev hour : Int := 3600000000000

abbrev day : Int := 86400000000000

abbrev week : Int := 604800000000000

theorem minute_eq : minute = 60 * second := rfl

theorem hour_eq : hour = 60 * minute := rfl

end Span

namespace Date

/-- The first day of 1970 was a Thursday. -/
def weekday (d : Int) : Weekday :=
  Weekday.ofIndex ((d + 4) % 7).toNat

theorem index_weekday (d : Int) : ((weekday d).index : Int) = (d + 4) % 7 := by
  simp only [weekday, Weekday.index_ofIndex]
  omega

def onOrAfter (d : Int) (target : Weekday) : Int :=
  d + (weekday d).daysUntil target

theorem weekday_onOrAfter (d : Int) (target : Weekday) :
    weekday (onOrAfter d target) = target := by
  have h := index_weekday d
  have ht := target.index_lt
  have h' := index_weekday (onOrAfter d target)
  rw [← Weekday.index_inj]
  simp only [onOrAfter, Weekday.daysUntil] at h' ⊢
  omega

end Date

namespace Reading

def on (date : Int) (time : TimeOfDay) : Int :=
  date * Span.day + time.hour * Span.hour + time.minute * Span.minute

def date (w : Int) : Int :=
  w / Span.day

def weekday (w : Int) : Weekday :=
  Date.weekday (date w)

def timeOfDay (w : Int) : TimeOfDay where
  hour := (w % Span.day / Span.hour).toNat
  minute := (w % Span.hour / Span.minute).toNat
  hour_lt := by simp only [Span.day, Span.hour]; omega
  minute_lt := by simp only [Span.hour, Span.minute]; omega

theorem date_on (d : Int) (t : TimeOfDay) : date (on d t) = d := by
  have hh := t.hour_lt
  have hm := t.minute_lt
  simp only [date, on, Span.day, Span.hour, Span.minute]
  omega

theorem timeOfDay_on (d : Int) (t : TimeOfDay) : timeOfDay (on d t) = t := by
  have hh := t.hour_lt
  have hm := t.minute_lt
  apply TimeOfDay.ext <;> simp only [timeOfDay, on, Span.day, Span.hour, Span.minute] <;> omega

end Reading

end Timetable
