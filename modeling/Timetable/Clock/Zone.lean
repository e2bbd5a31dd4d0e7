import Timetable.Clock.Reading

namespace Timetable

structure OffsetChange where
  since : Int
  offset : Int
  deriving DecidableEq, Repr

structure Zone where
  name : String
  base : Int
  changes : List OffsetChange
  offset_lt : ∀ o ∈ base :: changes.map (·.offset), o.natAbs < 86400 := by decide
  deriving DecidableEq, Repr

namespace Zone

def fixed (name : String) (offset : Int) (h : offset.natAbs < 86400) : Zone :=
  ⟨name, offset, [], by simpa using h⟩

def utc : Zone :=
  { name := "UTC", base := 0, changes := [] }

def offsetFrom (base : Int) : List OffsetChange → Int → Int
  | [], _ => base
  | c :: cs, t => if t < c.since * Span.second then base else offsetFrom c.offset cs t

theorem offsetFrom_mem (base : Int) (cs : List OffsetChange) (t : Int) :
    offsetFrom base cs t ∈ base :: cs.map (·.offset) := by
  induction cs generalizing base with
  | nil => simp [offsetFrom]
  | cons c cs ih =>
    simp only [offsetFrom]
    split
    · simp
    · exact List.mem_cons_of_mem _ (ih c.offset)

def offsetAt (z : Zone) (t : Int) : Int :=
  offsetFrom z.base z.changes t

def offsets (z : Zone) : List Int :=
  z.base :: z.changes.map (·.offset)

theorem offsetAt_mem_offsets (z : Zone) (t : Int) : z.offsetAt t ∈ z.offsets :=
  offsetFrom_mem z.base z.changes t

theorem natAbs_offsetAt_lt (z : Zone) (t : Int) : (z.offsetAt t).natAbs < 86400 :=
  z.offset_lt _ (z.offsetAt_mem_offsets t)

def reading (z : Zone) (t : Int) : Int :=
  t + z.offsetAt t * Span.second

def instants (z : Zone) (w : Int) : List Int :=
  (z.offsets.eraseDups.map fun o => w - o * Span.second).filter fun t => z.reading t = w

theorem mem_instants {z : Zone} {w t : Int} : t ∈ z.instants w ↔ z.reading t = w := by
  simp only [instants, List.mem_filter, List.mem_map, List.mem_eraseDups, decide_eq_true_eq]
  constructor
  · exact fun h => h.2
  · intro h
    refine ⟨⟨z.offsetAt t, z.offsetAt_mem_offsets t, ?_⟩, h⟩
    simp only [reading] at h
    omega

def earliest? (z : Zone) (w : Int) : Option Int :=
  (z.instants w).min?

theorem earliest?_eq_some_iff {z : Zone} {w t : Int} :
    z.earliest? w = some t ↔ z.reading t = w ∧ ∀ u, z.reading u = w → t ≤ u := by
  simp only [earliest?, List.min?_eq_some_iff, mem_instants]

/--
The instant of a time on a date: the earliest that shows it, or for a time that the clock skips
the earliest that shows one hour later. Where neither is shown the time is read as UTC.
-/
def instantOf (z : Zone) (date : Int) (time : TimeOfDay) : Int :=
  let w := Reading.on date time
  ((z.earliest? w).or (z.earliest? (w + Span.hour))).getD w

end Zone

structure Moment where
  instant : Int
  zone : Zone
  deriving DecidableEq, Repr

namespace Moment

def inZone (m : Moment) (z : Zone) : Moment :=
  { m with zone := z }

def reading (m : Moment) : Int :=
  m.zone.reading m.instant

def offset (m : Moment) : Int :=
  m.zone.offsetAt m.instant

end Moment

end Timetable
