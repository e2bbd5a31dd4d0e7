import Timetable.Agenda
import Timetable.Error

namespace Timetable

structure Schedule where
  allowed : List DayInterval
  forbidden : List DayInterval
  zone : Zone
  deriving DecidableEq, Repr

namespace Schedule

def empty (zone : Zone) : Schedule := ⟨[], [], zone⟩

def withZone (s : Schedule) (zone : Zone) : Schedule :=
  { s with zone := zone }

def allow (s : Schedule) (w : DayInterval) : Schedule :=
  { s with allowed := s.allowed ++ [w] }

def forbid (s : Schedule) (w : DayInterval) : Schedule :=
  { s with forbidden := s.forbidden ++ [w] }

def addAgenda (s : Schedule) (days : List Weekday) (a : Agenda) : Schedule :=
  match a.directive with
  | .allow => { s with allowed := s.allowed ++ a.onDays days }
  | .forbid => { s with forbidden := s.forbidden ++ a.onDays days }

def addAgendas (s : Schedule) (days : List Weekday) (agendas : List Agenda) : Schedule :=
  agendas.foldl (fun s a => s.addAgenda days a) s

def alwaysAllowed (zone : Zone) : Schedule :=
  (empty zone).addAgenda Weekday.all ⟨[.wholeDay], .allow⟩

theorem addAgenda_eq (s : Schedule) (days : List Weekday) (a : Agenda) :
    s.addAgenda days a =
      ⟨s.allowed ++ if a.directive = .allow then a.onDays days else [],
        s.forbidden ++ if a.directive = .forbid then a.onDays days else [], s.zone⟩ := by
  obtain ⟨is, d⟩ := a
  cases d <;> simp [addAgenda]

theorem addAgendas_eq (s : Schedule) (days : List Weekday) (as : List Agenda) :
    s.addAgendas days as =
      ⟨s.allowed ++ (as.filter (·.directive = .allow)).flatMap (·.onDays days),
        s.forbidden ++ (as.filter (·.directive = .forbid)).flatMap (·.onDays days), s.zone⟩ := by
  induction as generalizing s with
  | nil => simp [addAgendas]
  | cons a as ih =>
    change (s.addAgenda days a).addAgendas days as = _
    obtain ⟨is, d⟩ := a
    rw [ih, addAgenda_eq]
    cases d <;> simp

def allows (s : Schedule) (m : Moment) : Bool :=
  s.allowed.any (·.contains (m.inZone s.zone)) && !s.forbidden.any (·.contains (m.inZone s.zone))

theorem allows_inZone (s : Schedule) (m : Moment) (z : Zone) : s.allows (m.inZone z) = s.allows m :=
  rfl

def check (s : Schedule) (m : Moment) : Except Error Unit :=
  if s.allows m then .ok ()
  else
    let w := s.zone.reading m.instant
    .error (.notAllowed (Reading.weekday w) (Reading.timeOfDay w))

def lines (s : Schedule) : List String :=
  s.allowed.map (line .allow) ++ s.forbidden.map (line .forbid)
where
  line (d : Directive) (w : DayInterval) : String :=
    w.day.fullName ++ " " ++ d.name ++ " " ++ toString w.interval

instance : ToString Schedule where
  toString s := "\n".intercalate s.lines

end Schedule

end Timetable
