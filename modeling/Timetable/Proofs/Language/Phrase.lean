import Timetable.Proofs.Language.Symbol
import Timetable.Schedule.Basic

namespace Timetable

namespace Phrase

inductive Interval where
  | span (first last : TimeOfDay)
  | since (first : TimeOfDay)
  | upTo (last : TimeOfDay)
  deriving DecidableEq, Repr

namespace Interval

def symbols : Interval → List Symbol
  | .span first last => [.time first, .dash, .time last]
  | .since first => [.time first]
  | .upTo last => [.dash, .time last]

def meaning : Interval → Timetable.Interval
  | .span first last => ⟨first, last⟩
  | .since first => ⟨first, ⟨23, 59, Nat.lt_succ_self 23, Nat.lt_succ_self 59⟩⟩
  | .upTo last => ⟨⟨0, 0, Nat.zero_lt_succ 23, Nat.zero_lt_succ 59⟩, last⟩

theorem meaning_since (first : TimeOfDay) : (since first).meaning = ⟨first, .endOfDay⟩ := rfl

theorem meaning_upTo (last : TimeOfDay) : (upTo last).meaning = ⟨.startOfDay, last⟩ := rfl

def EndsBefore (k : TokenKind) : Interval → Prop
  | .since _ => k ≠ .dash
  | _ => True

def firstKind : Interval → TokenKind
  | .upTo _ => .dash
  | _ => .time

end Interval

inductive Days where
  | single (day : Weekday)
  | range (first last : Weekday)
  deriving DecidableEq, Repr

namespace Days

def symbols : Days → List Symbol
  | .single day => [.day day]
  | .range first last => [.day first, .dash, .day last]

def onward (first : Weekday) (k : Nat) : Weekday :=
  Weekday.all.getD ((Weekday.all.idxOf first + k) % 7) first

def meaning : Days → List Weekday
  | .single day => [day]
  | .range first last =>
    (List.range ((Weekday.all.idxOf last + 7 - Weekday.all.idxOf first) % 7 + 1)).map (onward first)

theorem idxOf_all (d : Weekday) : Weekday.all.idxOf d = d.index := by
  cases d <;> rfl

theorem getD_all {n : Nat} (h : n < 7) (d : Weekday) : Weekday.all.getD n d = .ofIndex n := by
  have hall : ∀ n < 7, Weekday.all[n]? = some (.ofIndex n) := by decide
  rw [List.getD_eq_getElem?_getD, hall n h, Option.getD_some]

theorem onward_eq (first : Weekday) (k : Nat) : onward first k = .ofIndex (first.index + k) := by
  have hmod : Weekday.ofIndex (first.index + k) = .ofIndex ((first.index + k) % 7) := by
    simp [Weekday.ofIndex]
  rw [onward, idxOf_all, getD_all (Nat.mod_lt _ (by decide)), hmod]

theorem meaning_range (first last : Weekday) :
    (range first last).meaning = first.through last := by
  rw [meaning, Weekday.through, Weekday.daysUntil, idxOf_all, idxOf_all, Nat.add_comm 7]
  exact List.map_congr_left fun k _ => onward_eq first k

def EndsBefore (k : TokenKind) : Days → Prop
  | .single _ => k ≠ .dash
  | .range .. => True

end Days

structure Agenda where
  directive : Directive
  intervals : List Interval
  nonempty : intervals ≠ []
  greedy : intervals.IsChain fun i j => i.EndsBefore j.firstKind

namespace Agenda

def symbols (a : Agenda) : List Symbol :=
  .directive a.directive :: a.intervals.flatMap Interval.symbols

def meaning (a : Agenda) : Timetable.Agenda :=
  ⟨a.intervals.map Interval.meaning, a.directive⟩

end Agenda

structure Group where
  days : Days
  agendas : List Agenda
  nonempty : agendas ≠ []

namespace Group

def symbols (g : Group) : List Symbol :=
  g.days.symbols ++ g.agendas.flatMap Agenda.symbols

def dayIntervals (g : Group) (d : Directive) : List DayInterval :=
  (g.agendas.filter (·.directive = d)).flatMap fun a =>
    a.intervals.flatMap fun i => g.days.meaning.map fun day => ⟨day, i.meaning⟩

end Group

end Phrase

structure Sentence where
  groups : List Phrase.Group
  nonempty : groups ≠ []

namespace Sentence

def symbols (s : Sentence) : List Symbol :=
  s.groups.flatMap Phrase.Group.symbols

def meaning (s : Sentence) : Schedule where
  allowed := s.groups.flatMap (·.dayIntervals .allow)
  forbidden := s.groups.flatMap (·.dayIntervals .forbid)
  zone := .utc

end Sentence

end Timetable
