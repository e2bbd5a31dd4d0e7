import Timetable.Language.Rule
import Timetable.Language.TimeLiteral
import Timetable.Schedule.Basic

namespace Timetable.Parser

def dayOfWeek : Parse Weekday := fun p =>
  match if p.token.kind = .dayOfWeek then Weekday.ofName? p.token.lexeme else none with
  | some day => take day p
  | none => unexpected [.dayOfWeek] p

theorem shrinks_dayOfWeek : Shrinks dayOfWeek := by
  intro p a q h
  unfold dayOfWeek at h
  split at h
  · next e =>
    refine size_take_lt h ?_
    intro hk
    simp [hk] at e
  · cases h

def time : Parse TimeOfDay := fun p =>
  if p.token.kind = .time then
    match TimeOfDay.ofChars p.token.lexeme with
    | .ok t => take t p
    | .error e => .error e p
  else
    unexpected [.time] p

theorem shrinks_time : Shrinks time := by
  intro p a q h
  unfold time at h
  split at h
  · next hk =>
    split at h
    · exact size_take_lt h (by simp [hk])
    · cases h
  · cases h

def days : Parse (List Weekday) := do
  let first ← dayOfWeek
  onKind fun
    | .dash => do
      advance
      let last ← dayOfWeek
      return first.through last
    | _ => return [first]

theorem shrinks_days : Shrinks days := by
  refine shrinks_dayOfWeek.bind fun first => Keeps.onKind fun k => ?_
  split
  · exact keeps_advance.bind fun _ => shrinks_dayOfWeek.keeps.bind fun _ => Keeps.pure _
  · exact Keeps.pure _

def interval : Parse Interval :=
  onKind fun
    | .time => do
      let first ← time
      onKind fun
        | .dash => do
          advance
          let last ← time
          return ⟨first, last⟩
        | _ => return ⟨first, .endOfDay⟩
    | .dash => do
      advance
      let last ← time
      return ⟨.startOfDay, last⟩
    | _ => unexpected [.time, .dash]

theorem shrinks_interval : Shrinks interval := by
  refine Shrinks.onKind fun k => ?_
  split
  · refine shrinks_time.bind fun first => Keeps.onKind fun k => ?_
    split
    · exact keeps_advance.bind fun _ => shrinks_time.keeps.bind fun _ => Keeps.pure _
    · exact Keeps.pure _
  · exact keeps_advance.bind_shrinks fun _ => shrinks_time.bind fun _ => Keeps.pure _
  · exact shrinks_unexpected _

def beginsInterval : TokenKind → Bool
  | .time | .dash => true
  | _ => false

def intervals : Parse (List Interval) :=
  oneOrMore beginsInterval interval shrinks_interval

def agenda : Parse Agenda :=
  onKind fun
    | .allow => agendaOf .allow
    | .forbid => agendaOf .forbid
    | _ => unexpected [.allow, .forbid]
where
  agendaOf (directive : Directive) : Parse Agenda := do
    advance
    let intervals ← intervals
    return ⟨intervals, directive⟩

theorem shrinks_agenda : Shrinks agenda := by
  have ofDirective (directive : Directive) : Shrinks (agenda.agendaOf directive) :=
    keeps_advance.bind_shrinks fun _ => shrinks_interval.oneOrMore.bind fun _ => Keeps.pure _
  refine Shrinks.onKind fun k => ?_
  split
  · exact ofDirective _
  · exact ofDirective _
  · exact shrinks_unexpected _

def beginsAgenda : TokenKind → Bool
  | .allow | .forbid => true
  | _ => false

def agendas : Parse (List Agenda) :=
  oneOrMore beginsAgenda agenda shrinks_agenda

def group : Parse (List Weekday × List Agenda) := do
  let days ← days
  let agendas ← agendas
  return (days, agendas)

theorem shrinks_group : Shrinks group :=
  shrinks_days.bind fun _ => shrinks_agenda.oneOrMore.keeps.bind fun _ => Keeps.pure _

def beginsGroup : TokenKind → Bool
  | .dayOfWeek => true
  | _ => false

def schedule : Parse Schedule := do
  let groups ← oneOrMore beginsGroup group shrinks_group
  return groups.foldl (fun s g => s.addAgendas g.1 g.2) (.empty .utc)

def parse : Parse Schedule := do
  advance
  let schedule ← schedule
  onKind fun
    | .endInput => return schedule
    | _ => unexpected [.endInput]

end Timetable.Parser
