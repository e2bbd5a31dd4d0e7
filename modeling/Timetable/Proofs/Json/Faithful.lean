import Timetable.Json.Codec
import Timetable.Language.TimeLiteral

namespace Timetable

namespace Json

variable {α β γ : Type} {j k : Json} {t : TimeOfDay}

inductive Within (i : Json) : Json → Prop
  | self : Within i i
  | item {items : List Json} {j : Json} (hj : j ∈ items) (h : Within i j) : Within i (.array items)
  | field {fields : List (String × Json)} {name : String} {j : Json} (hj : (name, j) ∈ fields)
      (h : Within i j) : Within i (.object fields)

theorem exists_of_mem_mapM {f : α → Option β} {as : List α} {bs : List β} {b : β}
    (h : as.mapM f = some bs) (hb : b ∈ bs) : ∃ a ∈ as, f a = some b := by
  induction as generalizing bs with
  | nil =>
    cases h
    cases hb
  | cons a as ih =>
    simp only [List.mapM_cons, Option.bind_eq_bind, Option.bind_eq_some_iff, Option.pure_def,
      Option.some.injEq] at h
    obtain ⟨c, hc, cs, hcs, rfl⟩ := h
    rcases List.mem_cons.1 hb with rfl | hb
    · exact ⟨a, List.mem_cons_self, hc⟩
    · obtain ⟨d, hd, hread⟩ := ih hcs hb
      exact ⟨d, List.mem_cons_of_mem _ hd, hread⟩

def Shows (j : Json) (t : TimeOfDay) : Prop :=
  ∃ s, (Json.string s).Within j ∧ TimeOfDay.ofString s = .ok t

theorem Shows.of_item {items : List Json} (h : k.Shows t) (hk : k ∈ items) : (array items).Shows t := by
  obtain ⟨s, hs, ht⟩ := h
  exact ⟨s, .item hk hs, ht⟩

theorem Shows.of_field {names : List String} {ks : List Json} (h : k.Shows t)
    (hks : j.fields? names = some ks) (hk : k ∈ ks) : j.Shows t := by
  cases j with
  | array items =>
    simp only [fields?] at hks
    split at hks
    · cases hks
      exact h.of_item hk
    · cases hks
  | object fields =>
    obtain ⟨name, -, hname⟩ := exists_of_mem_mapM hks hk
    obtain ⟨before, after, rfl, -⟩ := List.lookup_eq_some_iff.1 hname
    obtain ⟨s, hs, ht⟩ := h
    exact ⟨s, .field (List.mem_append_right before List.mem_cons_self) hs, ht⟩
  | _ => cases hks

theorem exists_of_pair? {first second : String} {a? : Json → Option α} {b? : Json → Option β}
    {make : α → β → γ} {c : γ} (h : pair? first second a? b? make j = some c) :
    ∃ x y a b, j.fields? [first, second] = some [x, y] ∧ a? x = some a ∧ b? y = some b ∧
      make a b = c := by
  unfold pair? at h
  split at h
  · next x y hfields =>
    obtain ⟨a, ha, h⟩ := Option.bind_eq_some_iff.1 h
    obtain ⟨b, hb, hmake⟩ := Option.map_eq_some_iff.1 h
    exact ⟨x, y, a, b, hfields, ha, hb, hmake⟩
  · cases h

def Traced (read? : Json → Option α) (times : α → List TimeOfDay) : Prop :=
  ∀ j a, read? j = some a → ∀ t ∈ times a, j.Shows t

namespace Traced

variable {a? : Json → Option α} {b? : Json → Option β} {as : α → List TimeOfDay}
  {bs : β → List TimeOfDay}

theorem list (h : Traced a? as) : Traced (list? a?) fun xs => xs.flatMap as := by
  intro j xs hread t ht
  obtain ⟨x, hx, ht⟩ := List.mem_flatMap.1 ht
  cases j with
  | array items =>
    obtain ⟨k, hk, hkx⟩ := exists_of_mem_mapM hread hx
    exact (h k x hkx t ht).of_item hk
  | _ => cases hread

theorem pair (ha : Traced a? as) (hb : Traced b? bs) {first second : String} {make : α → β → γ}
    {times : γ → List TimeOfDay} (htimes : ∀ a b, times (make a b) = as a ++ bs b) :
    Traced (pair? first second a? b? make) times := by
  intro j c hread t ht
  obtain ⟨x, y, a, b, hfields, hx, hy, rfl⟩ := exists_of_pair? hread
  rw [htimes, List.mem_append] at ht
  rcases ht with ht | ht
  · exact (ha x a hx t ht).of_field hfields (by simp)
  · exact (hb y b hy t ht).of_field hfields (by simp)

end Traced

structure Faithful (write : α → Json) (read? : Json → Option α) (times : α → List TimeOfDay)
    (Known : α → Prop := fun _ => True) : Prop where
  read_write : ∀ a, Known a → read? (write a) = some a
  reread : ∀ j a, read? j = some a → read? (write a) = some a
  times_valid : ∀ j a, read? j = some a → ∀ t ∈ times a, t.hour ≤ 23 ∧ t.minute ≤ 59 ∧ j.Shows t

theorem Traced.times_valid {a? : Json → Option α} {as : α → List TimeOfDay} (h : Traced a? as)
    (j : Json) (a : α) (ha : a? j = some a) :
    ∀ t ∈ as a, t.hour ≤ 23 ∧ t.minute ≤ 59 ∧ j.Shows t :=
  fun t ht => ⟨Nat.le_of_lt_succ t.hour_lt, Nat.le_of_lt_succ t.minute_lt, h j a ha t ht⟩

theorem Faithful.of_traced {write : α → Json} {read? : Json → Option α} {times : α → List TimeOfDay}
    (hback : ∀ a, read? (write a) = some a) (h : Traced read? times) : Faithful write read? times :=
  ⟨fun a _ => hback a, fun _ a _ => hback a, h.times_valid⟩

end Json

open Json (Traced)

namespace TimeOfDay

theorem ofJson?_eq_some_iff {j : Json} {t : TimeOfDay} :
    ofJson? j = some t ↔ ∃ s, j = .string s ∧ ofString s = .ok t := by
  cases j with
  | string s => simp [ofJson?, ofString_eq_ok_iff]
  | _ => simp [ofJson?]

theorem traced : Traced ofJson? fun t => [t] := by
  intro j a h t ht
  obtain rfl := List.mem_singleton.1 ht
  obtain ⟨s, rfl, hs⟩ := ofJson?_eq_some_iff.1 h
  exact ⟨s, .self, hs⟩

end TimeOfDay

namespace Interval

def times (i : Interval) : List TimeOfDay :=
  [i.first, i.last]

theorem traced : Traced ofJson? times :=
  TimeOfDay.traced.pair TimeOfDay.traced fun _ _ => rfl

end Interval

theorem Directive.traced : Traced Directive.ofJson? fun _ => [] := by
  intro j d _ t ht
  cases ht

theorem Weekday.traced : Traced Weekday.ofJson? fun _ => [] := by
  intro j d _ t ht
  cases ht

namespace Agenda

def times (a : Agenda) : List TimeOfDay :=
  a.intervals.flatMap Interval.times

theorem traced : Traced ofJson? times :=
  Interval.traced.list.pair Directive.traced fun _ _ => (List.append_nil _).symm

end Agenda

namespace DayInterval

def times (w : DayInterval) : List TimeOfDay :=
  w.interval.times

theorem traced : Traced ofJson? times :=
  Weekday.traced.pair Interval.traced fun _ _ => rfl

end DayInterval

namespace Schedule

variable {find? : String → Option Zone}

def times (s : Schedule) : List TimeOfDay :=
  (s.allowed ++ s.forbidden).flatMap DayInterval.times

theorem exists_of_ofJsonWith? {j : Json} {s : Schedule} (h : ofJsonWith? find? j = some s) :
    ∃ x y name, j.fields? ["allowed", "forbidden", "tz"] = some [x, y, .string name] ∧
      Json.list? DayInterval.ofJson? x = some s.allowed ∧
      Json.list? DayInterval.ofJson? y = some s.forbidden ∧ find? name = some s.zone := by
  unfold ofJsonWith? at h
  split at h
  · next x y z hfields =>
    simp only [Option.bind_eq_bind, Option.bind_eq_some_iff, Option.pure_def, Option.some.injEq] at h
    obtain ⟨allowed, hx, forbidden, hy, zone, hz, rfl⟩ := h
    cases z with
    | string name => exact ⟨x, y, name, hfields, hx, hy, hz⟩
    | _ => cases hz
  · cases h

theorem traced : Traced (ofJsonWith? find?) times := by
  intro j s hread t ht
  obtain ⟨x, y, _, hfields, hx, hy, -⟩ := exists_of_ofJsonWith? hread
  rw [times, List.flatMap_append, List.mem_append] at ht
  rcases ht with ht | ht
  · exact (DayInterval.traced.list x s.allowed hx t ht).of_field hfields (by simp)
  · exact (DayInterval.traced.list y s.forbidden hy t ht).of_field hfields (by simp)

end Schedule

namespace Json

theorem formats_faithful {find? : String → Option Zone}
    (hfind : ∀ name z, find? name = some z → find? z.name = some z) :
    Faithful TimeOfDay.toJson TimeOfDay.ofJson? (fun t => [t]) ∧
      Faithful Interval.toJson Interval.ofJson? Interval.times ∧
      Faithful Directive.toJson Directive.ofJson? (fun _ => []) ∧
      Faithful Agenda.toJson Agenda.ofJson? Agenda.times ∧
      Faithful DayInterval.toJson DayInterval.ofJson? DayInterval.times ∧
      Faithful Schedule.toJson (Schedule.ofJsonWith? find?) Schedule.times
        (fun s => find? s.zone.name = some s.zone) ∧
      ∀ j t, TimeOfDay.ofJson? j = some t ↔ ∃ s, j = .string s ∧ TimeOfDay.ofString s = .ok t := by
  refine ⟨.of_traced TimeOfDay.ofJson?_toJson TimeOfDay.traced,
    .of_traced Interval.ofJson?_toJson Interval.traced,
    .of_traced Directive.ofJson?_toJson Directive.traced,
    .of_traced Agenda.ofJson?_toJson Agenda.traced,
    .of_traced DayInterval.ofJson?_toJson DayInterval.traced,
    ⟨fun s => Schedule.ofJsonWith?_toJson, fun j s h => ?_, Schedule.traced.times_valid⟩,
    fun j t => TimeOfDay.ofJson?_eq_some_iff⟩
  obtain ⟨_, _, name, -, -, -, hzone⟩ := Schedule.exists_of_ofJsonWith? h
  exact Schedule.ofJsonWith?_toJson (hfind name s.zone hzone)

theorem formats_faithful_of_array :
    let j : Json := .array
      [.array [.array [.string "SunDAY", .object
        [("end", .string "0900"), ("note", .null), ("start", .string "2200")]]],
        .array [], .string "Europe/Kyiv"]
    let s : Schedule := ⟨[⟨.sunday, ⟨{ hour := 22, minute := 0 }, { hour := 9, minute := 0 }⟩⟩], [],
      .europeKyiv⟩
    (∀ name z, Zone.find? name = some z → Zone.find? z.name = some z) ∧
      Zone.find? s.zone.name = some s.zone ∧ Schedule.ofJson? j = some s ∧
      Schedule.ofJson? s.toJson = some s ∧
      ∀ t ∈ s.times, t.hour ≤ 23 ∧ t.minute ≤ 59 ∧ j.Shows t := by
  intro j s
  have hfind : ∀ name z, Zone.find? name = some z → Zone.find? z.name = some z := by
    intro name z h
    rwa [Zone.name_of_find? h]
  obtain ⟨-, -, -, -, -, hschedule, -⟩ := formats_faithful hfind
  have hknown : Zone.find? s.zone.name = some s.zone := by decide +kernel
  have hread : Schedule.ofJson? j = some s := by decide +kernel
  exact ⟨hfind, hknown, hread, hschedule.read_write s hknown, hschedule.times_valid j s hread⟩

end Json

end Timetable
