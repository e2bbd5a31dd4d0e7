import Timetable.Proofs.Search.LeastMoment

namespace Timetable

namespace Moment

def weekLater (m : Moment) : Moment :=
  { m with instant := m.instant + Span.week }

@[simp]
theorem instant_weekLater (m : Moment) : m.weekLater.instant = m.instant + Span.week := rfl

@[simp]
theorem zone_weekLater (m : Moment) : m.weekLater.zone = m.zone := rfl

theorem inZone_weekLater (m : Moment) (z : Zone) : m.weekLater.inZone z = (m.inZone z).weekLater :=
  rfl

end Moment

namespace Zone.Constant

variable {z : Zone} {o : Int}

theorem instantOf_add_seven (h : z.Constant o) (d : Int) (t : TimeOfDay) :
    z.instantOf (d + 7) t = z.instantOf d t + Span.week := by
  rw [h.instantOf_eq, h.instantOf_eq, Reading.on_add_seven]
  omega

theorem reading_weekLater {m : Moment} (h : m.zone.Constant o) :
    m.weekLater.reading = m.reading + Span.week := by
  simp only [Moment.reading, Moment.zone_weekLater, Moment.instant_weekLater, h.reading_eq]
  omega

end Zone.Constant

namespace DayInterval

variable {m : Moment} {o : Int}

theorem date_weekLater (h : m.zone.Constant o) (w : DayInterval) :
    Date.onOrAfter (Reading.date m.weekLater.reading) w.day =
      Date.onOrAfter (Reading.date m.reading) w.day + 7 := by
  rw [h.reading_weekLater, Reading.date_add_week, Date.onOrAfter_add_seven]

theorem nextStart_weekLater (h : m.zone.Constant o) (w : DayInterval) :
    w.nextStart m.weekLater = (w.nextStart m).weekLater := by
  simp only [nextStart, date_weekLater h, Moment.zone_weekLater, Moment.instant_weekLater,
    h.instantOf_add_seven, Int.add_le_add_iff_right]
  split <;> rfl

theorem nextEnd_weekLater (h : m.zone.Constant o) (w : DayInterval) :
    w.nextEnd m.weekLater = (w.nextEnd m).weekLater := by
  simp only [nextEnd, date_weekLater h, Moment.zone_weekLater, Moment.instant_weekLater,
    h.instantOf_add_seven, Int.add_right_comm _ Span.week Span.minute, Int.add_lt_add_iff_right]
  split <;> rfl

end DayInterval

namespace Schedule

variable {s : Schedule} {m : Moment} {o : Int}

theorem allows_weekLater (h : s.zone.Constant o) (m : Moment) :
    s.allows m.weekLater = s.allows m :=
  allows_add_week (h m.instant) (h (m.instant + Span.week))

theorem candidates_weekLater (h : m.zone.Constant o) :
    s.candidates m.weekLater = (s.candidates m).map Moment.weekLater := by
  simp only [candidates, DayInterval.nextStart_weekLater h, DayInterval.nextEnd_weekLater h,
    List.map_append, List.map_map, Function.comp_def, List.map_cons, List.map_nil]

theorem mem_candidates_weekLater (h : s.zone.Constant o) {c : Moment} :
    c ∈ s.candidates (m.weekLater.inZone s.zone) ↔
      ∃ d ∈ s.candidates (m.inZone s.zone), d.weekLater = c := by
  rw [Moment.inZone_weekLater, candidates_weekLater h, List.mem_map]

theorem nextAllowed_weekLater_of_ok (h : s.zone.Constant o) {r : Moment}
    (hr : s.nextAllowed m = .ok r) : s.nextAllowed m.weekLater = .ok r.weekLater := by
  obtain ⟨hzone, ⟨c, hc, hallows, hcr⟩, hleast⟩ := nextAllowed_eq_ok_iff.1 hr
  refine nextAllowed_eq_ok_iff.2 ⟨hzone, ⟨c.weekLater, ?_, ?_, ?_⟩, fun d hd hdallows => ?_⟩
  · exact (mem_candidates_weekLater h).2 ⟨c, hc, rfl⟩
  · rwa [allows_weekLater h]
  · rw [Moment.instant_weekLater, hcr, Moment.instant_weekLater]
  · obtain ⟨b, hb, rfl⟩ := (mem_candidates_weekLater h).1 hd
    rw [allows_weekLater h] at hdallows
    exact Int.add_le_add_right (hleast b hb hdallows) Span.week

theorem nextAllowed_weekLater_of_error (h : s.zone.Constant o) {e : Error}
    (he : s.nextAllowed m = .error e) : s.nextAllowed m.weekLater = .error e := by
  obtain ⟨rfl, hnone⟩ := nextAllowed_eq_error_iff.1 he
  refine nextAllowed_eq_error_iff.2 ⟨rfl, fun c hc => ?_⟩
  obtain ⟨d, hd, rfl⟩ := (mem_candidates_weekLater h).1 hc
  rw [allows_weekLater h, hnone d hd]

theorem nextAllowed_weekLater (h : s.zone.Constant o) (m : Moment) :
    s.nextAllowed m.weekLater = (s.nextAllowed m).map Moment.weekLater := by
  cases hnext : s.nextAllowed m with
  | ok r => exact nextAllowed_weekLater_of_ok h hnext
  | error e => exact nextAllowed_weekLater_of_error h hnext

theorem wait_weekLater (h : s.zone.Constant o) (m : Moment) : s.wait m.weekLater = s.wait m := by
  rw [wait_eq_map, wait_eq_map, nextAllowed_weekLater h]
  cases s.nextAllowed m with
  | ok r => simp only [Except.map, Moment.instant_weekLater, Int.add_sub_add_right]
  | error e => rfl

theorem wait_lt_week (h : s.zone.Constant o) {d : Nat} (hd : s.wait m = .ok d) :
    (d : Int) < Span.week := by
  cases hnext : s.nextAllowed m with
  | ok r =>
    have hle := le_of_nextAllowed hnext
    have hlt := lt_week_of_nextAllowed (o := o) (h.steady _ _) hnext
    obtain rfl : (r.instant - m.instant).toNat = d :=
      Except.ok.inj ((wait_of_nextAllowed hnext).symm.trans hd)
    omega
  | error e =>
    rw [wait_eq_error_iff.2 hnext] at hd
    cases hd

theorem answers_repeat_weekly (s : Schedule) (o : Int) (h : ∀ t, s.zone.offsetAt t = o) (m : Moment) :
    s.allows m.weekLater = s.allows m ∧
    (∀ e, s.nextAllowed m.weekLater = .error e ↔ s.nextAllowed m = .error e) ∧
    (∀ r, s.nextAllowed m = .ok r → s.nextAllowed m.weekLater = .ok r.weekLater) ∧
    s.wait m.weekLater = s.wait m ∧
    ∀ d, s.wait m = .ok d → (d : Int) < Span.week := by
  have hconstant : s.zone.Constant o := h
  refine ⟨allows_weekLater hconstant m, fun e => ?_, fun r => nextAllowed_weekLater_of_ok hconstant,
    wait_weekLater hconstant m, fun d => wait_lt_week hconstant⟩
  rw [nextAllowed_weekLater hconstant]
  cases s.nextAllowed m <;> simp [Except.map]

theorem answers_repeat_weekly_with_overnight_interval :
    let s : Schedule := ⟨[⟨.sunday, { hour := 20, minute := 0 }, { hour := 8, minute := 0 }⟩],
      [⟨.sunday, .startOfDay, { hour := 20, minute := 14 }⟩], .asiaKolkata⟩
    let m : Moment := ⟨-1, .europeKyiv⟩
    let r : Moment := ⟨312300 * Span.second, .europeKyiv⟩
    (∀ t, s.zone.offsetAt t = 19800) ∧ s.nextAllowed m = .ok r ∧
      s.allows m.weekLater = s.allows m ∧ s.nextAllowed m.weekLater = .ok r.weekLater ∧
      ∃ d : Nat, s.wait m.weekLater = .ok d ∧ s.wait m = .ok d ∧ (d : Int) < Span.week := by
  intro s m r
  have h : ∀ t, s.zone.offsetAt t = 19800 := fun _ => rfl
  have hr : s.nextAllowed m = .ok r := nextAllowed_eq_ok_iff.2 (by decide +kernel +zetaReduce)
  have hd : s.wait m = .ok (r.instant - m.instant).toNat := wait_of_nextAllowed hr
  obtain ⟨hallows, -, hnext, hwait, hlt⟩ := answers_repeat_weekly s 19800 h m
  exact ⟨h, hr, hallows, hnext r hr, _, hwait.trans hd, hd, hlt _ hd⟩

end Schedule

end Timetable
