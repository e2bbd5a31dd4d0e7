import Timetable.Proofs.Language.Acceptance
import Timetable.Proofs.Language.Spelling

namespace Timetable

namespace Phrase.Group

def ofLine (d : Directive) (w : DayInterval) : Phrase.Group where
  days := .single w.day
  agendas := [⟨d, [.span w.interval.first w.interval.last], by simp, .singleton _⟩]
  nonempty := by simp

theorem dayIntervals_ofLine (d e : Directive) (w : DayInterval) :
    (ofLine d w).dayIntervals e = if d = e then [w] else [] := by
  by_cases h : d = e
  · simp [dayIntervals, ofLine, h, Days.meaning, Interval.meaning]
  · simp [dayIntervals, ofLine, h]

theorem written_ofLine (d : Directive) (w : DayInterval) :
    Written {} (Schedule.lines.line d w).toList (ofLine d w).symbols := by
  have hday : (Symbol.day w.day).Spelling w.day.fullName.toList := .of_mem_names List.mem_cons_self
  have hdirective : (Symbol.directive d).Spelling d.name.toList := .of_mem_names List.mem_cons_self
  have hblank : ∀ c ∈ [' '], Layout.separates {} c := List.forall_mem_singleton.2 rfl
  have hnone : ∀ c ∈ ([] : List Char), Layout.separates {} c := by simp
  have htext : (Schedule.lines.line d w).toList =
      [] ++ (w.day.fullName.toList ++ ([' '] ++ (d.name.toList ++ ([' '] ++
        (w.interval.first.digits ++ ([] ++ (['-'] ++ ([] ++ (w.interval.last.digits ++ []))))))))) := by
    simp [Schedule.lines.line, toString, Interval.chars]
  rw [htext]
  refine .cons hnone hday (by simp) ?_
  refine .cons hblank hdirective (by simp) ?_
  refine .cons hblank (.time _) (by simp [Symbol.names]) ?_
  refine .cons hnone .dash (by simp [Symbol.names]) ?_
  exact .cons hnone (.time _) (by simp) (.nil hnone)

end Phrase.Group

theorem Written.intercalate {lines : List String} {groups : List Phrase.Group}
    (h : List.Forall₂ (fun line (g : Phrase.Group) => Written {} line.toList g.symbols) lines groups) :
    Written {} ("\n".intercalate lines).toList (groups.flatMap Phrase.Group.symbols) := by
  have hend : ∀ c ∈ ['\n'], Layout.separates {} c := List.forall_mem_singleton.2 rfl
  induction h with
  | nil => exact .nil (by simp)
  | @cons line g lines groups hline hlines ih =>
    cases hlines with
    | nil => simpa using hline
    | cons =>
      rw [String.intercalate_cons_cons, String.toList_append, String.toList_append,
        List.append_assoc, List.flatMap_cons]
      refine hline.append (ih.separators_append hend) ?_
      rintro _ ⟨⟩
      rfl

theorem Sentence.meaning_ne_empty (x : Sentence) :
    x.meaning.allowed ≠ [] ∨ x.meaning.forbidden ≠ [] := by
  obtain ⟨g, hg⟩ := List.exists_mem_of_ne_nil _ x.nonempty
  obtain ⟨a, ha⟩ := List.exists_mem_of_ne_nil _ g.nonempty
  obtain ⟨i, hi⟩ := List.exists_mem_of_ne_nil _ a.nonempty
  have hdays : g.days.meaning ≠ [] := by
    cases g.days with
    | single day => simp [Phrase.Days.meaning]
    | range first last => simp [Phrase.Days.meaning]
  obtain ⟨day, hday⟩ := List.exists_mem_of_ne_nil _ hdays
  have hmem : ⟨day, i.meaning⟩ ∈ x.groups.flatMap (·.dayIntervals a.directive) := by
    refine List.mem_flatMap.2 ⟨g, hg, List.mem_flatMap.2 ⟨a, by simpa using ha, ?_⟩⟩
    exact List.mem_flatMap.2 ⟨i, hi, List.mem_map_of_mem hday⟩
  cases hd : a.directive with
  | allow =>
    rw [hd] at hmem
    exact .inl (List.ne_nil_of_mem hmem)
  | forbid =>
    rw [hd] at hmem
    exact .inr (List.ne_nil_of_mem hmem)

namespace Schedule

theorem ofSourceWith_of_written {layout : Layout} {source : String} (hl : layout.Neutral)
    (x : Sentence) (h : Written layout source.toList x.symbols) :
    ofSourceWith layout source = .ok x.meaning := by
  have hwritten := h.terminated hl
  obtain ⟨ts, hyields, hts⟩ := Lexer.yields_of_written (l := .ofString source layout) hl rfl hwritten
  exact ofSourceWith_eq_ok_iff.2 ⟨ts, x, hyields, hts, rfl⟩

def groups (s : Schedule) : List Phrase.Group :=
  s.allowed.map (.ofLine .allow) ++ s.forbidden.map (.ofLine .forbid)

theorem groups_eq_nil_iff {s : Schedule} : s.groups = [] ↔ s.allowed = [] ∧ s.forbidden = [] := by
  simp [groups]

theorem written_toString (s : Schedule) :
    Written {} (toString s).toList (s.groups.flatMap Phrase.Group.symbols) := by
  refine Written.intercalate (List.rel_append ?_ ?_)
  · rw [List.forall₂_map_left_iff, List.forall₂_map_right_iff, List.forall₂_same]
    exact fun w _ => Phrase.Group.written_ofLine .allow w
  · rw [List.forall₂_map_left_iff, List.forall₂_map_right_iff, List.forall₂_same]
    exact fun w _ => Phrase.Group.written_ofLine .forbid w

theorem meaning_groups (s : Schedule) (h : s.groups ≠ []) :
    Sentence.meaning ⟨s.groups, h⟩ = s.withZone .utc := by
  simp [Sentence.meaning, groups, List.flatMap_map, Phrase.Group.dayIntervals_ofLine, withZone]

theorem ofSourceWith_toString {s : Schedule} (h : s.allowed ≠ [] ∨ s.forbidden ≠ []) :
    ofSourceWith {} (toString s) = .ok (s.withZone .utc) := by
  have hgroups : s.groups ≠ [] := by
    rw [Ne, groups_eq_nil_iff]
    tauto
  rw [← meaning_groups s hgroups]
  exact ofSourceWith_of_written Layout.neutral_default _ (written_toString s)

theorem ofSource_eq_ok_iff {source : String} {zone : Zone} {t : Schedule} :
    ofSource source zone = .ok t ↔ ∃ s, ofSourceWith {} source = .ok s ∧ s.withZone zone = t := by
  rw [ofSource]
  cases ofSourceWith {} source <;> simp [Except.map]

theorem ofSource_eq_error_iff {source : String} {zone : Zone} {e : Error} :
    ofSource source zone = .error e ↔ ofSourceWith {} source = .error e := by
  rw [ofSource]
  cases ofSourceWith {} source <;> simp [Except.map]

theorem toString_eq_empty {s : Schedule} (ha : s.allowed = []) (hf : s.forbidden = []) :
    toString s = "" := by
  simp [toString, lines, ha, hf]

theorem ofSourceWith_empty (layout : Layout) :
    ofSourceWith layout "" = .error (.unexpectedToken ⟨⟨0, 0⟩, []⟩ [.dayOfWeek] .endInput) := by
  have hadvance : Parser.advance (.ofLexer (.ofString "" layout)) =
      .ok () (.ofLexer (.ofString "" layout)) := rfl
  have hkind : (Parser.ofLexer (.ofString "" layout)).token.kind ≠ .dayOfWeek := nofun
  rw [ofSourceWith, Parser.parse, Parser.bind_of_ok hadvance,
    Parser.bind_eq_error (Parser.schedule_eq_error hkind)]
  rfl

theorem ofSource_toString :
    (∀ s : Schedule,
      (s.allowed ≠ [] ∨ s.forbidden ≠ [] → ofSource (toString s) s.zone = .ok s) ∧
      ((∃ spot expected got,
          ofSource (toString s) s.zone = .error (.unexpectedToken spot expected got)) ↔
        s.allowed = [] ∧ s.forbidden = [])) ∧
    ∀ source zone t, ofSource source zone = .ok t →
      (ofSource (toString t) zone).map toString = .ok (toString t) := by
  have hback {s : Schedule} (h : s.allowed ≠ [] ∨ s.forbidden ≠ []) :
      ofSource (toString s) s.zone = .ok s := by
    rw [ofSource, ofSourceWith_toString h]
    rfl
  refine ⟨fun s => ⟨hback, ?_, ?_⟩, ?_⟩
  · rintro ⟨spot, expected, got, herror⟩
    by_contra hsome
    rw [hback (by tauto)] at herror
    cases herror
  · rintro ⟨ha, hf⟩
    rw [ofSource, toString_eq_empty ha hf, ofSourceWith_empty]
    exact ⟨_, _, _, rfl⟩
  · intro source zone t ht
    obtain ⟨u, hu, rfl⟩ := ofSource_eq_ok_iff.1 ht
    obtain ⟨_, x, -, -, rfl⟩ := ofSourceWith_eq_ok_iff.1 hu
    have hsome : (x.meaning.withZone zone).allowed ≠ [] ∨ (x.meaning.withZone zone).forbidden ≠ [] :=
      x.meaning_ne_empty
    have hagain : ofSource (toString (x.meaning.withZone zone)) zone = .ok (x.meaning.withZone zone) :=
      hback hsome
    rw [hagain]
    rfl

theorem ofSource_toString_of_backward_interval :
    let s : Schedule := ⟨[⟨.sunday, ⟨.endOfDay, .startOfDay⟩⟩, ⟨.monday, .wholeDay⟩],
      [⟨.monday, .wholeDay⟩], .utc⟩
    (s.allowed ≠ [] ∨ s.forbidden ≠ []) ∧ ofSource (toString s) s.zone = .ok s ∧
      (ofSource (toString s) s.zone).map toString = .ok (toString s) := by
  intro s
  have hsome : s.allowed ≠ [] ∨ s.forbidden ≠ [] := .inl (by decide)
  have hback := (ofSource_toString.1 s).1 hsome
  exact ⟨hsome, hback, ofSource_toString.2 _ _ _ hback⟩

end Schedule

end Timetable
