import Timetable.Proofs.Language.Prolongation
import Timetable.Proofs.Language.RoundTrip

namespace Timetable

namespace Lexer

variable {l l' r r' : Lexer} {t : Token} {ts us : List Token}

theorem terminated_append_cons (endOfLine : Char) (xs ys : List Char) :
    terminated endOfLine (xs ++ endOfLine :: ys) = xs ++ endOfLine :: terminated endOfLine ys := by
  have hlast : (xs ++ endOfLine :: ys).getLast? = some (ys.getLast?.getD endOfLine) := by
    rw [List.getLast?_append, List.getLast?_cons, Option.some_or]
  rw [terminated, hlast]
  cases hys : ys.getLast? with
  | none =>
    obtain rfl := List.getLast?_eq_none_iff.1 hys
    simp [terminated]
  | some d =>
    by_cases hd : d = endOfLine
    · simp [terminated, hys, hd]
    · simp [terminated, hys, hd]

theorem exists_ofString_eq_prolong (a b : String) (layout : Layout) :
    ∃ seps, (∀ c ∈ seps, c = layout.endOfLine) ∧
      ofString (a ++ String.singleton layout.endOfLine ++ b) layout =
        (ofString a layout).prolong (seps ++ (ofString b layout).rest) := by
  rcases terminated_eq_or layout.endOfLine a.toList with ha | ha
  · refine ⟨[layout.endOfLine], by simp, ?_⟩
    simp [ofString, prolong, terminated_append_cons, rest, Cursor.start, ha]
  · refine ⟨[], by simp, ?_⟩
    simp [ofString, prolong, terminated_append_cons, rest, Cursor.start, ha]

structure LeadsTo (l r : Lexer) : Prop where
  layout : l.layout = r.layout
  rest : ∃ seps, (∀ c ∈ seps, r.layout.separates c) ∧ l.rest = seps ++ r.rest

namespace LeadsTo

theorem rest_skipSeparators (h : l.LeadsTo r) : l.skipSeparators.rest = r.skipSeparators.rest := by
  obtain ⟨hlayout, seps, hseps, hrest⟩ := h
  rw [Lexer.rest_skipSeparators, Lexer.rest_skipSeparators, hlayout, hrest,
    List.dropWhile_append_of_pos hseps]

theorem next (h : l.LeadsTo r) (ht : r.next = .ok t r') :
    ∃ p l', l.next = .ok { t with position := p } l' ∧ l'.LeadsTo r' := by
  obtain ⟨hkind, hlexeme, -, rfl⟩ := next_eq_ok_iff.1 ht
  rw [← h.rest_skipSeparators] at hkind hlexeme
  refine ⟨l.skipSeparators.position, l.skipSeparators.past t.lexeme,
    next_eq_ok_iff.2 ⟨hkind, hlexeme, rfl, rfl⟩, h.layout, [], by simp, ?_⟩
  rw [rest_past, rest_past, h.rest_skipSeparators]
  rfl

theorem exists_yields (h : l.LeadsTo r) (hts : r.Yields ts) :
    ∃ us, l.Yields us ∧ us.map Token.symbol? = ts.map Token.symbol? := by
  obtain ⟨e, _, hreads, he, hkinds⟩ := hts
  induction ts generalizing l r with
  | nil =>
    obtain ⟨_, _, hnext, -⟩ := h.next (Reads.singleton_iff.1 hreads)
    exact ⟨[], .nil hnext he, rfl⟩
  | cons t ts ih =>
    obtain ⟨ht, hkinds⟩ := List.forall_mem_cons.1 hkinds
    obtain ⟨r', hr', hreads⟩ := Reads.cons_iff.1 hreads
    obtain ⟨p, l', hnext, hahead⟩ := h.next hr'
    obtain ⟨us, hus, hsymbols⟩ := ih hahead hreads hkinds
    refine ⟨_ :: us, .cons hnext ht hus, ?_⟩
    rw [List.map_cons, List.map_cons, hsymbols]
    rfl

end LeadsTo

theorem separates_of_endInput (h : l.next = .ok t r) (ht : t.kind = .endInput) :
    ∀ c ∈ l.rest, l.layout.separates c := by
  rw [← List.dropWhile_eq_nil_iff, ← rest_skipSeparators]
  exact rest_eq_nil_of_endInput h ht

theorem Reads.layout_eq (h : l.Reads ts r) : r.layout = l.layout := by
  induction h with
  | nil => rfl
  | cons h _ ih =>
    obtain ⟨-, -, -, rfl⟩ := next_eq_ok_iff.1 h
    exact ih

theorem Reads.append_yields (h : l.Reads ts r) (hts : ∀ t ∈ ts, t.kind ≠ .endInput)
    (hus : r.Yields us) : l.Yields (ts ++ us) := by
  induction h with
  | nil => exact hus
  | cons h _ ih =>
    obtain ⟨ht, hts⟩ := List.forall_mem_cons.1 hts
    exact (ih hts hus).cons h ht

theorem Yields.append {a b : String} {layout : Layout} (hl : layout.Neutral)
    (hts : (ofString a layout).Yields ts) (hus : (ofString b layout).Yields us) :
    ∃ vs, (ofString (a ++ String.singleton layout.endOfLine ++ b) layout).Yields (ts ++ vs) ∧
      vs.map Token.symbol? = us.map Token.symbol? := by
  obtain ⟨e, l', hreads, he, hkinds⟩ := hts
  obtain ⟨r, hread, hnext⟩ := Reads.concat_iff.1 hreads
  obtain ⟨seps, hseps, heq⟩ := exists_ofString_eq_prolong a b layout
  obtain ⟨hsound, hprolong⟩ :=
    (Sound.ofString a hl).reads_prolong hread hkinds (seps ++ (ofString b layout).rest)
  have hlayout : r.layout = layout := hread.layout_eq
  have hbetween : ∀ c ∈ r.rest ++ seps, layout.separates c := by
    refine List.forall_mem_append.2 ⟨?_, fun c hc => ?_⟩
    · rw [← hlayout]
      exact separates_of_endInput hnext he
    · rw [hseps c hc]
      exact layout.separates_endOfLine
  have hleads : (r.prolong (seps ++ (ofString b layout).rest)).LeadsTo (ofString b layout) := by
    refine ⟨hlayout, r.rest ++ seps, hbetween, ?_⟩
    rw [rest_prolong hsound.placed, List.append_assoc]
  obtain ⟨vs, hvs, hsymbols⟩ := hleads.exists_yields hus
  refine ⟨vs, ?_, hsymbols⟩
  rw [heq]
  exact hprolong.append_yields hkinds hvs

end Lexer

namespace Sentence

def append (x y : Sentence) : Sentence :=
  ⟨x.groups ++ y.groups, by simp [x.nonempty]⟩

theorem symbols_append (x y : Sentence) : (x.append y).symbols = x.symbols ++ y.symbols :=
  List.flatMap_append

theorem meaning_append (x y : Sentence) :
    (x.append y).meaning = ⟨x.meaning.allowed ++ y.meaning.allowed,
      x.meaning.forbidden ++ y.meaning.forbidden, .utc⟩ := by
  simp [meaning, append]

end Sentence

namespace Schedule

variable {layout : Layout} {a : String} {e : Error}

theorem ofSourceWith_append_line (hl : layout.Neutral) {b : String} {s t : Schedule}
    (hs : ofSourceWith layout a = .ok s) (ht : ofSourceWith layout b = .ok t) :
    ofSourceWith layout (a ++ String.singleton layout.endOfLine ++ b) =
      .ok ⟨s.allowed ++ t.allowed, s.forbidden ++ t.forbidden, .utc⟩ := by
  obtain ⟨ts, x, hts, hx, rfl⟩ := ofSourceWith_eq_ok_iff.1 hs
  obtain ⟨us, y, hus, hy, rfl⟩ := ofSourceWith_eq_ok_iff.1 ht
  obtain ⟨vs, hvs, hsymbols⟩ := hts.append hl hus
  refine ofSourceWith_eq_ok_iff.2 ⟨ts ++ vs, x.append y, hvs, ?_, x.meaning_append y⟩
  rw [List.map_append, hx, hsymbols, hy, x.symbols_append, List.map_append]

theorem ofSourceWith_append_line_eq_error (hl : layout.Neutral) (h : ofSourceWith layout a = .error e)
    (he : ∀ spot expected, e ≠ .unexpectedToken spot expected .endInput) (b : String) :
    ofSourceWith layout (a ++ String.singleton layout.endOfLine ++ b) = .error e := by
  obtain ⟨ts, r, hbreaks⟩ := ofSourceWith_eq_error_iff_breaks.1 h
  obtain ⟨seps, -, heq⟩ := Lexer.exists_ofString_eq_prolong a b layout
  refine ofSourceWith_eq_error_iff_breaks.2
    ⟨ts, r.prolong (seps ++ (Lexer.ofString b layout).rest), ?_⟩
  rw [heq]
  exact (Lexer.Sound.ofString a hl).breaks_prolong hbreaks he

theorem ofSource_append_line (a : String) (zone : Zone) :
    (∀ b s t, ofSource a zone = .ok s → ofSource b zone = .ok t →
      ofSource (a ++ "\n" ++ b) zone =
        .ok ⟨s.allowed ++ t.allowed, s.forbidden ++ t.forbidden, zone⟩) ∧
    ∀ e, ofSource a zone = .error e →
      (∀ spot expected, e ≠ .unexpectedToken spot expected .endInput) →
      ∀ b, ofSource (a ++ "\n" ++ b) zone = .error e := by
  constructor
  · intro b s t hs ht
    obtain ⟨_, ha, rfl⟩ := ofSource_eq_ok_iff.1 hs
    obtain ⟨_, hb, rfl⟩ := ofSource_eq_ok_iff.1 ht
    exact ofSource_eq_ok_iff.2 ⟨_, ofSourceWith_append_line Layout.neutral_default ha hb, rfl⟩
  · intro e ha he b
    rw [ofSource_eq_error_iff] at ha ⊢
    exact ofSourceWith_append_line_eq_error Layout.neutral_default ha he b

theorem ofSource_append_line_after_open_interval :
    let a := "mon allow 0800"
    let b := "tue forbid -1200"
    let s : Schedule := ⟨[⟨.monday, ⟨{ hour := 8, minute := 0 }, .endOfDay⟩⟩], [], .utc⟩
    let t : Schedule := ⟨[], [⟨.tuesday, ⟨.startOfDay, { hour := 12, minute := 0 }⟩⟩], .utc⟩
    let e : Error := .unexpectedToken ⟨⟨0, 4⟩, "mon mon".toList⟩ [.allow, .forbid] .dayOfWeek
    ofSource a .utc = .ok s ∧ ofSource b .utc = .ok t ∧
      ofSource (a ++ "\n" ++ b) .utc = .ok ⟨s.allowed, t.forbidden, .utc⟩ ∧
      ofSource "mon mon" .utc = .error e ∧ ofSource ("mon mon" ++ "\n" ++ "@") .utc = .error e := by
  intro a b s t e
  have hs : ofSource a .utc = .ok s := by decide +kernel
  have ht : ofSource b .utc = .ok t := by decide +kernel
  have he : ofSource "mon mon" .utc = .error e := by decide +kernel
  refine ⟨hs, ht, (ofSource_append_line a .utc).1 b s t hs ht, he, ?_⟩
  refine (ofSource_append_line "mon mon" .utc).2 e he ?_ "@"
  intro spot expected heq
  injection heq with _ _ hkind
  cases hkind

end Schedule

end Timetable
