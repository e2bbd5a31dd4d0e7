import Timetable.Proofs.Language.Spelling
import Timetable.Proofs.Text.TrieWords

namespace Timetable

open Text (lower)

namespace Scan

def Fits : List (List Char) → List Char → Prop
  | _, [] => True
  | [], _ :: _ => False
  | allowed :: classes, c :: cs => c ∈ allowed ∧ Fits classes cs

variable {classes : List (List Char)} {allowed cs ds : List Char}

@[simp]
theorem fits_nil (classes : List (List Char)) : Fits classes [] := by
  cases classes <;> trivial

theorem fits_of_forall₂_append (h : List.Forall₂ (· ∈ ·) (cs ++ ds) classes) : Fits classes cs := by
  induction cs generalizing classes with
  | nil => exact fits_nil classes
  | cons c cs ih =>
    rw [List.cons_append] at h
    obtain ⟨allowed, more, hc, hcs, rfl⟩ := List.forall₂_cons_left_iff.1 h
    exact ⟨hc, ih hcs⟩

theorem exists_forall₂_append (hclasses : ∀ allowed ∈ classes, allowed ≠ []) (h : Fits classes cs) :
    ∃ ds, List.Forall₂ (· ∈ ·) (cs ++ ds) classes := by
  induction classes generalizing cs with
  | nil =>
    cases cs with
    | nil => exact ⟨[], .nil⟩
    | cons c cs => cases h
  | cons allowed classes ih =>
    obtain ⟨hallowed, hclasses⟩ := List.forall_mem_cons.1 hclasses
    cases cs with
    | nil =>
      obtain ⟨c, hc⟩ := List.exists_mem_of_ne_nil allowed hallowed
      obtain ⟨ds, hds⟩ := ih hclasses (fits_nil classes)
      exact ⟨c :: ds, .cons hc hds⟩
    | cons c cs =>
      obtain ⟨ds, hds⟩ := ih hclasses h.2
      exact ⟨ds, .cons h.1 hds⟩

theorem fits_oneOfEach (classes : List (List Char)) (cs : List Char) :
    Fits classes (oneOfEach classes cs).1 := by
  fun_induction oneOfEach classes cs with
  | case1 | case2 | case4 => exact fits_nil _
  | case3 allowed classes c cs hc read ih => exact ⟨hc, ih⟩

theorem fits_oneOfEach_concat_iff (h : (oneOfEach classes cs).2 = some allowed) {c : Char} :
    Fits classes ((oneOfEach classes cs).1 ++ [c]) ↔ c ∈ allowed := by
  fun_induction oneOfEach classes cs with
  | case1 => cases h
  | case2 allowed classes =>
    cases h
    simp [Fits]
  | case3 allowed classes d ds hd read ih =>
    rw [List.cons_append, Fits, and_iff_right hd]
    exact ih h
  | case4 allowed classes d ds hd =>
    cases h
    simp [Fits]

theorem mem_of_oneOfEach_eq_some (h : (oneOfEach classes cs).2 = some allowed) :
    allowed ∈ classes := by
  fun_induction oneOfEach classes cs with
  | case1 => cases h
  | case2 | case4 =>
    cases h
    exact List.mem_cons_self
  | case3 allowed classes d ds hd read ih => exact List.mem_cons_of_mem _ (ih h)

theorem not_fits_of_oneOfEach (h : (oneOfEach classes cs).2 = some allowed)
    (hlt : (oneOfEach classes cs).1.length < cs.length) :
    ¬ Fits classes (cs.take ((oneOfEach classes cs).1.length + 1)) := by
  fun_induction oneOfEach classes cs with
  | case1 => cases h
  | case2 => cases hlt
  | case3 allowed classes d ds hd read ih =>
    rintro ⟨-, hfits⟩
    exact ih h (Nat.lt_of_succ_lt_succ hlt) hfits
  | case4 allowed classes d ds hd =>
    rintro ⟨hmem, -⟩
    exact hd hmem

theorem timeClasses_ne_nil {c : Char} : ∀ allowed ∈ timeClasses c, allowed ≠ [] := by
  intro allowed h
  simp only [timeClasses, List.mem_cons, List.not_mem_nil, or_false] at h
  rcases h with rfl | rfl | rfl | rfl <;> simp [digitsUpTo]

theorem exists_isPrefix_digits_iff {c : Char} :
    (∃ t : TimeOfDay, c :: cs <+: t.digits) ↔ Fits (timeClasses c) (c :: cs) := by
  constructor
  · rintro ⟨t, ds, hds⟩
    have hdigits := digits_forall₂ t
    have hfirst : Nat.digitChar (t.hour / 10) = c := by
      rw [TimeOfDay.digits, TimeOfDay.twoDigits] at hds
      exact (List.cons.inj hds).1.symm
    rw [← hds, hfirst] at hdigits
    exact fits_of_forall₂_append hdigits
  · intro h
    obtain ⟨ds, hds⟩ := exists_forall₂_append timeClasses_ne_nil h
    obtain ⟨t, ht⟩ := exists_digits_of_forall₂ hds
    exact ⟨t, ds, ht.symm⟩

end Scan

namespace Symbol

def Begins (cs : List Char) : Prop :=
  ∃ (x : Symbol) (ds : List Char), x.Spelling (cs ++ ds)

variable {c : Char} {cs : List Char} {name : String}

theorem exists_mem_names (h : name ∈ Vocabulary.words) : ∃ x : Symbol, name ∈ x.names := by
  simp only [Vocabulary.words, List.mem_append, List.mem_map, or_assoc] at h
  rcases h with ⟨d, -, rfl⟩ | ⟨d, -, rfl⟩ | ⟨d, -, rfl⟩
  · exact ⟨.directive d, List.mem_cons_self⟩
  · exact ⟨.day d, List.mem_cons_self⟩
  · exact ⟨.day d, List.mem_cons_of_mem _ List.mem_cons_self⟩

theorem begins_nil : Begins [] := ⟨.dash, ['-'], .dash⟩

theorem begins_of_map_toLower_isPrefix (hname : name ∈ Vocabulary.words)
    (h : cs.map Char.toLower <+: name.toList) : Begins cs := by
  obtain ⟨x, hx⟩ := exists_mem_names hname
  obtain ⟨ds, hds⟩ := h
  have hlower : ds.map Char.toLower = ds := by
    have hself := map_toLower_of_mem_names hx
    rw [← hds, List.map_append] at hself
    exact (List.append_inj' hself (List.length_map _)).2
  refine ⟨x, ds, .word hx ?_⟩
  rw [List.map_append, hlower, hds]

theorem begins_iff :
    Begins cs ↔ (∃ name ∈ Vocabulary.words, cs.map Char.toLower <+: name.toList) ∨
      (∃ t : TimeOfDay, cs <+: t.digits) ∨ cs <+: ['-'] := by
  constructor
  · rintro ⟨x, ds, hx⟩
    generalize hes : cs ++ ds = es at hx
    cases hx with
    | word hname hlower =>
      refine .inl ⟨_, mem_words_of_mem_names hname, ds.map Char.toLower, ?_⟩
      rw [← hlower, ← hes, List.map_append]
    | time t => exact .inr (.inl ⟨t, ds, hes⟩)
    | dash => exact .inr (.inr ⟨ds, hes⟩)
  · rintro (⟨name, hname, hprefix⟩ | ⟨t, ds, hds⟩ | ⟨ds, hds⟩)
    · exact begins_of_map_toLower_isPrefix hname hprefix
    · exact ⟨.time t, ds, hds ▸ .time t⟩
    · exact ⟨.dash, ds, hds ▸ .dash⟩

theorem isAlpha_of_isPrefix (hname : name ∈ Vocabulary.words)
    (h : cs.map Char.toLower <+: name.toList) : ∀ c ∈ cs, c.isAlpha = true := by
  obtain ⟨x, hx⟩ := exists_mem_names hname
  intro c hc
  refine Text.isAlpha_of_isAlpha_toLower ?_
  exact isAlpha_of_mem_names hx (map_toLower_of_mem_names hx) _ (h.subset (List.mem_map_of_mem hc))

theorem begins_cons_iff_of_isAlpha (hc : c.isAlpha = true) :
    Begins (c :: cs) ↔ ∃ name ∈ Vocabulary.words, (c :: cs).map Char.toLower <+: name.toList := by
  rw [begins_iff, or_iff_left]
  rintro (⟨t, ht⟩ | hdash)
  · have hdigit := t.isDigit_of_mem_digits (ht.subset List.mem_cons_self)
    rw [Text.isAlpha_eq_false_of_isDigit hdigit] at hc
    cases hc
  · obtain rfl := (List.cons_prefix_cons.1 hdash).1
    revert hc
    decide

theorem begins_cons_iff_of_mem_digitsUpTo (hc : c ∈ Scan.digitsUpTo 2) :
    Begins (c :: cs) ↔ Scan.Fits (Scan.timeClasses c) (c :: cs) := by
  have hdigit := Scan.isDigit_of_mem_digitsUpTo (by decide) hc
  rw [begins_iff, or_iff_right, or_iff_left, Scan.exists_isPrefix_digits_iff]
  · intro hdash
    obtain rfl := (List.cons_prefix_cons.1 hdash).1
    revert hdigit
    decide
  · rintro ⟨name, hname, hprefix⟩
    have halpha := isAlpha_of_isPrefix hname hprefix c List.mem_cons_self
    rw [Text.isAlpha_eq_false_of_isDigit hdigit] at halpha
    cases halpha

theorem not_begins_singleton (halpha : c.isAlpha = false) (hdigit : c ∉ Scan.digitsUpTo 2)
    (hdash : c ≠ '-') : ¬ Begins [c] := by
  rw [begins_iff]
  rintro (⟨name, hname, hprefix⟩ | htime | hprefix)
  · rw [isAlpha_of_isPrefix hname hprefix c List.mem_cons_self] at halpha
    cases halpha
  · exact hdigit (Scan.exists_isPrefix_digits_iff.1 htime).1
  · exact hdash (List.cons_prefix_cons.1 hprefix).1

theorem Begins.isAlpha_of_isAlpha (h : Begins (c :: cs)) (hc : c.isAlpha = true) :
    ∀ d ∈ c :: cs, d.isAlpha = true := by
  obtain ⟨name, hname, hprefix⟩ := (begins_cons_iff_of_isAlpha hc).1 h
  exact isAlpha_of_isPrefix hname hprefix

end Symbol

namespace Vocabulary

variable {c : Char} {cs : List Char}

theorem lower_of_mem_words {name : String} (h : name ∈ words) : lower name.toList = name.toList := by
  obtain ⟨x, hx⟩ := Symbol.exists_mem_names h
  exact Symbol.lower_eq_of_mem_names hx (Symbol.map_toLower_of_mem_names hx)

theorem lower_of_isAlpha (hcs : ∀ c ∈ cs, c.isAlpha = true) : lower cs = cs.map Char.toLower :=
  Text.lower_ascii fun c hc => Text.toNat_lt_of_isAlpha (hcs c hc)

theorem begins_lower_iff (hcs : ∀ c ∈ cs, c.isAlpha = true) :
    Text.Trie.Begins (words.map (·.toList)) (lower cs) ↔ Symbol.Begins cs := by
  cases cs with
  | nil => exact iff_of_true (.inl rfl) Symbol.begins_nil
  | cons c cs =>
    have hne : lower (c :: cs) ≠ [] := by simp [lower_of_isAlpha hcs]
    rw [Symbol.begins_cons_iff_of_isAlpha (hcs c List.mem_cons_self), ← lower_of_isAlpha hcs,
      Text.Trie.Begins, or_iff_right hne]
    simp only [List.mem_map, exists_exists_and_eq_and]
    refine exists_congr fun name => and_congr_right fun hname => ?_
    rw [lower_of_mem_words hname]

theorem containsPrefix_iff (hcs : ∀ c ∈ cs, c.isAlpha = true) :
    trie.containsPrefix cs = true ↔ Symbol.Begins cs := by
  rw [Text.Trie.containsPrefix_eq_true_iff, trie, Text.Trie.isSome_walk_ofWords_iff,
    begins_lower_iff hcs]

theorem mem_charsAfter_iff (hcs : ∀ c ∈ cs, c.isAlpha = true) (hne : cs ≠ []) :
    c ∈ trie.charsAfter cs ↔ c.toLower = c ∧ Symbol.Begins (cs ++ [c]) := by
  obtain ⟨d, ds, rfl⟩ := List.exists_cons_of_ne_nil hne
  rw [trie, Text.Trie.mem_charsAfter_ofWords_iff, List.cons_append,
    Symbol.begins_cons_iff_of_isAlpha (hcs d List.mem_cons_self), ← List.cons_append,
    List.map_append, List.map_singleton, ← lower_of_isAlpha hcs]
  simp only [List.mem_map, exists_exists_and_eq_and]
  constructor
  · rintro ⟨name, hname, hprefix⟩
    rw [lower_of_mem_words hname] at hprefix
    have hself : c.toLower = c := by
      obtain ⟨x, hx⟩ := Symbol.exists_mem_names hname
      have hmap := (Symbol.map_toLower_of_mem_names hx).trans (List.map_id _).symm
      have hmem : c ∈ name.toList := hprefix.subset (by simp)
      exact List.map_inj_left.1 hmap c hmem
    exact ⟨hself, name, hname, hself.symm ▸ hprefix⟩
  · rintro ⟨hself, name, hname, hprefix⟩
    rw [hself] at hprefix
    exact ⟨name, hname, (lower_of_mem_words hname).symm ▸ hprefix⟩

theorem map_toLower_eq_of_lower_eq {name : String} (hname : name ∈ words)
    (h : lower cs = name.toList) : cs.map Char.toLower = name.toList := by
  have hletters : ∀ name ∈ words, name.toList.all (fun c => c.isAlpha && c != 'k') = true := by
    decide
  rw [← h, Text.lower_eq_map_toLower]
  rw [h]
  simpa using hletters name hname

theorem exists_classify_of_contains (h : trie.contains cs = true) :
    ∃ x : Symbol, Scan.classify cs = .ok x.kind := by
  rw [Text.Trie.contains_eq_true_iff, trie, Text.Trie.accepts_ofWords_iff] at h
  simp only [List.mem_map, exists_exists_and_eq_and] at h
  obtain ⟨name, hname, hlower⟩ := h
  rw [lower_of_mem_words hname] at hlower
  obtain ⟨x, hx⟩ := Symbol.exists_mem_names hname
  exact ⟨x, Symbol.classify_of_mem_names hx (map_toLower_eq_of_lower_eq hname hlower)⟩

end Vocabulary

end Timetable
