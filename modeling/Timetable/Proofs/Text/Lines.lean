import Mathlib.Data.List.Infix
import Mathlib.Data.List.TakeWhile
import Mathlib.Tactic.ByContra
import Timetable.Text.Position

namespace Timetable.Text

def lineStart (endOfLine : Char) : Nat → List Char → Nat
  | 0, _ => 0
  | n + 1, cs =>
    (cs.takeWhile (· ≠ endOfLine)).length + 1 +
      lineStart endOfLine n ((cs.dropWhile (· ≠ endOfLine)).drop 1)

def offsetOf (endOfLine : Char) (p : Position) (cs : List Char) : Nat :=
  lineStart endOfLine p.line cs + p.column

structure AfterLast (c : Char) (cs : List Char) (n : Nat) : Prop where
  le : n ≤ cs.length
  notMem : c ∉ cs.drop n
  last : n = 0 ∨ (cs.take n).getLast? = some c

variable {c d : Char} {cs ds xs ys : List Char} {n : Nat}

theorem decide_ne_of_notMem (h : c ∉ xs) : ∀ x ∈ xs, decide (x ≠ c) = true := by
  intro x hx
  simpa using ne_of_mem_of_not_mem hx h

theorem takeWhile_append_of_head? {p : Char → Bool} (hcs : ∀ c ∈ cs, p c)
    (hds : ∀ c ∈ ds.head?, p c = false) : (cs ++ ds).takeWhile p = cs := by
  rw [List.takeWhile_append_of_pos hcs]
  cases ds with
  | nil => simp
  | cons d ds => simp [hds d rfl]

theorem takeWhile_append_of_mem {p : Char → Bool} (hc : c ∈ cs) (hp : p c = false) (ds : List Char) :
    (cs ++ ds).takeWhile p = cs.takeWhile p := by
  obtain ⟨xs, ys, rfl⟩ := List.append_of_mem hc
  induction xs with
  | nil => simp [hp]
  | cons x xs ih =>
    simp only [List.cons_append, List.takeWhile_cons]
    rw [ih (by simp)]

theorem isPrefix_takeWhile (h : xs <+: cs) (hc : c ∉ xs) : xs <+: cs.takeWhile (· ≠ c) := by
  obtain ⟨ys, rfl⟩ := h
  rw [List.takeWhile_append_of_pos (decide_ne_of_notMem hc)]
  exact List.prefix_append _ _

theorem mem_drop_of_getLast? (hcs : ∀ d ∈ cs.getLast?, d = c) (hn : n < cs.length) :
    c ∈ cs.drop n := by
  have hdrop : cs.drop n ≠ [] := by simpa using hn
  have hlast : (cs.drop n).getLast hdrop ∈ cs.getLast? := by
    rw [List.getLast_drop]
    exact List.getLast?_eq_getLast_of_ne_nil _
  rw [← hcs _ hlast]
  exact List.getLast_mem hdrop

theorem lineAt_zero_append_cons (h : c ∉ xs) (ys : List Char) : lineAt c 0 (xs ++ c :: ys) = xs :=
  takeWhile_append_of_head? (decide_ne_of_notMem h) (by simp)

theorem dropWhile_append_cons (h : c ∉ xs) (ys : List Char) :
    (xs ++ c :: ys).dropWhile (· ≠ c) = c :: ys := by
  rw [List.dropWhile_append_of_pos (decide_ne_of_notMem h)]
  simp

theorem lineAt_succ_append_cons (h : c ∉ xs) (n : Nat) (ys : List Char) :
    lineAt c (n + 1) (xs ++ c :: ys) = lineAt c n ys := by
  rw [lineAt, dropWhile_append_cons h]
  rfl

theorem lineAt_append (h : n < cs.count c) (ds : List Char) :
    lineAt c n (cs ++ ds) = lineAt c n cs := by
  induction n generalizing cs with
  | zero =>
    obtain ⟨xs, ys, rfl, hxs⟩ := List.eq_append_cons_of_mem (List.count_pos_iff.1 h)
    rw [List.append_assoc, List.cons_append, lineAt_zero_append_cons hxs,
      lineAt_zero_append_cons hxs]
  | succ n ih =>
    have hmem : c ∈ cs := List.count_pos_iff.1 (Nat.zero_lt_of_lt h)
    obtain ⟨xs, ys, rfl, hxs⟩ := List.eq_append_cons_of_mem hmem
    rw [List.count_append, List.count_eq_zero_of_not_mem hxs, List.count_cons_self] at h
    rw [List.append_assoc, List.cons_append, lineAt_succ_append_cons hxs,
      lineAt_succ_append_cons hxs]
    exact ih (by omega)

theorem lineStart_succ_append_cons (h : c ∉ xs) (n : Nat) (ys : List Char) :
    lineStart c (n + 1) (xs ++ c :: ys) = xs.length + 1 + lineStart c n ys := by
  have htake : (xs ++ c :: ys).takeWhile (· ≠ c) = xs := lineAt_zero_append_cons h ys
  rw [lineStart, htake, dropWhile_append_cons h]
  rfl

theorem lineAt_eq_takeWhile (c : Char) (n : Nat) (cs : List Char) :
    lineAt c n cs = (cs.drop (lineStart c n cs)).takeWhile (· ≠ c) := by
  induction n generalizing cs with
  | zero => rfl
  | succ n ih =>
    have hsplit := List.prefix_append_drop (List.takeWhile_prefix (· ≠ c) (l := cs))
    have hdrop : cs.drop (cs.takeWhile (· ≠ c)).length = cs.dropWhile (· ≠ c) :=
      List.append_cancel_left (hsplit.symm.trans List.takeWhile_append_dropWhile.symm)
    rw [lineAt, ih, lineStart, ← List.drop_drop, ← List.drop_drop, hdrop]

theorem notMem_lineAt (c : Char) (n : Nat) (cs : List Char) : c ∉ lineAt c n cs := by
  rw [lineAt_eq_takeWhile]
  intro hmem
  simpa using List.mem_takeWhile_imp hmem

theorem getElem?_offsetOf {p : Position} (h : p.column < (lineAt c p.line cs).length) :
    cs[offsetOf c p cs]? = (lineAt c p.line cs)[p.column]? := by
  have hprefix : lineAt c p.line cs <+: cs.drop (lineStart c p.line cs) := by
    rw [lineAt_eq_takeWhile]
    exact List.takeWhile_prefix _
  rw [offsetOf, ← List.getElem?_drop, List.getElem?_eq_getElem h]
  exact List.prefix_iff_getElem?.1 hprefix _ h

theorem splitOn_append_cons (h : c ∉ xs) (ys : List Char) :
    (xs ++ c :: ys).splitOn c = xs :: ys.splitOn c := by
  simp only [List.splitOn_eq_splitOnP]
  refine List.splitOnP_append_cons_of_forall_mem (fun x hx => ?_) c (by simp) ys
  simpa using ne_of_mem_of_not_mem hx h

theorem splitOn_of_notMem (h : c ∉ cs) : cs.splitOn c = [cs] := by
  rw [List.splitOn_eq_splitOnP]
  refine List.splitOnP_eq_singleton fun x hx => ?_
  simpa using ne_of_mem_of_not_mem hx h

theorem getElem?_splitOn (h : n ≤ cs.count c) : (cs.splitOn c)[n]? = some (lineAt c n cs) := by
  induction n generalizing cs with
  | zero =>
    by_cases hmem : c ∈ cs
    · obtain ⟨xs, ys, rfl, hxs⟩ := List.eq_append_cons_of_mem hmem
      rw [splitOn_append_cons hxs, lineAt_zero_append_cons hxs]
      rfl
    · have hline : lineAt c 0 cs = cs := by
        rw [lineAt, List.takeWhile_eq_self_iff]
        exact decide_ne_of_notMem hmem
      rw [splitOn_of_notMem hmem, hline]
      rfl
  | succ n ih =>
    obtain ⟨xs, ys, rfl, hxs⟩ := List.eq_append_cons_of_mem (List.count_pos_iff.1 (Nat.zero_lt_of_lt h))
    rw [List.count_append, List.count_eq_zero_of_not_mem hxs, List.count_cons_self] at h
    rw [splitOn_append_cons hxs, lineAt_succ_append_cons hxs, List.getElem?_cons_succ, ih (by omega)]

namespace AfterLast

theorem nil : AfterLast c [] 0 := ⟨Nat.le_refl 0, by simp, .inl rfl⟩

theorem concat_self : AfterLast c (cs ++ [c]) (cs ++ [c]).length :=
  ⟨Nat.le_refl _, by simp, .inr (by rw [List.take_length, List.getLast?_concat])⟩

theorem concat (h : AfterLast c cs n) (hd : d ≠ c) : AfterLast c (cs ++ [d]) n where
  le := by
    have := h.le
    simp only [List.length_append]
    omega
  notMem := by
    rw [List.drop_append_of_le_length h.le, List.mem_append, List.mem_singleton]
    exact not_or.2 ⟨h.notMem, hd.symm⟩
  last := by
    rw [List.take_append_of_le_length h.le]
    exact h.last

theorem eq_length (h : AfterLast c cs n) (hcs : ∀ d ∈ cs.getLast?, d = c) : n = cs.length := by
  by_contra hne
  exact h.notMem (mem_drop_of_getLast? hcs (Nat.lt_of_le_of_ne h.le hne))

theorem eq_zero (h : AfterLast c cs n) (hcs : c ∉ cs) : n = 0 :=
  h.last.resolve_right fun hlast => hcs (List.mem_of_mem_take (List.mem_of_getLast? hlast))

theorem exists_of_append (h : AfterLast c (xs ++ ys) n) (hxs : xs.getLast? = some c) :
    ∃ m, AfterLast c ys m ∧ xs.length + m = n := by
  obtain ⟨hle, hnotMem, hlast⟩ := h
  have hlength : xs.length ≤ n := by
    by_contra hlt
    rw [List.drop_append_of_le_length (by omega)] at hnotMem
    refine hnotMem (List.mem_append_left _ (mem_drop_of_getLast? ?_ (by omega)))
    simp [hxs]
  obtain ⟨m, rfl⟩ := Nat.exists_eq_add_of_le hlength
  rw [List.length_append, Nat.add_le_add_iff_left] at hle
  rw [List.drop_length_add_append] at hnotMem
  rw [List.take_length_add_append] at hlast
  refine ⟨m, ⟨hle, hnotMem, ?_⟩, rfl⟩
  rcases Nat.eq_zero_or_pos m with hm | hm
  · exact .inl hm
  · have hne : ys.take m ≠ [] := List.ne_nil_of_length_pos (by rw [List.length_take]; omega)
    rw [List.getLast?_append_of_ne_nil _ hne] at hlast
    exact .inr (hlast.resolve_left (by omega))

theorem lineStart_eq (h : AfterLast c cs n) (ds : List Char) :
    lineStart c (cs.count c) (cs ++ ds) = n := by
  generalize hcount : cs.count c = k
  induction k generalizing cs n with
  | zero => exact (h.eq_zero (List.count_eq_zero.1 hcount)).symm
  | succ k ih =>
    have hmem : c ∈ cs := List.count_pos_iff.1 (hcount ▸ Nat.succ_pos k)
    obtain ⟨xs, ys, rfl, hxs⟩ := List.eq_append_cons_of_mem hmem
    rw [List.count_append, List.count_eq_zero_of_not_mem hxs, List.count_cons_self] at hcount
    rw [List.append_cons] at h
    obtain ⟨m, hm, rfl⟩ := h.exists_of_append (List.getLast?_concat ..)
    rw [List.append_assoc, List.cons_append, lineStart_succ_append_cons hxs, ih hm (by omega),
      List.length_append, List.length_singleton]

theorem lineAt_eq (h : AfterLast c cs n) (ds : List Char) :
    lineAt c (cs.count c) (cs ++ ds) = cs.drop n ++ ds.takeWhile (· ≠ c) := by
  rw [lineAt_eq_takeWhile, h.lineStart_eq, List.drop_append_of_le_length h.le,
    List.takeWhile_append_of_pos (decide_ne_of_notMem h.notMem)]

end AfterLast

end Timetable.Text
