import Mathlib.Data.List.Induction
import Timetable.Text.Trie

namespace Timetable.Text

namespace TrieNode

variable {c : Char} {child : Nat} {es : List (Char × Nat)}

theorem lookup_cons_eq (a : Char) (n : Nat) (d : Char) :
    ((a, n) :: es).lookup d = if d = a then some n else es.lookup d := by
  by_cases hd : d = a
  · simp [hd]
  · rw [List.lookup_cons, beq_false_of_ne hd, if_neg hd]

theorem lookup_cons_eq_none_iff {a : Char} {n : Nat} :
    ((a, n) :: es).lookup c = none ↔ c ≠ a ∧ es.lookup c = none := by
  rw [lookup_cons_eq]
  split <;> simp [*]

theorem lookup_insertChild (h : es.lookup c = none) (d : Char) :
    (insertChild c child es).lookup d = if d = c then some child else es.lookup d := by
  induction es with
  | nil => rw [insertChild, lookup_cons_eq]
  | cons e es ih =>
    obtain ⟨a, n⟩ := e
    obtain ⟨hca, hes⟩ := lookup_cons_eq_none_iff.1 h
    rw [insertChild, lookup_cons_eq]
    split
    · rw [lookup_cons_eq, lookup_cons_eq]
    · rw [lookup_cons_eq, ih hes]
      by_cases hd : d = c
      · rw [if_pos hd, if_pos hd, if_neg (by rwa [hd])]
      · rw [if_neg hd, if_neg hd]

theorem ascending_insertChild (h : es.lookup c = none)
    (hs : (es.map Prod.fst).Pairwise (· < ·)) :
    ((insertChild c child es).map Prod.fst).Pairwise (· < ·) := by
  induction es with
  | nil => simp [insertChild]
  | cons e es ih =>
    obtain ⟨a, n⟩ := e
    rw [List.map_cons, List.pairwise_cons] at hs
    obtain ⟨hca, hes⟩ := lookup_cons_eq_none_iff.1 h
    rw [insertChild]
    split
    · next hlt =>
      rw [List.map_cons, List.map_cons, List.pairwise_cons, List.pairwise_cons]
      refine ⟨List.forall_mem_cons.2 ⟨hlt, ?_⟩, hs⟩
      exact fun b hb => Char.lt_trans hlt (hs.1 b hb)
    · next hle =>
      rw [List.map_cons, List.pairwise_cons]
      refine ⟨?_, ih hes hs.2⟩
      have hac : a < c := Std.lt_of_le_of_ne (Char.not_lt.1 hle) hca.symm
      intro b hb
      obtain ⟨e, he, rfl⟩ := List.mem_map.1 hb
      rcases mem_insertChild.1 he with rfl | he
      · exact hac
      · exact hs.1 _ (List.mem_map_of_mem he)

end TrieNode

namespace Trie

structure WellFormed (t : Trie) : Prop where
  root_lt : root < t.size
  newer : ∀ {n k : Nat} {c : Char}, t.child? n c = some k → n < k ∧ k < t.size
  parent_unique : ∀ {n m k : Nat} {c d : Char},
    t.child? n c = some k → t.child? m d = some k → n = m ∧ c = d
  ascending : ∀ {n : Nat} {node : TrieNode},
    t.nodes[n]? = some node → (node.children.map Prod.fst).Pairwise (· < ·)

theorem wellFormed_empty : WellFormed empty where
  root_lt := by decide
  newer {n k c} h := by
    obtain _ | n := n <;> simp [child?, empty, TrieNode.leaf] at h
  parent_unique {n m k c d} h := by
    obtain _ | n := n <;> simp [child?, empty, TrieNode.leaf] at h
  ascending {n node} h := by
    obtain _ | n := n
    · simp [empty, TrieNode.leaf] at h
      simp [← h]
    · simp [empty] at h

section Sprout

variable {t : Trie} {parent : Nat} {c : Char}

theorem getElem?_sprout (n : Nat) :
    (t.sprout parent c).nodes[n]? =
      if n = t.size then some .leaf
      else if n = parent then (t.nodes[n]?).map (·.link c t.size) else t.nodes[n]? := by
  simp only [sprout, Array.getElem?_push, Array.size_modify, Array.getElem?_modify, size]
  simp only [eq_comm]

theorem child?_of_size_le {n : Nat} (h : t.size ≤ n) (d : Char) : t.child? n d = none := by
  have hn : t.nodes[n]? = none := Array.getElem?_eq_none h
  rw [child?, hn, Option.bind_none]

theorem child?_sprout (hp : parent < t.size) (hc : t.child? parent c = none) (n : Nat) (d : Char) :
    (t.sprout parent c).child? n d = if n = parent ∧ d = c then some t.size else t.child? n d := by
  rw [child?, getElem?_sprout]
  by_cases hn : n = t.size
  · have hne : n ≠ parent := by omega
    rw [if_pos hn, if_neg (fun h => hne h.1), child?_of_size_le (by omega)]
    rfl
  · rw [if_neg hn]
    by_cases hparent : n = parent
    · subst hparent
      have hnode : t.nodes[n]? = some t.nodes[n] := Array.getElem?_eq_getElem hp
      have hlookup : t.nodes[n].children.lookup c = none := by simpa [child?, hnode] using hc
      simp [child?, hnode, TrieNode.link, TrieNode.lookup_insertChild hlookup]
    · simp [hparent, child?]

theorem terminal_sprout (n : Nat) :
    (t.sprout parent c).terminal n = t.terminal n := by
  rw [terminal, getElem?_sprout, terminal]
  by_cases hn : n = t.size
  · have hnone : t.nodes[n]? = none := Array.getElem?_eq_none (by simp [hn, size])
    rw [if_pos hn, hnone]
    rfl
  · rw [if_neg hn]
    split
    · cases t.nodes[n]? <;> rfl
    · rfl

theorem child?_sprout_ne_some {n k : Nat} {d : Char} (hp : parent < t.size)
    (hc : t.child? parent c = none) (hn : t.size ≤ n) : (t.sprout parent c).child? n d ≠ some k := by
  rw [child?_sprout hp hc, if_neg (fun h => by omega), child?_of_size_le hn]
  simp

theorem WellFormed.sprout (h : t.WellFormed) (hp : parent < t.size)
    (hc : t.child? parent c = none) : (t.sprout parent c).WellFormed where
  root_lt := by
    rw [size_sprout]
    exact Nat.lt_succ_of_lt h.root_lt
  newer {n k d} hk := by
    rw [child?_sprout hp hc] at hk
    rw [size_sprout]
    split at hk
    · next heq =>
      cases hk
      omega
    · have := h.newer hk
      omega
  parent_unique {n m k d e} hk hk' := by
    rw [child?_sprout hp hc] at hk hk'
    split at hk <;> split at hk'
    · next hn hm => exact ⟨hn.1.trans hm.1.symm, hn.2.trans hm.2.symm⟩
    · cases hk
      exact absurd (h.newer hk').2 (Nat.lt_irrefl _)
    · cases hk'
      exact absurd (h.newer hk).2 (Nat.lt_irrefl _)
    · exact h.parent_unique hk hk'
  ascending {n node} hn := by
    rw [getElem?_sprout] at hn
    split at hn
    · cases hn
      exact .nil
    · split at hn
      · next heq =>
        obtain ⟨old, hold, rfl⟩ := Option.map_eq_some_iff.1 hn
        subst heq
        have hlookup : old.children.lookup c = none := by simpa [child?, hold] using hc
        exact TrieNode.ascending_insertChild hlookup (h.ascending hold)
      · exact h.ascending hn

end Sprout

theorem walk_concat (t : Trie) (node : Nat) (cs : List Char) (c : Char) :
    t.walk node (cs ++ [c]) = (t.walk node cs).bind (t.child? · c) := by
  rw [walk_append]
  simp [walk]

theorem walk_concat_eq_some_iff {t : Trie} {node k : Nat} {cs : List Char} {c : Char} :
    t.walk node (cs ++ [c]) = some k ↔ ∃ n, t.walk node cs = some n ∧ t.child? n c = some k := by
  rw [walk_concat, Option.bind_eq_some_iff]

namespace WellFormed

variable {t : Trie}

theorem lt_size_of_walk (h : t.WellFormed) {cs : List Char} {k : Nat}
    (hk : t.walk root cs = some k) : k < t.size := by
  cases cs using List.reverseRecOn with
  | nil =>
    cases hk
    exact h.root_lt
  | append_singleton cs c =>
    obtain ⟨n, -, hn⟩ := walk_concat_eq_some_iff.1 hk
    exact (h.newer hn).2

theorem walk_unique (h : t.WellFormed) {cs ds : List Char} {k : Nat}
    (hcs : t.walk root cs = some k) (hds : t.walk root ds = some k) : cs = ds := by
  have hroot {n : Nat} {c : Char} : t.child? n c ≠ some root := by
    intro hn
    exact absurd (h.newer hn).1 (Nat.not_lt_zero n)
  induction cs using List.reverseRecOn generalizing ds k with
  | nil =>
    cases hcs
    cases ds using List.reverseRecOn with
    | nil => rfl
    | append_singleton ds d =>
      obtain ⟨n, -, hn⟩ := walk_concat_eq_some_iff.1 hds
      exact absurd hn hroot
  | append_singleton cs c ih =>
    obtain ⟨n, hn, hc⟩ := walk_concat_eq_some_iff.1 hcs
    cases ds using List.reverseRecOn with
    | nil =>
      cases hds
      exact absurd hc hroot
    | append_singleton ds d =>
      obtain ⟨m, hm, hd⟩ := walk_concat_eq_some_iff.1 hds
      obtain ⟨rfl, rfl⟩ := h.parent_unique hc hd
      rw [ih hn hm]

end WellFormed

structure GrownAlong (t : Trie) (w : List Char) (t' : Trie) (node : Nat) : Prop where
  wellFormed : t'.WellFormed
  walk_eq : t'.walk root w = some node
  walk_of_walk : ∀ {cs : List Char} {k : Nat}, t.walk root cs = some k → t'.walk root cs = some k
  walk_or_prefix : ∀ {cs : List Char} {k : Nat},
    t'.walk root cs = some k → t.walk root cs = some k ∨ cs <+: w ∧ t.size ≤ k
  size_le : t.size ≤ t'.size
  terminal_eq : ∀ k, t'.terminal k = t.terminal k

namespace GrownAlong

variable {t t₁ t' : Trie} {v w : List Char} {n k : Nat}

theorem refl (h : t.WellFormed) (hn : t.walk root w = some n) : GrownAlong t w t n where
  wellFormed := h
  walk_eq := hn
  walk_of_walk hk := hk
  walk_or_prefix hk := .inl hk
  size_le := Nat.le_refl _
  terminal_eq _ := rfl

theorem trans (h₁ : GrownAlong t v t₁ k) (h : GrownAlong t₁ w t' n) (hvw : v <+: w) :
    GrownAlong t w t' n where
  wellFormed := h.wellFormed
  walk_eq := h.walk_eq
  walk_of_walk hk := h.walk_of_walk (h₁.walk_of_walk hk)
  walk_or_prefix hk := by
    rcases h.walk_or_prefix hk with hk | ⟨hw, hle⟩
    · rcases h₁.walk_or_prefix hk with hk | ⟨hv, hle⟩
      · exact .inl hk
      · exact .inr ⟨hv.trans hvw, hle⟩
    · exact .inr ⟨hw, Nat.le_trans h₁.size_le hle⟩
  size_le := Nat.le_trans h₁.size_le h.size_le
  terminal_eq k := (h.terminal_eq k).trans (h₁.terminal_eq k)

theorem sprout (h : t.WellFormed) {c : Char} (hn : t.walk root w = some n)
    (hc : t.child? n c = none) : GrownAlong t (w ++ [c]) (t.sprout n c) t.size := by
  have hlt := h.lt_size_of_walk hn
  have hkeep {m k : Nat} {d : Char} (hk : t.child? m d = some k) :
      (t.sprout n c).child? m d = some k := by
    rw [child?_sprout hlt hc, if_neg, hk]
    rintro ⟨rfl, rfl⟩
    rw [hc] at hk
    cases hk
  have hwalk {cs : List Char} {k : Nat} (hk : t.walk root cs = some k) :
      (t.sprout n c).walk root cs = some k := by
    induction cs using List.reverseRecOn generalizing k with
    | nil => exact hk
    | append_singleton cs d ih =>
      obtain ⟨m, hm, hd⟩ := walk_concat_eq_some_iff.1 hk
      exact walk_concat_eq_some_iff.2 ⟨m, ih hm, hkeep hd⟩
  refine ⟨h.sprout hlt hc, ?_, hwalk, ?_, ?_, terminal_sprout⟩
  · refine walk_concat_eq_some_iff.2 ⟨n, hwalk hn, ?_⟩
    rw [child?_sprout hlt hc, if_pos ⟨rfl, rfl⟩]
  · intro cs k hk
    induction cs using List.reverseRecOn generalizing k with
    | nil => exact .inl hk
    | append_singleton cs d ih =>
      obtain ⟨m, hm, hd⟩ := walk_concat_eq_some_iff.1 hk
      rcases ih hm with hold | ⟨-, hle⟩
      · rw [child?_sprout hlt hc] at hd
        split at hd
        · next heq =>
          obtain ⟨rfl, rfl⟩ := heq
          cases hd
          rw [h.walk_unique hold hn]
          exact .inr ⟨List.prefix_refl _, Nat.le_refl _⟩
        · exact .inl (walk_concat_eq_some_iff.2 ⟨m, hold, hd⟩)
      · exact absurd hd (child?_sprout_ne_some hlt hc hle)
  · rw [size_sprout]
    exact Nat.le_succ _

end GrownAlong

theorem WellFormed.grow {t : Trie} (h : t.WellFormed) {w : List Char} {n : Nat}
    (hn : t.walk root w = some n) (cs : List Char) :
    GrownAlong t (w ++ cs) (t.grow n cs).1 (t.grow n cs).2 := by
  induction cs generalizing t w n with
  | nil =>
    rw [List.append_nil]
    exact .refl h hn
  | cons c cs ih =>
    have happend : w ++ c :: cs = w ++ [c] ++ cs := by simp
    rw [happend]
    unfold Trie.grow
    split
    · next k hk => exact ih h (walk_concat_eq_some_iff.2 ⟨n, hn, hk⟩)
    · next hc =>
      have hsprout := GrownAlong.sprout h hn hc
      exact hsprout.trans (ih hsprout.wellFormed hsprout.walk_eq) (List.prefix_append _ _)

section Mark

variable {t : Trie} {node : Nat}

def markAt (t : Trie) (node : Nat) : Trie :=
  ⟨t.nodes.modify node (·.mark)⟩

theorem child?_markAt (n : Nat) (c : Char) : (t.markAt node).child? n c = t.child? n c := by
  simp only [child?, markAt, Array.getElem?_modify]
  split
  · cases t.nodes[n]? <;> rfl
  · rfl

theorem walk_markAt (n : Nat) (cs : List Char) : (t.markAt node).walk n cs = t.walk n cs := by
  induction cs generalizing n with
  | nil => rfl
  | cons c cs ih => simp only [walk, child?_markAt, ih]

theorem terminal_markAt (h : node < t.size) (k : Nat) :
    (t.markAt node).terminal k = (k = node || t.terminal k) := by
  simp only [terminal, markAt, Array.getElem?_modify]
  by_cases hk : node = k
  · subst hk
    have hnode : t.nodes[node]? = some t.nodes[node] := Array.getElem?_eq_getElem h
    simp [hnode, TrieNode.mark]
  · simp [hk, eq_comm (a := k)]

theorem WellFormed.markAt (h : t.WellFormed) : (t.markAt node).WellFormed where
  root_lt := by simpa [Trie.markAt, size] using h.root_lt
  newer hk := by
    rw [child?_markAt] at hk
    simpa [Trie.markAt, size] using h.newer hk
  parent_unique hk hk' := by
    rw [child?_markAt] at hk hk'
    exact h.parent_unique hk hk'
  ascending hn := by
    simp only [Trie.markAt, Array.getElem?_modify] at hn
    split at hn
    · obtain ⟨old, hold, rfl⟩ := Option.map_eq_some_iff.1 hn
      have hascending := h.ascending hold
      exact hascending
    · exact h.ascending hn

end Mark

def Accepts (t : Trie) (cs : List Char) : Prop :=
  ∃ k, t.walk root cs = some k ∧ t.terminal k = true

theorem add_eq (t : Trie) (word : List Char) :
    t.add word = (t.grow root (lower word)).1.markAt (t.grow root (lower word)).2 := rfl

namespace WellFormed

variable {t : Trie}

theorem grow_root (h : t.WellFormed) (word : List Char) :
    GrownAlong t (lower word) (t.grow root (lower word)).1 (t.grow root (lower word)).2 :=
  h.grow (w := []) rfl (lower word)

theorem add (h : t.WellFormed) (word : List Char) : (t.add word).WellFormed :=
  (h.grow_root word).wellFormed.markAt

theorem isSome_walk_add_iff (h : t.WellFormed) {word cs : List Char} :
    ((t.add word).walk root cs).isSome ↔ (t.walk root cs).isSome ∨ cs <+: lower word := by
  have hgrown := h.grow_root word
  simp only [add_eq, walk_markAt, Option.isSome_iff_exists]
  constructor
  · rintro ⟨k, hk⟩
    rcases hgrown.walk_or_prefix hk with hk | ⟨hw, -⟩
    · exact .inl ⟨k, hk⟩
    · exact .inr hw
  · rintro (⟨k, hk⟩ | ⟨ds, hds⟩)
    · exact ⟨k, hgrown.walk_of_walk hk⟩
    · have hw := hgrown.walk_eq
      rw [← hds, walk_append, Option.bind_eq_some_iff] at hw
      obtain ⟨k, hk, -⟩ := hw
      rw [hds] at hk
      exact ⟨k, hk⟩

theorem accepts_add_iff (h : t.WellFormed) {word cs : List Char} :
    (t.add word).Accepts cs ↔ t.Accepts cs ∨ cs = lower word := by
  have hgrown := h.grow_root word
  have hlt := hgrown.wellFormed.lt_size_of_walk hgrown.walk_eq
  simp only [Accepts, add_eq, walk_markAt, terminal_markAt hlt, hgrown.terminal_eq,
    Bool.or_eq_true, decide_eq_true_eq]
  constructor
  · rintro ⟨k, hk, rfl | hterminal⟩
    · exact .inr (hgrown.wellFormed.walk_unique hk hgrown.walk_eq)
    · rcases hgrown.walk_or_prefix hk with hk | ⟨-, hle⟩
      · exact .inl ⟨k, hk, hterminal⟩
      · have hnone : t.nodes[k]? = none := Array.getElem?_eq_none hle
        simp [terminal, hnone] at hterminal
  · rintro (⟨k, hk, hterminal⟩ | rfl)
    · exact ⟨k, hgrown.walk_of_walk hk, .inr hterminal⟩
    · exact ⟨_, hgrown.walk_eq, .inl rfl⟩

end WellFormed

end Trie

end Timetable.Text
