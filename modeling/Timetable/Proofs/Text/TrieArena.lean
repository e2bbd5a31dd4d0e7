import Mathlib.Data.Finset.Card
import Mathlib.Data.List.Infix
import Timetable.Proofs.Text.TrieWords

namespace Timetable.Text

theorem TrieNode.lookup_eq_some_iff {es : List (Char × Nat)} {c : Char} {k : Nat}
    (h : (es.map Prod.fst).Pairwise (· < ·)) : es.lookup c = some k ↔ (c, k) ∈ es := by
  induction es with
  | nil => simp
  | cons e es ih =>
    obtain ⟨a, n⟩ := e
    rw [List.map_cons, List.pairwise_cons] at h
    obtain ⟨hlt, hes⟩ := h
    rw [lookup_cons_eq, List.mem_cons, ← ih hes, Prod.mk.injEq]
    by_cases hc : c = a
    · have hnone : es.lookup c ≠ some k := fun hk =>
        Char.lt_irrefl a (hlt a (List.mem_map.2 ⟨(c, k), (ih hes).1 hk, hc⟩))
      simp [hc ▸ hnone, hc, eq_comm]
    · simp [hc]

namespace Trie

variable {t : Trie}

def Edge (t : Trie) (n : Nat) (c : Char) (k : Nat) : Prop :=
  ∃ node, t.nodes[n]? = some node ∧ (c, k) ∈ node.children

structure IsTree (t : Trie) : Prop where
  root_lt : root < t.size
  edge_lt : ∀ n c k, t.Edge n c k → n < k ∧ k < t.size
  parent : ∀ k, root < k → k < t.size → ∃! e : Nat × Char, t.Edge e.1 e.2 k
  path : ∀ k, k < t.size → ∃! cs, t.walk root cs = some k

theorem WellFormed.edge_iff (h : t.WellFormed) {n k : Nat} {c : Char} :
    t.Edge n c k ↔ t.child? n c = some k := by
  rw [Edge, child?, Option.bind_eq_some_iff]
  exact exists_congr fun node => and_congr_right fun hnode =>
    (TrieNode.lookup_eq_some_iff (h.ascending hnode)).symm

def Spanned (t : Trie) : Prop :=
  ∀ k, k < t.size → ∃ cs, t.walk root cs = some k

theorem WellFormed.isTree (h : t.WellFormed) (hspan : t.Spanned) : t.IsTree where
  root_lt := h.root_lt
  edge_lt n c k hk := h.newer (h.edge_iff.1 hk)
  parent k hroot hk := by
    obtain ⟨cs, hcs⟩ := hspan k hk
    cases cs using List.reverseRecOn with
    | nil =>
      cases hcs
      exact absurd hroot (Nat.lt_irrefl _)
    | append_singleton cs c =>
      obtain ⟨n, -, hn⟩ := walk_concat_eq_some_iff.1 hcs
      refine ⟨(n, c), h.edge_iff.2 hn, fun e he => ?_⟩
      obtain ⟨rfl, rfl⟩ := h.parent_unique (h.edge_iff.1 he) hn
      rfl
  path k hk := by
    obtain ⟨cs, hcs⟩ := hspan k hk
    exact ⟨cs, hcs, fun ds hds => h.walk_unique hds hcs⟩

namespace Spanned

theorem empty : Trie.empty.Spanned := by
  intro k hk
  obtain rfl : k = root := Nat.lt_one_iff.1 hk
  exact ⟨[], rfl⟩

theorem sprout (hspan : t.Spanned) (h : t.WellFormed) {w : List Char} {n : Nat} {c : Char}
    (hn : t.walk root w = some n) (hc : t.child? n c = none) : (t.sprout n c).Spanned := by
  have hgrown := GrownAlong.sprout h hn hc
  intro k hk
  rw [size_sprout] at hk
  rcases Nat.lt_or_eq_of_le (Nat.le_of_lt_succ hk) with hold | rfl
  · obtain ⟨cs, hcs⟩ := hspan k hold
    exact ⟨cs, hgrown.walk_of_walk hcs⟩
  · exact ⟨w ++ [c], hgrown.walk_eq⟩

theorem grow (hspan : t.Spanned) (h : t.WellFormed) {w : List Char} {n : Nat}
    (hn : t.walk root w = some n) (cs : List Char) : (t.grow n cs).1.Spanned := by
  induction cs generalizing t w n with
  | nil => exact hspan
  | cons c cs ih =>
    unfold Trie.grow
    split
    · next k hk => exact ih hspan h (walk_concat_eq_some_iff.2 ⟨n, hn, hk⟩)
    · next hc =>
      have hgrown := GrownAlong.sprout h hn hc
      exact ih (hspan.sprout h hn hc) hgrown.wellFormed hgrown.walk_eq

theorem markAt (hspan : t.Spanned) (node : Nat) : (t.markAt node).Spanned := by
  intro k hk
  rw [Trie.markAt, size, Array.size_modify] at hk
  obtain ⟨cs, hcs⟩ := hspan k hk
  exact ⟨cs, by rw [walk_markAt, hcs]⟩

theorem add (hspan : t.Spanned) (h : t.WellFormed) (word : List Char) : (t.add word).Spanned :=
  (hspan.grow h (w := []) rfl (lower word)).markAt _

theorem foldl_add (hspan : t.Spanned) (h : t.WellFormed) (words : List (List Char)) :
    (words.foldl Trie.add t).Spanned := by
  induction words generalizing t with
  | nil => exact hspan
  | cons w words ih => exact ih (hspan.add h w) (h.add w)

theorem ofWords (words : List (List Char)) : (Trie.ofWords words).Spanned :=
  empty.foldl_add wellFormed_empty words

end Spanned

def beginnings (words : List (List Char)) : Finset (List Char) :=
  (words.flatMap fun w => (lower w).inits).toFinset.erase []

theorem mem_beginnings {words : List (List Char)} {cs : List Char} :
    cs ∈ beginnings words ↔ cs ≠ [] ∧ ∃ w ∈ words, cs <+: lower w := by
  simp [beginnings]

theorem mem_insert_beginnings {words : List (List Char)} {cs : List Char} :
    cs ∈ insert [] (beginnings words) ↔ ((ofWords words).walk root cs).isSome := by
  rw [isSome_walk_ofWords_iff, Finset.mem_insert, mem_beginnings, Begins]
  tauto

theorem size_ofWords (words : List (List Char)) :
    (ofWords words).size = 1 + (beginnings words).card := by
  have hwell := wellFormed_ofWords words
  have hcard : (insert [] (beginnings words)).card = (Finset.range (ofWords words).size).card := by
    refine Finset.card_bij (fun cs hcs => ((ofWords words).walk root cs).get
      (mem_insert_beginnings.1 hcs)) ?_ ?_ ?_
    · intro cs hcs
      exact Finset.mem_range.2 (hwell.lt_size_of_walk (Option.some_get _).symm)
    · intro cs hcs ds hds heq
      exact hwell.walk_unique (Option.some_get _).symm (by rw [heq, Option.some_get])
    · intro k hk
      obtain ⟨cs, hcs⟩ := Spanned.ofWords words k (Finset.mem_range.1 hk)
      exact ⟨cs, mem_insert_beginnings.2 (by rw [hcs]; rfl), by simp [hcs]⟩
  have hnil : [] ∉ beginnings words := fun h => (mem_beginnings.1 h).1 rfl
  rw [Finset.card_insert_of_notMem hnil, Finset.card_range] at hcard
  omega

theorem terminal_ofWords_iff {words : List (List Char)} {k : Nat} :
    (ofWords words).terminal k = true ↔
      ∃ w ∈ words, (ofWords words).walk root (lower w) = some k := by
  have hwell := wellFormed_ofWords words
  constructor
  · intro hk
    have hlt : k < (ofWords words).size := by
      by_contra hle
      have hnone : (ofWords words).nodes[k]? = none := Array.getElem?_eq_none (Nat.not_lt.1 hle)
      simp [terminal, hnone] at hk
    obtain ⟨cs, hcs⟩ := Spanned.ofWords words k hlt
    obtain ⟨w, hw, rfl⟩ := accepts_ofWords_iff.1 ⟨k, hcs, hk⟩
    exact ⟨w, hw, hcs⟩
  · rintro ⟨w, hw, hk⟩
    obtain ⟨n, hn, hterminal⟩ := accepts_ofWords_iff.2 ⟨w, hw, rfl⟩
    rw [hk] at hn
    cases hn
    exact hterminal

theorem grow_of_walk {n k : Nat} {cs : List Char} (h : t.walk n cs = some k) :
    t.grow n cs = (t, k) := by
  induction cs generalizing n with
  | nil =>
    cases h
    rfl
  | cons c cs ih =>
    obtain ⟨m, hm, hk⟩ := Option.bind_eq_some_iff.1 h
    rw [grow, hm]
    exact ih hk

theorem markAt_of_terminal {k : Nat} (h : t.terminal k = true) : t.markAt k = t := by
  have hnodes : t.nodes.modify k (·.mark) = t.nodes := by
    refine Array.ext_getElem? fun n => ?_
    rw [Array.getElem?_modify]
    split
    · next heq =>
      subst heq
      rw [terminal] at h
      cases hnode : t.nodes[k]? with
      | none => rfl
      | some node =>
        obtain ⟨children, marked⟩ := node
        rw [hnode] at h
        obtain rfl : marked = true := h
        rfl
    · rfl
  rw [markAt, hnodes]

theorem WellFormed.add_eq_self_iff (h : t.WellFormed) {word : List Char} :
    t.add word = t ↔ t.contains word = true := by
  rw [contains_eq_true_iff]
  constructor
  · intro hadd
    have haccepts : (t.add word).Accepts (lower word) := h.accepts_add_iff.2 (.inr rfl)
    rwa [hadd] at haccepts
  · rintro ⟨k, hk, hterminal⟩
    rw [add_eq, grow_of_walk hk]
    exact markAt_of_terminal hterminal

theorem WellFormed.grow_lt (h : t.WellFormed) (cs : List Char) :
    (t.grow root cs).2 < (t.grow root cs).1.size := by
  have hgrown := h.grow (w := []) rfl cs
  exact hgrown.wellFormed.lt_size_of_walk hgrown.walk_eq

theorem arena_ofWords (words : List (List Char)) :
    (ofWords words).IsTree ∧
    (ofWords words).size = 1 + (beginnings words).card ∧
    (∀ k, (ofWords words).terminal k = true ↔
      ∃ w ∈ words, (ofWords words).walk root (lower w) = some k) ∧
    (∀ w, (ofWords words).add w = ofWords words ↔ (ofWords words).contains w = true) ∧
    ∀ cs, ((ofWords words).grow root cs).2 < ((ofWords words).grow root cs).1.size := by
  have hwell := wellFormed_ofWords words
  exact ⟨hwell.isTree (.ofWords words), size_ofWords words, fun _ => terminal_ofWords_iff,
    fun _ => hwell.add_eq_self_iff, hwell.grow_lt⟩

example : (ofWords ["sun".toList, "sunday".toList, "sat".toList, "saturday".toList]).size =
    1 + 1 + 5 + 7 := by
  decide +kernel

end Trie

end Timetable.Text
