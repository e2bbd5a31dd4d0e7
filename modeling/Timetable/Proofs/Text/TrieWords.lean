import Mathlib.Data.List.Sort
import Timetable.Proofs.Text.TrieGrowth

namespace Timetable.Text.Trie

section Queries

variable {t : Trie} {word : List Char}

theorem contains_eq_true_iff : t.contains word = true ↔ t.Accepts (lower word) := by
  simp only [contains, Accepts]
  cases t.walk root (lower word) <;> simp

theorem containsPrefix_eq_true_iff :
    t.containsPrefix word = true ↔ (t.walk root (lower word)).isSome :=
  Iff.rfl

theorem WellFormed.ascending_charsAfter (h : t.WellFormed) :
    (t.charsAfter word).Pairwise (· < ·) := by
  rw [charsAfter]
  split
  · next node hnode =>
    obtain ⟨n, -, hn⟩ := Option.bind_eq_some_iff.1 hnode
    exact h.ascending hn
  · exact .nil

theorem mem_map_fst_iff {node : TrieNode} {c : Char} :
    c ∈ node.children.map Prod.fst ↔ (node.children.lookup c).isSome := by
  rw [List.lookup_isSome_iff, List.mem_map]
  simp only [beq_iff_eq, @eq_comm _ c]

theorem mem_charsAfter_iff {c : Char} :
    c ∈ t.charsAfter word ↔ (t.walk root (lower word ++ [c])).isSome := by
  rw [charsAfter, walk_concat]
  cases t.walk root (lower word) with
  | none => simp
  | some n =>
    rw [Option.bind_some, Option.bind_some, child?]
    cases t.nodes[n]? with
    | none => simp
    | some node => exact mem_map_fst_iff

theorem isSome_walk_followed (t : Trie) (node : Nat) (cs : List Char) :
    (t.walk node (t.followed node cs)).isSome := by
  induction cs generalizing node with
  | nil => rfl
  | cons c cs ih =>
    rw [followed]
    split
    · next k hk =>
      rw [walk, hk]
      exact ih k
    · rfl

theorem prefix_followed {t : Trie} {node : Nat} {ps cs : List Char} (hps : ps <+: cs)
    (hwalk : (t.walk node ps).isSome) : ps <+: t.followed node cs := by
  induction cs generalizing node ps with
  | nil =>
    rw [List.prefix_nil.1 hps]
    exact List.nil_prefix
  | cons c cs ih =>
    cases ps with
    | nil => exact List.nil_prefix
    | cons p ps =>
      obtain ⟨rfl, htail⟩ := List.cons_prefix_cons.1 hps
      rw [walk] at hwalk
      rw [followed]
      cases hchild : t.child? node p with
      | none =>
        rw [hchild] at hwalk
        cases hwalk
      | some k =>
        rw [hchild] at hwalk
        exact List.cons_prefix_cons.2 ⟨rfl, ih htail hwalk⟩

end Queries

def Begins (words : List (List Char)) (cs : List Char) : Prop :=
  cs = [] ∨ ∃ w ∈ words, cs <+: lower w

theorem wellFormed_foldl_add {t : Trie} (h : t.WellFormed) (words : List (List Char)) :
    (words.foldl add t).WellFormed ∧
      (∀ cs, ((words.foldl add t).walk root cs).isSome ↔
        (t.walk root cs).isSome ∨ ∃ w ∈ words, cs <+: lower w) ∧
      ∀ cs, (words.foldl add t).Accepts cs ↔ t.Accepts cs ∨ ∃ w ∈ words, cs = lower w := by
  induction words generalizing t with
  | nil => simp [h]
  | cons w words ih =>
    obtain ⟨hwell, hwalk, haccepts⟩ := ih (h.add w)
    refine ⟨hwell, fun cs => ?_, fun cs => ?_⟩
    · rw [List.foldl_cons, hwalk, h.isSome_walk_add_iff, or_assoc]
      simp
    · rw [List.foldl_cons, haccepts, h.accepts_add_iff, or_assoc]
      simp

theorem wellFormed_ofWords (words : List (List Char)) : (ofWords words).WellFormed :=
  (wellFormed_foldl_add wellFormed_empty words).1

theorem walk_empty_isSome_iff {cs : List Char} : (empty.walk root cs).isSome ↔ cs = [] := by
  cases cs with
  | nil => simp [walk]
  | cons c cs => simp [walk, child?, empty, root, TrieNode.leaf]

theorem isSome_walk_ofWords_iff {words : List (List Char)} {cs : List Char} :
    ((ofWords words).walk root cs).isSome ↔ Begins words cs := by
  rw [ofWords, (wellFormed_foldl_add wellFormed_empty words).2.1, walk_empty_isSome_iff, Begins]

theorem accepts_ofWords_iff {words : List (List Char)} {cs : List Char} :
    (ofWords words).Accepts cs ↔ ∃ w ∈ words, cs = lower w := by
  have hempty : ¬ empty.Accepts cs := by
    rintro ⟨k, -, hk⟩
    obtain _ | k := k <;> simp [terminal, empty, TrieNode.leaf] at hk
  rw [ofWords, (wellFormed_foldl_add wellFormed_empty words).2.2]
  simp [hempty]

theorem mem_charsAfter_ofWords_iff {words : List (List Char)} {s : List Char} {c : Char} :
    c ∈ (ofWords words).charsAfter s ↔ ∃ w ∈ words, lower s ++ [c] <+: lower w := by
  rw [mem_charsAfter_iff, isSome_walk_ofWords_iff, Begins]
  simp

structure IsLongestBeginning (words : List (List Char)) (s cs : List Char) : Prop where
  isPrefix : cs <+: lower s
  begins : Begins words cs
  longest : ∀ ds, ds <+: lower s → Begins words ds → ds <+: cs

theorem isLongestBeginning_longestMatch (words : List (List Char)) (s : List Char) :
    IsLongestBeginning words s ((ofWords words).longestMatch s) where
  isPrefix := followed_isPrefix _ _ _
  begins := isSome_walk_ofWords_iff.1 (isSome_walk_followed _ _ _)
  longest _ hds hbegins := prefix_followed hds (isSome_walk_ofWords_iff.2 hbegins)

theorem IsLongestBeginning.unique {words : List (List Char)} {s cs ds : List Char}
    (h : IsLongestBeginning words s cs) (h' : IsLongestBeginning words s ds) : cs = ds := by
  have hcs := h'.longest cs h.isPrefix h.begins
  have hds := h.longest ds h'.isPrefix h'.begins
  exact hcs.eq_of_length_le hds.length_le

theorem queries_ofWords (words : List (List Char)) (s : List Char) :
    ((ofWords words).contains s = true ↔ ∃ w ∈ words, lower s = lower w) ∧
    ((ofWords words).containsPrefix s = true ↔ Begins words (lower s)) ∧
    ((ofWords words).charsAfter s).Pairwise (· < ·) ∧
    (∀ c, c ∈ (ofWords words).charsAfter s ↔ ∃ w ∈ words, lower s ++ [c] <+: lower w) ∧
    IsLongestBeginning words s ((ofWords words).longestMatch s) ∧
    ((ofWords words).longestMatch s = lower s ↔ (ofWords words).containsPrefix s = true) ∧
    ∀ words', (∀ w, w ∈ words' ↔ w ∈ words) →
      (ofWords words').contains s = (ofWords words).contains s ∧
      (ofWords words').containsPrefix s = (ofWords words).containsPrefix s ∧
      (ofWords words').charsAfter s = (ofWords words).charsAfter s ∧
      (ofWords words').longestMatch s = (ofWords words).longestMatch s := by
  have hcontains (ws : List (List Char)) :
      (ofWords ws).contains s = true ↔ ∃ w ∈ ws, lower s = lower w :=
    contains_eq_true_iff.trans accepts_ofWords_iff
  have hcontainsPrefix (ws : List (List Char)) :
      (ofWords ws).containsPrefix s = true ↔ Begins ws (lower s) :=
    containsPrefix_eq_true_iff.trans isSome_walk_ofWords_iff
  have hascending (ws : List (List Char)) : ((ofWords ws).charsAfter s).Pairwise (· < ·) :=
    (wellFormed_ofWords ws).ascending_charsAfter
  refine ⟨hcontains words, hcontainsPrefix words, hascending words, fun c => mem_charsAfter_ofWords_iff,
    isLongestBeginning_longestMatch words s, followed_eq_self_iff, ?_⟩
  intro words' hsame
  have hbegins (cs : List Char) : Begins words' cs ↔ Begins words cs := by
    simp only [Begins, hsame]
  refine ⟨?_, ?_, ?_, ?_⟩
  · rw [Bool.eq_iff_iff, hcontains, hcontains]
    simp only [hsame]
  · rw [Bool.eq_iff_iff, hcontainsPrefix, hcontainsPrefix, hbegins]
  · refine (hascending words').eq_of_mem_iff (hascending words) fun c => ?_
    rw [mem_charsAfter_ofWords_iff, mem_charsAfter_ofWords_iff]
    simp only [hsame]
  · have hlongest := isLongestBeginning_longestMatch words' s
    refine IsLongestBeginning.unique ⟨hlongest.isPrefix, (hbegins _).1 hlongest.begins, ?_⟩
      (isLongestBeginning_longestMatch words s)
    exact fun ds hds h => hlongest.longest ds hds ((hbegins ds).2 h)

theorem queries_ofWords_of_repeated_word :
    let words := ["sun".toList, "SUNDAY".toList, "sun".toList]
    let words' := ["SUNDAY".toList, "sun".toList]
    let s := "Sun".toList
    (∀ w, w ∈ words' ↔ w ∈ words) ∧ (ofWords words).contains s = true ∧
      'd' ∈ (ofWords words).charsAfter s ∧ (ofWords words).longestMatch s = lower s ∧
      (ofWords words').contains s = (ofWords words).contains s ∧
      (ofWords words').charsAfter s = (ofWords words).charsAfter s := by
  intro words words' s
  have hsame : ∀ w, w ∈ words' ↔ w ∈ words := by
    intro w
    simp only [words, words', List.mem_cons, List.not_mem_nil, or_false]
    tauto
  obtain ⟨hcontains, hcontainsPrefix, -, hchars, -, hlongest, hset⟩ := queries_ofWords words s
  obtain ⟨hcontains', -, hchars', -⟩ := hset words' hsame
  have hmem : "sun".toList ∈ words := List.mem_cons_self
  have hday : "SUNDAY".toList ∈ words := List.mem_cons_of_mem _ List.mem_cons_self
  refine ⟨hsame, hcontains.2 ⟨_, hmem, by decide⟩, (hchars 'd').2 ⟨_, hday, by decide⟩, ?_,
    hcontains', hchars'⟩
  exact hlongest.2 (hcontainsPrefix.2 (.inr ⟨_, hmem, by decide⟩))

end Timetable.Text.Trie
