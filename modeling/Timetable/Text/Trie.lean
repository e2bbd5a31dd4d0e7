import Timetable.Text.Lowercase

namespace Timetable.Text

structure TrieNode where
  children : List (Char × Nat)
  terminal : Bool
  deriving DecidableEq, Repr

namespace TrieNode

def leaf : TrieNode := ⟨[], false⟩

def insertChild (c : Char) (child : Nat) : List (Char × Nat) → List (Char × Nat)
  | [] => [(c, child)]
  | e :: es => if c < e.1 then (c, child) :: e :: es else e :: insertChild c child es

theorem mem_insertChild {c : Char} {child : Nat} {es : List (Char × Nat)} {e : Char × Nat} :
    e ∈ insertChild c child es ↔ e = (c, child) ∨ e ∈ es := by
  induction es with
  | nil => simp [insertChild]
  | cons d ds ih =>
    simp only [insertChild]
    split
    · simp
    · simp only [List.mem_cons, ih]
      grind

def link (n : TrieNode) (c : Char) (child : Nat) : TrieNode :=
  { n with children := insertChild c child n.children }

def mark (n : TrieNode) : TrieNode :=
  { n with terminal := true }

end TrieNode

structure Trie where
  nodes : Array TrieNode
  deriving DecidableEq, Repr

namespace Trie

def empty : Trie := ⟨#[.leaf]⟩

def root : Nat := 0

def size (t : Trie) : Nat := t.nodes.size

def child? (t : Trie) (node : Nat) (c : Char) : Option Nat :=
  t.nodes[node]?.bind (·.children.lookup c)

def terminal (t : Trie) (node : Nat) : Bool :=
  t.nodes[node]?.any (·.terminal)

def sprout (t : Trie) (parent : Nat) (c : Char) : Trie :=
  ⟨(t.nodes.modify parent (·.link c t.size)).push .leaf⟩

theorem size_sprout (t : Trie) (parent : Nat) (c : Char) :
    (t.sprout parent c).size = t.size + 1 := by
  simp [sprout, size]

def grow (t : Trie) (node : Nat) : List Char → Trie × Nat
  | [] => (t, node)
  | c :: cs =>
    match t.child? node c with
    | some next => t.grow next cs
    | none => (t.sprout node c).grow t.size cs

def add (t : Trie) (word : List Char) : Trie :=
  let (t, node) := t.grow root (lower word)
  ⟨t.nodes.modify node (·.mark)⟩

def ofWords (words : List (List Char)) : Trie :=
  words.foldl add empty

def walk (t : Trie) (node : Nat) : List Char → Option Nat
  | [] => some node
  | c :: cs => (t.child? node c).bind fun next => t.walk next cs

theorem walk_append (t : Trie) (node : Nat) (cs ds : List Char) :
    t.walk node (cs ++ ds) = (t.walk node cs).bind fun next => t.walk next ds := by
  induction cs generalizing node with
  | nil => rfl
  | cons c cs ih => simp [walk, ih, Option.bind_assoc]

def followed (t : Trie) (node : Nat) : List Char → List Char
  | [] => []
  | c :: cs =>
    match t.child? node c with
    | some next => c :: t.followed next cs
    | none => []

theorem followed_isPrefix (t : Trie) (node : Nat) (cs : List Char) : t.followed node cs <+: cs := by
  induction cs generalizing node with
  | nil => exact ⟨_, rfl⟩
  | cons c cs ih =>
    simp only [followed]
    split
    · exact List.cons_prefix_cons.2 ⟨rfl, ih _⟩
    · exact ⟨_, rfl⟩

theorem followed_eq_self_iff {t : Trie} {node : Nat} {cs : List Char} :
    t.followed node cs = cs ↔ (t.walk node cs).isSome := by
  induction cs generalizing node with
  | nil => simp [followed, walk]
  | cons c cs ih =>
    simp only [followed, walk]
    cases t.child? node c <;> simp [ih]

def contains (t : Trie) (word : List Char) : Bool :=
  (t.walk root (lower word)).any t.terminal

def containsPrefix (t : Trie) (word : List Char) : Bool :=
  (t.walk root (lower word)).isSome

def charsAfter (t : Trie) (word : List Char) : List Char :=
  match (t.walk root (lower word)).bind (t.nodes[·]?) with
  | some node => node.children.map Prod.fst
  | none => []

def longestMatch (t : Trie) (word : List Char) : List Char :=
  t.followed root (lower word)

end Trie

end Timetable.Text
