import Timetable.Language.Vocabulary

namespace Timetable

structure Complaint where
  expected : List Char
  back : Nat
  deriving DecidableEq, Repr

structure Scan where
  lexeme : List Char
  outcome : Except Complaint TokenKind

namespace Scan

def classify (word : List Char) : Except Complaint TokenKind :=
  if Vocabulary.trie.contains word then
    match Vocabulary.kind? word with
    | some kind => .ok kind
    | none => .error ⟨[], word.length⟩
  else if Vocabulary.trie.containsPrefix word then
    .error ⟨Vocabulary.trie.charsAfter word, 0⟩
  else
    .error ⟨[], word.length - (Vocabulary.trie.longestMatch word).length⟩

def word (cs : List Char) : Scan :=
  let letters := cs.takeWhile Char.isAlpha
  ⟨letters, classify letters⟩

def digitsUpTo (last : Nat) : List Char :=
  (List.range (last + 1)).map Nat.digitChar

def timeClasses (first : Char) : List (List Char) :=
  [digitsUpTo 2, digitsUpTo (if first = '2' then 3 else 9), digitsUpTo 5, digitsUpTo 9]

def oneOfEach : List (List Char) → List Char → List Char × Option (List Char)
  | [], _ => ([], none)
  | allowed :: _, [] => ([], some allowed)
  | allowed :: classes, c :: cs =>
    if c ∈ allowed then
      let read := oneOfEach classes cs
      (c :: read.1, read.2)
    else
      ([], some allowed)

theorem oneOfEach_isPrefix (classes : List (List Char)) (cs : List Char) :
    (oneOfEach classes cs).1 <+: cs := by
  fun_induction oneOfEach classes cs with
  | case1 | case2 | case4 => exact ⟨_, rfl⟩
  | case3 _ _ _ _ _ _ ih =>
    exact List.cons_prefix_cons.2 ⟨rfl, ih⟩

def time (first : Char) (cs : List Char) : Scan :=
  let read := oneOfEach (timeClasses first) cs
  ⟨read.1, match read.2 with
    | none => .ok .time
    | some allowed => .error ⟨allowed, 0⟩⟩

def ofChars : List Char → Scan
  | [] => ⟨[], .ok .endInput⟩
  | c :: cs =>
    if c.isAlpha then word (c :: cs)
    else if c ∈ digitsUpTo 2 then time c (c :: cs)
    else if c = '-' then ⟨['-'], .ok .dash⟩
    else ⟨[], .error ⟨[], 0⟩⟩

theorem lexeme_isPrefix (cs : List Char) : (ofChars cs).lexeme <+: cs := by
  fun_cases ofChars cs with
  | case1 => exact ⟨_, rfl⟩
  | case2 c cs h => exact List.takeWhile_prefix _
  | case3 c cs h h' => exact oneOfEach_isPrefix _ _
  | case4 => exact ⟨_, rfl⟩
  | case5 => exact ⟨_, rfl⟩

theorem oneOfEach_ne_nil {allowed : List Char} {classes : List (List Char)} {cs : List Char}
    (h : (oneOfEach (allowed :: classes) cs).2 = none) :
    (oneOfEach (allowed :: classes) cs).1 ≠ [] := by
  cases cs with
  | nil => simp [oneOfEach] at h
  | cons c cs =>
    simp only [oneOfEach] at h ⊢
    split <;> simp_all

theorem lexeme_ne_nil {cs : List Char} {kind : TokenKind} (h : (ofChars cs).outcome = .ok kind)
    (hk : kind ≠ .endInput) : (ofChars cs).lexeme ≠ [] := by
  fun_cases ofChars cs with
  | case1 => simp_all [ofChars]
  | case2 c cs hc => simp [word, hc]
  | case3 c cs h₁ h₂ =>
    rw [ofChars, if_neg h₁, if_pos h₂] at h
    simp only [time] at h
    split at h
    · next refused => exact oneOfEach_ne_nil refused
    · simp at h
  | case4 => simp
  | case5 => simp_all [ofChars]

end Scan

end Timetable
