namespace Timetable

/-- A number stands as `mantissa * 10 ^ -exponent`. -/
inductive Json where
  | null
  | bool (value : Bool)
  | number (mantissa : Int) (exponent : Nat)
  | string (value : String)
  | array (items : List Json)
  | object (fields : List (String × Json))
  deriving Inhabited, Repr, BEq

namespace Json

def fields? (names : List String) : Json → Option (List Json)
  | .object fields => names.mapM (List.lookup · fields)
  | .array items => if items.length = names.length then some items else none
  | _ => none

def pair? {α β γ : Type} (first second : String) (a? : Json → Option α) (b? : Json → Option β)
    (make : α → β → γ) (j : Json) : Option γ :=
  match j.fields? [first, second] with
  | some [a, b] => (a? a).bind fun a => (b? b).map (make a)
  | _ => none

theorem pair?_object {α β γ : Type} {first second : String} (h : first ≠ second)
    (a? : Json → Option α) (b? : Json → Option β) (make : α → β → γ) (a b : Json) :
    pair? first second a? b? make (.object [(first, a), (second, b)]) =
      (a? a).bind fun a => (b? b).map (make a) := by
  have h' : (second == first) = false := by simpa using h.symm
  simp [pair?, fields?, List.lookup_cons, h']

def list? {α : Type} (read? : Json → Option α) : Json → Option (List α)
  | .array items => items.mapM read?
  | _ => none

theorem list?_array_map {α : Type} {read? : Json → Option α} {write : α → Json} {as : List α}
    (h : ∀ a ∈ as, read? (write a) = some a) : list? read? (.array (as.map write)) = some as := by
  induction as with
  | nil => rfl
  | cons a as ih =>
    simp only [List.mem_cons, forall_eq_or_imp] at h
    have ih := ih h.2
    simp only [list?] at ih ⊢
    simp [List.mapM_cons, h.1, ih]

end Json

end Timetable
