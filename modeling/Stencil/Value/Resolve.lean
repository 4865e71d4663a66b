import Stencil.Value

/-!
# Following a path through data

A map is entered by key and a list by index. A scalar has no parts, so a path that reaches one ends
there and finds the scalar, whatever segments are left.
-/

namespace Stencil.Value

/-- The index that a segment writes: decimal digits, with a plus sign in front or without. -/
def index? (segment : String) : Option Nat :=
  let digits := match segment.toList with
    | '+' :: cs => cs
    | cs => cs
  if digits ≠ [] ∧ digits.all Char.isDigit then
    some (digits.foldl (fun n c => 10 * n + (c.toNat - '0'.toNat)) 0)
  else none

/-- The part of a value that one segment names. -/
def child? (v : Value) (segment : String) : Option Value :=
  match v with
  | map entries => entries.lookup segment
  | list items => (index? segment).bind fun i => items[i]?
  | _ => none

/-- What a path finds, if anything. -/
def resolve? (v : Value) : List String → Option Value
  | [] => some v
  | segment :: rest =>
    if v.isScalar then some v else (v.child? segment).bind fun w => w.resolve? rest

@[simp] theorem resolve?_nil (v : Value) : v.resolve? [] = some v := rfl

theorem resolve?_of_isScalar {v : Value} (h : v.isScalar = true) (path : List String) :
    v.resolve? path = some v := by
  cases path <;> simp [resolve?, h]

theorem resolve?_append (v : Value) (p q : List String) :
    v.resolve? (p ++ q) = (v.resolve? p).bind fun w => w.resolve? q := by
  induction p generalizing v with
  | nil => simp
  | cons s p ih =>
    by_cases h : v.isScalar = true
    · simp [resolve?_of_isScalar h]
    · rw [List.cons_append, resolve?, resolve?, if_neg h, if_neg h]
      cases v.child? s with
      | none => rfl
      | some w => exact ih w

end Stencil.Value
