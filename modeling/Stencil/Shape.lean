import Stencil.Entries
import Stencil.Shape.Leaf

/-!
# Shapes of data

The shape that data must have for a template: a leaf, or an object with fields. Fields keep the
order in which they were first met; two shapes are the `same` if they differ in that order only.
-/

namespace Stencil

/-- The name of a field and what is known of it. -/
structure Key where
  name : String
  /-- The field may be missing. -/
  optional : Bool := false
  /-- The field holds a list of such values. -/
  array : Bool := false
deriving DecidableEq

protected def Key.toString (k : Key) : String :=
  (if k.optional then "?" else "") ++ k.name ++ (if k.array then "[]" else "")

inductive Shape where
  | leaf (l : Leaf)
  | object (fields : List (Key × Shape))

/-- The fields of an object. A name may stand under several keys until the fields are settled. -/
abbrev Fields := List (Key × Shape)

namespace Fields

def keys (fields : Fields) : List Key := fields.map Prod.fst

/-- The shape under a key. -/
def get? (fields : Fields) (key : Key) : Option Shape := fields.lookup key

/-- Sets a key: in its place if it is there, at the end otherwise. -/
def set (fields : Fields) (key : Key) (shape : Shape) : Fields := Entries.put key shape fields

end Fields

namespace Shape

/-- One line about a shape, for messages. -/
def describe : Shape → String
  | leaf l => l.toString
  | object fields => "\x7b " ++ ", ".intercalate (fields.map fun (k, _) => k.toString) ++ " \x7d"

mutual

/-- The number of levels of fields. -/
def depth : Shape → Nat
  | leaf _ => 0
  | object fields => depthList fields + 1

def depthList : List (Key × Shape) → Nat
  | [] => 0
  | (_, s) :: rest => max s.depth (depthList rest)

end

mutual

protected def beq : Shape → Shape → Bool
  | leaf l, leaf l' => l == l'
  | object fs, object gs => Shape.beqList fs gs
  | _, _ => false

protected def beqList : List (Key × Shape) → List (Key × Shape) → Bool
  | [], [] => true
  | (k, s) :: fs, (l, t) :: gs => k == l && s.beq t && Shape.beqList fs gs
  | _, _ => false

end

mutual

theorem beq_iff : ∀ s t : Shape, s.beq t = true ↔ s = t
  | leaf _, t => by cases t <;> simp [Shape.beq]
  | object fs, t => by cases t <;> simp [Shape.beq, beqList_iff fs]

theorem beqList_iff : ∀ fs gs : List (Key × Shape), Shape.beqList fs gs = true ↔ fs = gs
  | [], gs => by cases gs <;> simp [Shape.beqList]
  | (k, s) :: fs, gs => by
    cases gs with
    | nil => simp [Shape.beqList]
    | cons g gs => simp [Shape.beqList, beq_iff s, beqList_iff fs, Prod.ext_iff]

end

instance : DecidableEq Shape := fun s t => decidable_of_iff _ (beq_iff s t)

mutual

/-- Equality up to the order of fields. -/
def same : Shape → Shape → Bool
  | leaf l, leaf l' => l == l'
  | object fs, object gs => fs.length == gs.length && allIn gs fs
  | _, _ => false

/-- Whether each of the fields is one of `gs`. -/
def allIn (gs : Fields) : List (Key × Shape) → Bool
  | [] => true
  | (k, s) :: fs =>
    (match gs.get? k with
      | some t => s.same t
      | none => false) && allIn gs fs

end

end Shape

namespace Fields

def depth (fields : Fields) : Nat := Shape.depthList fields

def same (fields others : Fields) : Bool := (Shape.object fields).same (.object others)

end Fields

end Stencil
