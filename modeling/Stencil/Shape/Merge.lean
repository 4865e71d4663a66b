import Stencil.Conflict
import Stencil.Shape

/-!
# Merging shapes

Two shapes are merged into the least one that asks for all that either asks for. An open leaf yields
to anything; otherwise leaves must agree, and objects are merged key by key. The first clash stops
the merge and is reported with the names that lead to it.
-/

namespace Stencil

mutual

/-- The merge of two shapes at `path`. -/
def Shape.merge (path : List String) : Shape → Shape → Except Conflict Shape
  | .leaf .any, other => .ok other
  | other, .leaf .any => .ok other
  | .leaf (.oneOf a), .leaf (.oneOf b) =>
    if a = b then .ok (.leaf (.oneOf a))
    else .error (.scalar path (Leaf.oneOf a).toString (Leaf.oneOf b).toString)
  | .object fields, .object others => do
    let merged ← Shape.mergeInto path fields others
    .ok (.object merged)
  | left, right => .error (.shape path left.describe right.describe)

/-- Merges fields, one after the other, into those of `into`. -/
def Shape.mergeInto (path : List String) (into : Fields) :
    List (Key × Shape) → Except Conflict Fields
  | [] => .ok into
  | (key, shape) :: rest => do
    let merged ←
      match into.get? key with
      | some present => present.merge (path ++ [key.toString]) shape
      | none => .ok shape
    Shape.mergeInto path (into.set key merged) rest

end

namespace Fields

/-- The fields of both: those of `left` first, then the new ones of `right`. -/
def merge (left right : Fields) : Except Conflict Fields := Shape.mergeInto [] left right

end Fields

end Stencil
