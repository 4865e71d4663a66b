import Stencil.Shape.Merge

/-!
# Settling fields

Keys of one name are folded into one, level by level from the root. A field is optional if all its
uses are. A list keeps its name against a plain use: a test adds nothing to it, an object describes
its items, and any other scalar clashes.
-/

namespace Stencil.Fields

/-- One field for two keys of the same name, the last one on `path`. -/
def combine (path : List String) (left right : Key × Shape) : Except Conflict (Key × Shape) :=
  let optional := left.1.optional && right.1.optional
  if left.1.array = right.1.array then do
    let shape ← left.2.merge path right.2
    .ok ({ left.1 with optional }, shape)
  else
    let (items, plain) := if left.1.array then (left, right) else (right, left)
    let key := { items.1 with optional }
    match plain.2 with
    | .object fields => do
      let shape ← items.2.merge path (.object fields)
      .ok (key, shape)
    | .leaf l =>
      if l.isAny || l.isBoolean then .ok (key, items.2)
      else .error (.shape path ("(" ++ items.2.describe ++ ")[]") (Shape.leaf l).describe)

/-- Adds a field: into the one of the same name if there is one, at the end otherwise. -/
def absorb (path : List String) (field : Key × Shape) : Fields → Except Conflict Fields
  | [] => .ok [field]
  | first :: rest =>
    if first.1.name = field.1.name then do
      let both ← combine (path ++ [field.1.name]) first field
      .ok (both :: rest)
    else do
      let rest ← absorb path field rest
      .ok (first :: rest)

/-- Folds the keys of one name on a single level. -/
def fold (path : List String) (fields : Fields) : Except Conflict Fields :=
  fields.foldlM (fun settled field => absorb path field settled) []

/-- Settles the topmost `levels` levels. Folding can bring keys of one name together further down,
so a level is folded before the next one is entered. -/
def settleLevels : (levels : Nat) → (path : List String) → Fields → Except Conflict Fields
  | 0, _, fields => .ok fields
  | levels + 1, path, fields => do
    let folded ← fold path fields
    folded.mapM fun (key, shape) =>
      match shape with
      | .leaf l => .ok (key, .leaf l)
      | .object inner => do
        let inner ← settleLevels levels (path ++ [key.name]) inner
        .ok (key, .object inner)

/-- Settles all levels. -/
def settle (fields : Fields) : Except Conflict Fields := settleLevels (fields.depth + 1) [] fields

end Stencil.Fields
