import Stencil.Path

/-!
# Conflicts

Two uses of one path that no data can serve, with the names from the root down to where they clash.
-/

namespace Stencil

inductive Conflict where
  /-- Two leaves with different type names. -/
  | scalar (path : List String) (left right : String)
  /-- An object or a list against something it cannot be. -/
  | shape (path : List String) (left right : String)
  /-- A segment that reads as an index cannot name a field. -/
  | indexName (path : List String) (segment : String)
deriving DecidableEq

namespace Conflict

def names : Conflict → List String
  | scalar path _ _ | shape path _ _ | indexName path _ => path

/-- The place of the conflict, its names joined by dots. -/
def path (c : Conflict) : String := Path.join c.names

def message (c : Conflict) : String :=
  match c with
  | scalar _ left right =>
    "Conflicting types for " ++ c.path ++ ": `" ++ left ++ "` vs `" ++ right ++ "`"
  | shape _ left right =>
    "Conflicting shapes for " ++ c.path ++ ": `" ++ left ++ "` vs `" ++ right ++ "`"
  | indexName _ segment =>
    "Segment '" ++ segment ++ "' of " ++ c.path ++ " looks like an index, not a field name"

end Conflict

end Stencil
