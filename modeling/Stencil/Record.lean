import Stencil.Conflict
import Stencil.Node
import Stencil.ParseError
import Stencil.Shape

/-!
# Records

What the library notes down while it works, for whoever wants to follow it. The record of a tag
keeps the fields that the tag adds; its message only names the tag.
-/

namespace Stencil

inductive Level where
  | debug
  | trace
deriving DecidableEq

inductive Record where
  /-- A template with so many nodes outside all blocks. -/
  | parsed (count : Nat)
  /-- A variable adds fields to what its scope requires. -/
  | variableTag (name : Path) (scope : Scope) (fields : Fields)
  /-- A block adds fields to what is required around it. -/
  | blockTag (name : Path) (fields : Fields)
  /-- A text is rendered as nothing, because it is no template. -/
  | discarded (error : ParseError)
  /-- Fields cannot be settled. -/
  | unsettled (conflict : Conflict)
deriving DecidableEq

namespace Record

def level : Record → Level
  | parsed _ | variableTag .. | blockTag .. => .trace
  | discarded _ | unsettled _ => .debug

def message : Record → String
  | parsed count => "parsed " ++ toString count ++ " top-level nodes"
  | variableTag name .context _ => "variable " ++ name.toString ++ " (Local)"
  | variableTag name .root _ => "variable " ++ name.toString ++ " (Global)"
  | blockTag name _ => "section " ++ name.toString
  | discarded error => "discarding render of unparseable template: " ++ error.message
  | unsettled conflict => conflict.message

end Record

end Stencil
