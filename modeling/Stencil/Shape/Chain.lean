import Stencil.Conflict
import Stencil.Node
import Stencil.Shape

/-!
# The fields of one tag

A tag asks for one field per segment of its path, each inside the one before. Only the innermost is
marked and has the shape that the tag asks for.
-/

namespace Stencil.Fields

/-- A segment of decimal digits reads as an index into a list. -/
def looksLikeIndex (segment : String) : Bool :=
  !segment.isEmpty && segment.toList.all Char.isDigit

/-- Objects of one field inside each other, the last one marked and holding `shape`. -/
def wrap (optional array : Bool) (shape : Shape) : (segments : List String) → Fields
  | [] => []
  | [last] => [({ name := last, optional, array }, shape)]
  | segment :: rest => [({ name := segment }, .object (wrap optional array shape rest))]

/-- The fields along `segments`, none of which may read as an index. -/
def chain (segments : List String) (optional array : Bool) (shape : Shape) :
    Except Conflict Fields :=
  match segments.find? looksLikeIndex with
  | some segment => .error (.indexName segments segment)
  | none => .ok (wrap optional array shape segments)

/-- The fields that a variable tag asks for. -/
def ofVariable (name : Path) (type : Option ValueType) : Except Conflict Fields :=
  match type with
  | some a => chain name.segments a.optional false (.leaf (.of a.alternatives))
  | none => chain name.segments false false (.leaf .any)

end Stencil.Fields
