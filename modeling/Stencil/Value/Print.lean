import Stencil.Number.Print
import Stencil.Value

/-!
# Printed data

What a variable tag prints for a value, before any escaping.
-/

namespace Stencil.Value

mutual

/-- The text of a value. The items of a list are separated by commas; maps have no text. -/
def print : Value → String
  | null => ""
  | bool b => if b then "true" else "false"
  | number x => String.ofList x.print
  | string s => s
  | list items => ",".intercalate (printAll items)
  | map _ => ""

def printAll : List Value → List String
  | [] => []
  | v :: vs => v.print :: printAll vs

end

theorem printAll_eq_map (vs : List Value) : printAll vs = vs.map print := by
  induction vs with
  | nil => rfl
  | cons v vs ih => rw [printAll, ih, List.map_cons]

end Stencil.Value
