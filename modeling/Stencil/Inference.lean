import Stencil.Record
import Stencil.Shape.Chain
import Stencil.Shape.Settle
import Stencil.Traced

/-!
# Inference

The shape that data must have for a list of nodes. Tags add their fields in document order, those of
variables at the root apart from the others; in the end both are merged and settled.
-/

namespace Stencil

/-- Works on shapes, notes what tags add, and stops at the first conflict. -/
abbrev Inference := Traced Record Conflict

/-- What a run of nodes asks for. -/
structure Requirements where
  /-- Fields of the data around the run. -/
  here : Fields := []
  /-- Fields of the root, from any depth. -/
  root : Fields := []
  /-- Whether the run itself prints the data around it. -/
  dot : Bool := false

namespace Requirements

def addHere (r : Requirements) (fields : Fields) : Inference Requirements := do
  let here ← .ofExcept (r.here.merge fields)
  pure { r with here }

def addRoot (r : Requirements) (fields : Fields) : Inference Requirements := do
  let root ← .ofExcept (r.root.merge fields)
  pure { r with root }

/-- The shape of the items or the value of a block with this content, and whether it is a list. A
dot makes a list; without fields and dot the value is only tested. -/
def blockShape (content : Requirements) : Shape × Bool :=
  match content.dot, content.here with
  | false, [] => (.leaf .boolean, false)
  | true, [] => (.leaf .any, true)
  | dot, fields => (.object fields, dot)

end Requirements

mutual

/-- Adds what a node asks for. The content of an inverted block asks for nothing. -/
def Node.require (r : Requirements) : Node → Inference Requirements
  | .text _ | .comment _ | .reference _ => pure r
  | .dot _ => pure { r with dot := true }
  | .var name _ type scope => do
    let fields ← .ofExcept (Fields.ofVariable name type)
    .write (.variableTag name scope fields)
    match scope with
    | .context => r.addHere fields
    | .root => r.addRoot fields
  | .block name content optional => do
    let inner ← requireAll {} content
    let r ← r.addRoot inner.root
    let (shape, array) := inner.blockShape
    let fields ← .ofExcept (Fields.chain name.segments optional array shape)
    .write (.blockTag name fields)
    r.addHere fields
  | .inverted name _ => do
    let fields ← .ofExcept (Fields.chain name.segments false false (.leaf .boolean))
    r.addHere fields

/-- Adds what the nodes of a run ask for. -/
def requireAll (r : Requirements) : List Node → Inference Requirements
  | [] => pure r
  | n :: ns => do
    let r ← n.require r
    requireAll r ns

end

/-- The settled fields of the data that `nodes` ask for. -/
def infer (nodes : List Node) : Inference Fields := do
  let r ← requireAll {} nodes
  let fields ← .ofExcept (r.here.merge r.root)
  match fields.settle with
  | .ok settled => pure settled
  | .error conflict => do
    .write (.unsettled conflict)
    .fail conflict

end Stencil
