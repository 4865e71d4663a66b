import Stencil.Node
import Stencil.Text.Markup
import Stencil.Value.Print
import Stencil.Value.Resolve

/-!
# Rendering

Nodes are printed against a context, the data of the innermost block around them, and the root of
all data. What the data lacks prints as nothing, so rendering never fails.
-/

namespace Stencil

/-- What a tag prints for the value it found. -/
def Value.place (raw : Bool) (found : Option Value) : String :=
  match found with
  | some v => if raw then v.print else Text.Markup.escape v.print
  | none => ""

/-- Whether a path found something truthy, over which an inverted block is silent. -/
def Value.isPresent (found : Option Value) : Bool :=
  match found with
  | some v => v.truthy
  | none => false

/-- The values that a block prints its content for: the items of a list, any other value once if it
is truthy. -/
def Value.contexts (found : Option Value) : List Value :=
  match found with
  | some (.list items) => items
  | some v => if v.truthy then [v] else []
  | none => []

/-- How a reference is written out again. -/
def Path.reference (name : Path) : String := "\x7b\x7b> " ++ name.toString ++ " \x7d\x7d"

mutual

def Node.render (root context : Value) : Node → String
  | .text content => content
  | .var name raw _ scope =>
    let base := match scope with
      | .context => context
      | .root => root
    Value.place raw (base.resolve? name.segments)
  | .dot raw => Value.place raw (some context)
  | .block name content _ =>
    String.join ((Value.contexts (context.resolve? name.segments)).map fun item =>
      renderAll root item content)
  | .inverted name content =>
    if Value.isPresent (context.resolve? name.segments) then "" else renderAll root context content
  | .comment _ => ""
  | .reference name => name.reference

/-- The texts of the nodes, one after the other. -/
def renderAll (root context : Value) : List Node → String
  | [] => ""
  | n :: ns => n.render root context ++ renderAll root context ns

end

theorem renderAll_append (root context : Value) (ns ms : List Node) :
    renderAll root context (ns ++ ms) =
      renderAll root context ns ++ renderAll root context ms := by
  induction ns with
  | nil => simp [renderAll]
  | cons n ns ih => simp [renderAll, ih, String.append_assoc]

end Stencil
