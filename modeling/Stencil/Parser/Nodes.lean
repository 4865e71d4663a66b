import Stencil.Parser.Form

/-!
# Runs of nodes

A node is read by the first form that fits. A run of nodes goes to the end of the text, or to the
tag that ends the block around it.
-/

namespace Stencil.Parser

/-- One node, by the first of `forms` that reads one. -/
def node (forms : List Form) (body : Parser (List Node)) : Parser Node := fun c =>
  let fallback := c.error (.expected "a tag or text")
  do
    Traced.write fallback
    firstOf fallback (forms.map (Form.parse body)) c

/-- At most `bound` nodes in a row, each block of them holding fewer; `inside` a block the run ends
before an end mark, outside at the end of the text. -/
def nodesWithin (forms : List Form) : (bound : Nat) → (inside : Bool) → Parser (List Node)
  | 0, _ => raise (.expected "a tag or text")
  | bound + 1, inside => fun c =>
    if c.rest = [] then
      if inside then raise (.endBefore (some (String.ofList endMark))) c else pure ([], c)
    else if inside = true ∧ endMark <+: c.rest then pure ([], c)
    else (do
      let first ← node forms (nodesWithin forms bound true)
      let others ← nodesWithin forms bound inside
      pure (first :: others) : Parser (List Node)) c

/-- A run of nodes. Every node takes a character, so the text left bounds their number. -/
def nodes (forms : List Form) (inside : Bool) : Parser (List Node) := fun c =>
  nodesWithin forms (c.rest.length + 1) inside c

/-- Reads a whole text, with the forms tried in the order given. -/
def parseWith (forms : List Form) (source : String) : Traced ParseError ParseError (List Node) := do
  let (nodes, _) ← nodes forms false (.start source)
  pure nodes

end Stencil.Parser
