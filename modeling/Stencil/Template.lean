import Stencil.Declaration
import Stencil.Inference
import Stencil.Parser.Nodes
import Stencil.Render

/-!
# Templates

A template is a text together with the nodes it holds. It is read once; then it can be rendered with
any data, or asked for the shape of the data it needs.
-/

namespace Stencil

structure Template where
  source : String
  nodes : List Node
deriving DecidableEq

/-- Why no declaration could be inferred from a text. -/
inductive Failure where
  | parse (error : ParseError)
  | conflict (conflict : Conflict)
deriving DecidableEq

namespace Failure

def message : Failure → String
  | parse error => error.message
  | conflict c => "Type inference failed: " ++ c.message

/-- The messages of what lies behind the failure, from the nearest cause on. -/
def causes : Failure → List String
  | parse error => [error.message, error.cause.message]
  | conflict c => [c.message]

end Failure

namespace Template

def parse (source : String) : Except ParseError Template := do
  let nodes ← (Parser.parseWith Parser.Form.all source).result
  .ok ⟨source, nodes⟩

/-- All errors that come up while a text is read, those of abandoned attempts included. -/
def diagnostics (source : String) : List ParseError :=
  (Parser.parseWith Parser.Form.all source).trail

def load (source : String) : Traced Record ParseError Template := do
  let template ← .ofExcept (parse source)
  .write (.parsed template.nodes.length)
  pure template

def render (t : Template) (data : Value) : String := renderAll data data t.nodes

/-- The settled fields of the data that the template reads. -/
def fields (t : Template) : Except Conflict Fields := (infer t.nodes).result

/-- Whether two templates read data of the same fields, whatever their order, or ask for it with the
same conflict. -/
def readsLike (t u : Template) : Bool :=
  match t.fields, u.fields with
  | .ok fields, .ok others => fields.same others
  | .error c, .error c' => c = c'
  | _, _ => false

def declare (t : Template) (o : Declaration.Options) : Inference String := do
  let fields ← infer t.nodes
  pure (fields.declaration o)

def declaration (t : Template) (o : Declaration.Options) : Except Conflict String :=
  (t.declare o).result

end Template

def render (source : String) (data : Value) : Traced Record ParseError String := do
  let template ← Template.load source
  pure (template.render data)

/-- Reads a text and renders it; a text that is no template is rendered as nothing. -/
def renderOrEmpty (source : String) (data : Value) : Traced Record Empty String :=
  (render source data).handle fun error => do
    .write (.discarded error)
    pure ""

def inferDeclaration (source : String) : Traced Record Failure String := do
  let template ← (Template.load source).mapError .parse
  (template.declare {}).mapError .conflict

namespace Template

variable {source : String} {t : Template}

theorem load_of_parse (h : parse source = .ok t) :
    load source = ⟨[.parsed t.nodes.length], .ok t⟩ := by
  rw [load, h]
  rfl

theorem render_of_parse (h : parse source = .ok t) (data : Value) :
    (Stencil.render source data).result = .ok (t.render data) := by
  rw [Stencil.render, load_of_parse h, Traced.result_bind]
  rfl

end Template

end Stencil
