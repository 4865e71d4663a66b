import Stencil.Path

/-!
# Template nodes

A template is a list of nodes: text, tags that print a value, blocks that choose or repeat their
content, comments, and references to other templates.
-/

namespace Stencil

/-- Where the path of a variable starts. -/
inductive Scope where
  /-- At the data of the innermost block around the tag. -/
  | context
  /-- At the root of the data. -/
  | root
deriving DecidableEq

/-- What a variable tag says about its value, as in `{{ age?: number | string }}`. -/
structure ValueType where
  /-- Type names in the order written, each once; none of them means any type. -/
  alternatives : List String
  optional : Bool
deriving DecidableEq

inductive Node where
  /-- Text that is printed as it stands. -/
  | text (content : String)
  /-- `{{ name }}`, or `{{{ name }}}` if the value is printed `raw`. -/
  | var (name : Path) (raw : Bool) (type : Option ValueType) (scope : Scope)
  /-- `{{ . }}`: the data of the block itself. -/
  | dot (raw : Bool)
  /-- `{{# name }} … {{/ name }}`, with `?` after the name if it is `optional`. -/
  | block (name : Path) (content : List Node) (optional : Bool)
  /-- `{{^ name }} … {{/ name }}`: content for when the block would print nothing. -/
  | inverted (name : Path) (content : List Node)
  /-- `{{! … }}` -/
  | comment (content : String)
  /-- `{{> name }}`: a template to be filled in later. -/
  | reference (name : Path)

namespace Node

mutual

protected def beq : Node → Node → Bool
  | text s, text t => s == t
  | var n r a s, var n' r' a' s' => n == n' && r == r' && a == a' && s == s'
  | dot r, dot r' => r == r'
  | block n c o, block n' c' o' => n == n' && Node.beqList c c' && o == o'
  | inverted n c, inverted n' c' => n == n' && Node.beqList c c'
  | comment s, comment t => s == t
  | reference n, reference n' => n == n'
  | _, _ => false

protected def beqList : List Node → List Node → Bool
  | [], [] => true
  | n :: ns, m :: ms => n.beq m && Node.beqList ns ms
  | _, _ => false

end

mutual

theorem beq_iff : ∀ a b : Node, a.beq b = true ↔ a = b
  | text _, b => by cases b <;> simp [Node.beq]
  | var .., b => by cases b <;> simp [Node.beq, and_assoc]
  | dot _, b => by cases b <;> simp [Node.beq]
  | block _ c _, b => by cases b <;> simp [Node.beq, beqList_iff c, and_assoc]
  | inverted _ c, b => by cases b <;> simp [Node.beq, beqList_iff c]
  | comment _, b => by cases b <;> simp [Node.beq]
  | reference _, b => by cases b <;> simp [Node.beq]

theorem beqList_iff : ∀ as bs : List Node, Node.beqList as bs = true ↔ as = bs
  | [], bs => by cases bs <;> simp [Node.beqList]
  | a :: as, bs => by cases bs <;> simp [Node.beqList, beq_iff a, beqList_iff as]

end

instance : DecidableEq Node := fun a b => decidable_of_iff _ (beq_iff a b)

end Node

end Stencil
