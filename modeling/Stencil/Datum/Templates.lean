import Stencil.Datum
import Stencil.Template

/-!
# Templates and data as interchange data

Nodes are tagged with the name of their kind. Data has no tags: every interchange value is data, and
whole numbers become the nearest number.
-/

namespace Stencil

open Datum (field?)

namespace Scope

def toDatum : Scope → Datum
  | context => .text "Local"
  | root => .text "Global"

def ofDatum? (d : Datum) : Option Scope :=
  match d.tagged? with
  | some ("Local", none) | some ("Local", some .null) => some context
  | some ("Global", none) | some ("Global", some .null) => some root
  | _ => none

end Scope

namespace ValueType

def toDatum (a : ValueType) : Datum :=
  .record [("alternatives", .ofStrings a.alternatives), ("optional", .bool a.optional)]

end ValueType

/-- The mark on a block: whether what it is about may be missing. -/
structure BlockMark where
  optional : Bool
deriving DecidableEq

namespace BlockMark

def toDatum (m : BlockMark) : Datum := .record [("optional", .bool m.optional)]

def ofDatum? (d : Datum) : Option BlockMark := do
  let fields ← d.fields? ["optional"]
  let optional ← field? fields "optional" Datum.bool?
  some ⟨optional⟩

end BlockMark

def Path.toDatum (p : Path) : Datum := .ofStrings p.segments

namespace Node

mutual

def toDatum : Node → Datum
  | text content => .record [("Text", .record [("content", .text content)])]
  | var name raw type scope =>
    .record [("Variable", .record [("name", name.toDatum), ("triple", .bool raw),
      ("var_type", (type.map ValueType.toDatum).getD .null), ("scope", scope.toDatum)])]
  | dot raw => .record [("ImplicitVariable", .record [("triple", .bool raw)])]
  | block name content optional =>
    .record [("Section", .record [("name", name.toDatum), ("content", .list (toData content)),
      ("var_type", if optional then BlockMark.toDatum ⟨true⟩ else .null)])]
  | inverted name content =>
    .record [("InvertedSection", .record [("name", name.toDatum),
      ("content", .list (toData content))])]
  | comment content => .record [("Comment", .record [("content", .text content)])]
  | reference name => .record [("Partial", .record [("name", name.toDatum)])]

def toData : List Node → List Datum
  | [] => []
  | n :: ns => n.toDatum :: toData ns

end

end Node

def Template.toDatum (t : Template) : Datum :=
  .record [("source", .text t.source), ("nodes", .list (Node.toData t.nodes))]

namespace Declaration.Options

def toDatum (o : Options) : Datum :=
  .record [("type_name", .text o.name), ("indent", .ofCount o.indent)]

def ofDatum? (d : Datum) : Option Options := do
  let fields ← d.fields? ["type_name", "indent"]
  let name ← field? fields "type_name" Datum.text?
  let indent ← field? fields "indent" Datum.count?
  some { name, indent }

end Declaration.Options

namespace Value

mutual

def toDatum : Value → Datum
  | null => .null
  | bool b => .bool b
  | number x => .real x
  | string s => .text s
  | list items => .list (toData items)
  | map entries => .record (toFields entries)

def toData : List Value → List Datum
  | [] => []
  | v :: vs => v.toDatum :: toData vs

def toFields : List (String × Value) → List (String × Datum)
  | [] => []
  | (k, v) :: rest => (k, v.toDatum) :: toFields rest

end

mutual

def ofDatum : Datum → Value
  | .null => null
  | .bool b => bool b
  | .int n => ofInt n
  | .real x => number x
  | .text s => string s
  | .list items => list (ofData items)
  | .record fields => ofEntries (ofFields fields)

def ofData : List Datum → List Value
  | [] => []
  | d :: ds => ofDatum d :: ofData ds

def ofFields : List (String × Datum) → List (String × Value)
  | [] => []
  | (k, d) :: rest => (k, ofDatum d) :: ofFields rest

end

end Value

end Stencil
