import Stencil.Shape

/-!
# Declarations

Settled fields written as the declaration of an exported interface, one field a line.
-/

namespace Stencil

namespace Declaration

structure Options where
  /-- The name of the interface. -/
  name : String := "TemplateParams"
  /-- Spaces for each level of nesting. -/
  indent : Nat := 2
deriving DecidableEq

def Options.margin (o : Options) (depth : Nat) : String :=
  String.ofList (List.replicate (depth * o.indent) ' ')

/-- A name that starts with a digit is no identifier, so it is quoted. -/
def fieldName (name : String) : String :=
  match name.toList.head? with
  | some c => if c.isDigit then "\"" ++ name ++ "\"" else name
  | none => name

/-- The type of a leaf: a union, in brackets if a list of several types is meant. -/
def leafType (l : Leaf) (array : Bool) : String :=
  if array then
    if l.names.length = 1 then l.toString ++ "[]" else "(" ++ l.toString ++ ")[]"
  else l.toString

/-- An optional field is not written beside a required one of the same name. -/
def isHidden (siblings : Fields) (key : Key) : Bool :=
  key.optional && siblings.any fun (k, _) => k.name = key.name && !k.optional

mutual

/-- The type of a field that is written at `depth`. -/
def shapeType (o : Options) (depth : Nat) (array : Bool) : Shape → String
  | .leaf l => leafType l array
  | .object [] => if array then "\x7b\x7d[]" else "\x7b\x7d"
  | .object fields =>
    "\x7b\n" ++ fieldLines o (depth + 1) fields fields ++ o.margin depth ++
      if array then "\x7d[]" else "\x7d"

/-- The lines of fields at `depth`; `siblings` are all fields of the object. -/
def fieldLines (o : Options) (depth : Nat) (siblings : Fields) : List (Key × Shape) → String
  | [] => ""
  | (key, shape) :: rest =>
    (if isHidden siblings key then ""
      else o.margin depth ++ fieldName key.name ++ (if key.optional then "?" else "") ++ ": " ++
        shapeType o depth key.array shape ++ ";\n") ++
      fieldLines o depth siblings rest

end

end Declaration

/-- The declaration of an interface with these fields. -/
def Fields.declaration (fields : Fields) (o : Declaration.Options) : String :=
  "export interface " ++ o.name ++ " " ++ Declaration.shapeType o 0 false (.object fields) ++ "\n"

end Stencil
