import Stencil.Number

/-!
# Interchange data

The form in which the library hands its values to others and takes them back: what any
self-describing text format can hold. Whole numbers are kept apart from other numbers.
-/

namespace Stencil

inductive Datum where
  | null
  | bool (b : Bool)
  | int (n : Int)
  | real (x : Number)
  | text (s : String)
  | list (items : List Datum)
  | record (fields : List (String × Datum))
deriving Inhabited

namespace Datum

/-- A value with a tag: the tag alone, or a record with the tag as its only key. -/
def tagged? : Datum → Option (String × Option Datum)
  | text tag => some (tag, none)
  | record [(tag, content)] => some (tag, some content)
  | _ => none

/-- The fields of a record, in which others may stand too, or a list of exactly these fields. -/
def fields? (names : List String) : Datum → Option (List (String × Datum))
  | record fields => some fields
  | list items => if items.length = names.length then some (names.zip items) else none
  | _ => none

def text? : Datum → Option String
  | text s => some s
  | _ => none

def bool? : Datum → Option Bool
  | bool b => some b
  | _ => none

/-- A count of at most 64 bits. -/
def count? : Datum → Option Nat
  | int (.ofNat n) => if n < 0x10000000000000000 then some n else none
  | _ => none

/-- A field of a record, read by `read`. -/
def field? {α : Type} (fields : List (String × Datum)) (name : String)
    (read : Datum → Option α) : Option α :=
  (fields.lookup name).bind read

def ofStrings (strings : List String) : Datum := list (strings.map text)

def ofCount (n : Nat) : Datum := int n

end Datum

end Stencil
