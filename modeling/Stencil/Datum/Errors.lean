import Stencil.Datum
import Stencil.Template

/-!
# Errors as interchange data

Each kind of error is tagged with its name.
-/

namespace Stencil

open Datum (field?)

namespace Cause

def tag : Cause → String
  | endOfText _ => "UnexpectedEOF"
  | expected _ => "Expected"
  | emptyPath => "EmptyPath"

def toDatum (c : Cause) : Datum :=
  match c with
  | endOfText hint => .record [(c.tag, .record [("expected_what", .text hint)])]
  | expected description => .record [(c.tag, .record [("description", .text description)])]
  | emptyPath => .text c.tag

def ofDatum? (d : Datum) : Option Cause :=
  match d.tagged? with
  | some ("UnexpectedEOF", some (.record fields)) =>
    (field? fields "expected_what" Datum.text?).map endOfText
  | some ("Expected", some (.record fields)) =>
    (field? fields "description" Datum.text?).map expected
  | some ("EmptyPath", none) | some ("EmptyPath", some .null) => some emptyPath
  | _ => none

end Cause

namespace ParseError

def toDatum (e : ParseError) : Datum :=
  .record [("line", .ofCount e.line), ("column", .ofCount e.column), ("offset", .ofCount e.offset),
    ("kind", e.cause.toDatum)]

def ofDatum? (d : Datum) : Option ParseError := do
  let fields ← d.fields? ["line", "column", "offset", "kind"]
  let line ← field? fields "line" Datum.count?
  let column ← field? fields "column" Datum.count?
  let offset ← field? fields "offset" Datum.count?
  let cause ← field? fields "kind" Cause.ofDatum?
  some ⟨line, column, offset, cause⟩

end ParseError

namespace Conflict

def tag : Conflict → String
  | scalar .. => "Scalar"
  | shape .. => "Shape"
  | indexName .. => "NonKey"

def toDatum (c : Conflict) : Datum :=
  .record [(c.tag, .record (("path", .text c.path) ::
    match c with
    | scalar _ left right | shape _ left right => [("left", .text left), ("right", .text right)]
    | indexName _ segment => [("segment", .text segment)]))]

/-- The names on a path that is given as one text. -/
def namesOf (path : String) : List String := (path.toList.splitOn '.').map String.ofList

def ofDatum? (d : Datum) : Option Conflict :=
  match d.tagged? with
  | some (tag, some (.record fields)) => do
    let names ← (field? fields "path" Datum.text?).map namesOf
    let left := field? fields "left" Datum.text?
    let right := field? fields "right" Datum.text?
    match tag with
    | "Scalar" => some (.scalar names (← left) (← right))
    | "Shape" => some (.shape names (← left) (← right))
    | "NonKey" => some (.indexName names (← field? fields "segment" Datum.text?))
    | _ => none
  | _ => none

end Conflict

namespace Failure

def tag : Failure → String
  | parse error => error.cause.tag
  | conflict c => c.tag

def toDatum : Failure → Datum
  | parse error => .record [("Parse", error.toDatum)]
  | conflict c => .record [("Conflict", c.toDatum)]

def ofDatum? (d : Datum) : Option Failure :=
  match d.tagged? with
  | some ("Parse", some content) => (ParseError.ofDatum? content).map parse
  | some ("Conflict", some content) => (Conflict.ofDatum? content).map conflict
  | _ => none

end Failure

end Stencil
