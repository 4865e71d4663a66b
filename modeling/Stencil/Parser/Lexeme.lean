import Stencil.Parser
import Stencil.Path

/-!
# The small parts of tags

Blanks, words and paths. The characters of words are ASCII letters, digits and the underscore.
-/

namespace Stencil.Parser

/-- What may stand between the parts of a tag: space, tab, line feed, form feed, return. -/
def isBlank (c : Char) : Bool :=
  c == ' ' || c == '\t' || c == '\n' || c == '\x0c' || c == '\r'

def isWordChar (c : Char) : Bool := c.isAlphanum || c == '_'

def isPathChar (c : Char) : Bool := isWordChar c || c == '.'

def blanks : Parser Unit := do
  let _ ← read (List.takeWhile isBlank)

/-- Blanks, then a path. -/
def path : Parser Path := do
  blanks
  let raw ← read (List.takeWhile isPathChar)
  if raw = [] then raise (.expected "path")
  else
    match Path.ofSegments? (Path.segmentsOf raw) with
    | some p => pure p
    | none => raise .emptyPath

/-- `word (| word)*`, at most `bound` words, without repeats. `seen` holds the words before. -/
def typeNames : (bound : Nat) → (seen : List String) → Parser (List String)
  | 0, _ => raise (.expected "type name")
  | bound + 1, seen => do
    blanks
    let word ← read (List.takeWhile isWordChar)
    if word = [] then raise (.expected "type name")
    else
      let name := String.ofList word
      let seen := if name ∈ seen then seen else seen ++ [name]
      blanks
      if ← accept ['|'] then typeNames bound seen else pure seen

/-- The type names after a colon; the text left bounds their number. -/
def alternatives : Parser (List String) := fun c => typeNames (c.rest.length + 1) [] c

end Stencil.Parser
