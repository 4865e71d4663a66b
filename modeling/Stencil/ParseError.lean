/-!
# Parse errors

Why a text is no template, and where the reading stopped.
-/

namespace Stencil

/-- Why a text cannot be read any further. -/
inductive Cause where
  /-- The text ends too early; `hint` completes the message. -/
  | endOfText (hint : String)
  /-- Something else than `description` comes next. -/
  | expected (description : String)
  /-- A path holds nothing but dots. -/
  | emptyPath
deriving DecidableEq

namespace Cause

/-- The text ends where `expected` had to follow. -/
def endBefore (expected : Option String) : Cause :=
  .endOfText (match expected with
    | some e => " (expected '" ++ e ++ "')"
    | none => "")

def message : Cause → String
  | endOfText hint => "Unexpected EOF" ++ hint
  | expected description => "Expected " ++ description
  | emptyPath => "Path has no segments"

end Cause

/-- A cause and its place: line and column count from 1, `column` and `offset` in bytes of UTF-8. -/
structure ParseError where
  line : Nat
  column : Nat
  offset : Nat
  cause : Cause
deriving DecidableEq

namespace ParseError

def message (e : ParseError) : String :=
  "Parse error at line " ++ toString e.line ++ ", column " ++ toString e.column ++ ": " ++
    e.cause.message

/-- The one further into the text, `e` if both are equally far. -/
def further (e e' : ParseError) : ParseError := if e.offset < e'.offset then e' else e

end ParseError

end Stencil
