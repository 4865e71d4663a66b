import Stencil.Cursor
import Stencil.Traced

/-!
# Parsers

A parser reads from a cursor and leaves every error that it raises on its trail, also those of an
alternative that is given up for another one. All movement is by `Cursor.skip`.
-/

namespace Stencil

/-- Reads from a cursor. The trail holds the errors raised on the way, in order. -/
abbrev Parser := StateT Cursor (Traced ParseError ParseError)

namespace Parser

variable {α : Type}

/-- Stops with an error at the present place. -/
def raise (cause : Cause) : Parser α := fun c =>
  ⟨[c.error cause], .error (c.error cause)⟩

/-- Moves over the beginning of the text that `select` picks. -/
def read (select : List Char → List Char) : Parser (List Char) := fun c =>
  pure (select c.rest, c.skip (select c.rest).length)

/-- Moves over `mark` if it comes next. -/
def accept (mark : List Char) : Parser Bool := fun c =>
  if mark <+: c.rest then pure (true, c.skip mark.length) else pure (false, c)

/-- Why `mark` does not come next in `rest`; a little of what does come is shown. -/
def missing (mark rest : List Char) : Cause :=
  if rest = [] then .endBefore (some (String.ofList mark))
  else .expected ("'" ++ String.ofList mark ++ "', found '" ++
    String.ofList (rest.take (mark.length + 10)) ++ "'")

/-- Moves over `mark`, which has to come next. -/
def expect (mark : List Char) : Parser Unit := fun c =>
  if mark <+: c.rest then pure ((), c.skip mark.length) else raise (missing mark c.rest) c

/-- Tries parsers in order from the same place. If all of them fail, the error furthest into the
text is kept, the first of several that are equally far; `furthest` is the one so far. -/
def firstOf (furthest : ParseError) : List (Parser α) → Parser α
  | [] => fun _ => .fail furthest
  | p :: ps => fun c => (p c).handle fun e => firstOf (furthest.further e) ps c

end Parser

end Stencil
