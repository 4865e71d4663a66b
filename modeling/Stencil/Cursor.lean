import Stencil.ParseError

/-!
# Cursors

A cursor is a place in a text: what is left to read, and the position of what was read. It moves
forward over characters only, so the position always tells how many bytes and lines lie behind it.
-/

namespace Stencil

/-- Bytes of UTF-8 and lines up to a place in a text. -/
structure Position where
  offset : Nat := 0
  line : Nat := 1
  /-- Offset of the first byte of the line. -/
  lineStart : Nat := 0
deriving DecidableEq

namespace Position

def next (p : Position) (c : Char) : Position :=
  let offset := p.offset + c.utf8Size
  if c = '\n' then ⟨offset, p.line + 1, offset⟩ else { p with offset }

def advance (p : Position) (cs : List Char) : Position := cs.foldl next p

def column (p : Position) : Nat := p.offset - p.lineStart + 1

@[simp] theorem advance_nil (p : Position) : p.advance [] = p := rfl

@[simp] theorem advance_cons (p : Position) (c : Char) (cs : List Char) :
    p.advance (c :: cs) = (p.next c).advance cs := rfl

theorem advance_append (p : Position) (cs ds : List Char) :
    p.advance (cs ++ ds) = (p.advance cs).advance ds := by
  simp [advance]

theorem offset_next (p : Position) (c : Char) : (p.next c).offset = p.offset + c.utf8Size := by
  unfold next
  split <;> rfl

theorem offset_advance (p : Position) (cs : List Char) :
    (p.advance cs).offset = p.offset + (String.ofList cs).utf8ByteSize := by
  induction cs generalizing p with
  | nil => simp
  | cons c cs ih =>
    rw [advance_cons, ih, offset_next, String.ofList_cons, String.utf8ByteSize_append,
      String.utf8ByteSize_singleton, Nat.add_assoc]

end Position

/-- A place in a text, given by the text left. -/
structure Cursor where
  rest : List Char
  position : Position := {}

namespace Cursor

def start (s : String) : Cursor := ⟨s.toList, {}⟩

/-- Moves over the next `n` characters. -/
def skip (c : Cursor) (n : Nat) : Cursor :=
  ⟨c.rest.drop n, c.position.advance (c.rest.take n)⟩

def error (c : Cursor) (cause : Cause) : ParseError :=
  ⟨c.position.line, c.position.column, c.position.offset, cause⟩

@[simp] theorem skip_zero (c : Cursor) : c.skip 0 = c := by simp [skip]

@[simp] theorem rest_skip (c : Cursor) (n : Nat) : (c.skip n).rest = c.rest.drop n := rfl

theorem skip_skip (c : Cursor) (n m : Nat) : (c.skip n).skip m = c.skip (n + m) := by
  simp only [skip, List.drop_drop, Cursor.mk.injEq, true_and]
  rw [← Position.advance_append, List.take_add]

end Cursor

end Stencil
