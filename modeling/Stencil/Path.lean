/-!
# Paths

A path is a place in the data, written with dots between its segments: `user.address.city`. It has
at least one segment. Dots that separate nothing are ignored when a path is read.
-/

namespace Stencil

/-- A place in the data: one step for each segment. -/
structure Path where
  segments : List String
  segments_ne_nil : segments ≠ []
deriving DecidableEq

namespace Path

/-- The segments written in `raw`: the runs between dots, without the empty ones. -/
def segmentsOf (raw : List Char) : List String :=
  ((raw.splitOn '.').filter fun piece => !piece.isEmpty).map String.ofList

def ofSegments? (segments : List String) : Option Path :=
  if h : segments ≠ [] then some ⟨segments, h⟩ else none

/-- Reads a path; there is none in a text that holds nothing but dots. -/
def parse? (raw : String) : Option Path := ofSegments? (segmentsOf raw.toList)

/-- The text of a chain of names: dots between them. -/
def join (names : List String) : String := ".".intercalate names

protected def toString (p : Path) : String := join p.segments

instance : ToString Path := ⟨Path.toString⟩

/-- First along `p`, then along `q`. -/
protected def append (p q : Path) : Path :=
  ⟨p.segments ++ q.segments, by simp [p.segments_ne_nil]⟩

instance : Append Path := ⟨Path.append⟩

@[simp] theorem segments_append (p q : Path) :
    (p ++ q).segments = p.segments ++ q.segments := rfl

theorem ext_segments {p q : Path} (h : p.segments = q.segments) : p = q := by
  cases p; cases q; simp_all

theorem ofSegments?_eq_some_iff {segments : List String} {p : Path} :
    ofSegments? segments = some p ↔ p.segments = segments := by
  unfold ofSegments?
  split
  · constructor
    · rintro ⟨⟩; rfl
    · rintro rfl; rfl
  · rename_i h
    simp only [ne_eq, Decidable.not_not] at h
    constructor
    · intro h'; cases h'
    · intro h'; exact absurd (h'.trans h) p.segments_ne_nil

end Path

end Stencil
