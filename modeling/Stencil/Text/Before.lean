/-!
# Text up to a mark

`before mark cs` is the part of `cs` before the first place where `mark` begins, or all of `cs` if
there is none.
-/

namespace Stencil.Text

/-- The characters before the first place where `mark` begins. -/
def before (mark : List Char) : List Char → List Char
  | [] => []
  | c :: cs => if mark <+: c :: cs then [] else c :: before mark cs

theorem before_of_mark {mark cs : List Char} (h : mark <+: cs) : before mark cs = [] := by
  cases cs with
  | nil => rfl
  | cons c cs => simp [before, h]

theorem before_cons_of_not_mark {mark : List Char} {c : Char} {cs : List Char}
    (h : ¬ mark <+: c :: cs) : before mark (c :: cs) = c :: before mark cs := by
  simp [before, h]

theorem before_isPrefix (mark cs : List Char) : before mark cs <+: cs := by
  induction cs with
  | nil => simp [before]
  | cons c cs ih =>
    by_cases h : mark <+: c :: cs
    · simp [before_of_mark h]
    · rw [before_cons_of_not_mark h]
      exact List.cons_prefix_cons.mpr ⟨rfl, ih⟩

/-- What is left starts with the mark, or is empty. -/
theorem drop_before (mark cs : List Char) :
    mark <+: cs.drop (before mark cs).length ∨ cs.drop (before mark cs).length = [] := by
  induction cs with
  | nil => simp
  | cons c cs ih =>
    by_cases h : mark <+: c :: cs
    · simp [before_of_mark h, h]
    · simpa [before_cons_of_not_mark h] using ih

/-- The mark begins nowhere inside the part before it. -/
theorem not_mark_at_of_lt {mark cs : List Char} {n : Nat}
    (h : n < (before mark cs).length) : ¬ mark <+: cs.drop n := by
  induction cs generalizing n with
  | nil => simp [before] at h
  | cons c cs ih =>
    by_cases hp : mark <+: c :: cs
    · simp [before_of_mark hp] at h
    · rw [before_cons_of_not_mark hp, List.length_cons] at h
      cases n with
      | zero => simpa using hp
      | succ n => simpa using ih (Nat.lt_of_succ_lt_succ h)

end Stencil.Text
