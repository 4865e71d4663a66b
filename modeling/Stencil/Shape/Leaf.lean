/-!
# Leaves

A leaf of a shape allows values of some named types: of any type, or of a set of them. A set is kept
as its names in ascending order, so equal sets are equal values.
-/

namespace Stencil

/-- A set of type names that is not empty. -/
structure NameSet where
  names : List String
  ascending : names.Pairwise (· < ·)
  names_ne_nil : names ≠ []

namespace NameSet

theorem ext_names {a b : NameSet} (h : a.names = b.names) : a = b := by
  cases a; cases b; cases h; rfl

instance : DecidableEq NameSet := fun a b =>
  decidable_of_iff (a.names = b.names) ⟨ext_names, congrArg names⟩

/-- Puts a name in its place among ascending ones. -/
def insertName (name : String) : List String → List String
  | [] => [name]
  | n :: ns =>
    if name = n then n :: ns
    else if name < n then name :: n :: ns
    else n :: insertName name ns

def sortNames (names : List String) : List String := names.foldr insertName []

theorem mem_insertName {m name : String} {ns : List String} :
    m ∈ insertName name ns ↔ m = name ∨ m ∈ ns := by
  induction ns with
  | nil => simp [insertName]
  | cons n ns ih => unfold insertName; grind

theorem ascending_insertName {name : String} {ns : List String} (h : ns.Pairwise (· < ·)) :
    (insertName name ns).Pairwise (· < ·) := by
  induction ns with
  | nil => simp [insertName]
  | cons n ns ih =>
    obtain ⟨hn, hns⟩ := List.pairwise_cons.mp h
    unfold insertName
    split
    · exact h
    · rename_i hne
      split
      · rename_i hlt
        refine List.pairwise_cons.mpr ⟨fun m hm => ?_, h⟩
        rcases List.mem_cons.mp hm with rfl | hm
        · exact hlt
        · exact String.lt_trans hlt (hn m hm)
      · rename_i hlt
        refine List.pairwise_cons.mpr ⟨fun m hm => ?_, ih hns⟩
        rcases mem_insertName.mp hm with rfl | hm
        · have hle : n ≤ m := String.not_lt.mp hlt
          exact Decidable.byContradiction fun h' =>
            hne (String.le_antisymm (String.not_lt.mp h') hle)
        · exact hn m hm

theorem mem_sortNames {m : String} {names : List String} : m ∈ sortNames names ↔ m ∈ names := by
  induction names with
  | nil => simp [sortNames]
  | cons n ns ih =>
    rw [show sortNames (n :: ns) = insertName n (sortNames ns) from rfl, mem_insertName, ih,
      List.mem_cons]

theorem ascending_sortNames (names : List String) : (sortNames names).Pairwise (· < ·) := by
  induction names with
  | nil => simp [sortNames]
  | cons n ns ih => exact ascending_insertName ih

end NameSet

inductive Leaf where
  /-- No type is asked for. -/
  | any
  | oneOf (types : NameSet)
deriving DecidableEq

namespace Leaf

/-- The leaf that asks for one of `names`, or for nothing if there are none. -/
def of (names : List String) : Leaf :=
  if h : NameSet.sortNames names ≠ [] then
    oneOf ⟨NameSet.sortNames names, NameSet.ascending_sortNames names, h⟩
  else any

/-- What a value has to be that is only tested. -/
def boolean : Leaf := of ["boolean"]

/-- The types that the leaf allows; an open leaf allows every scalar. -/
def names : Leaf → List String
  | any => ["string", "boolean", "number"]
  | oneOf types => types.names

protected def toString (l : Leaf) : String := " | ".intercalate l.names

def isAny (l : Leaf) : Bool := l = any

def isBoolean (l : Leaf) : Bool := l = boolean

theorem of_eq_any_iff {names : List String} : of names = any ↔ names = [] := by
  unfold of
  split
  · rename_i h
    refine ⟨nofun, fun h' => ?_⟩
    subst h'
    exact absurd rfl h
  · rename_i h
    simp only [ne_eq, Decidable.not_not] at h
    refine ⟨fun _ => List.eq_nil_iff_forall_not_mem.mpr fun n hn => ?_, fun _ => rfl⟩
    rw [← NameSet.mem_sortNames, h] at hn
    exact absurd hn List.not_mem_nil

end Leaf

end Stencil
