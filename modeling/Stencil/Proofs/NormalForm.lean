import Mathlib.Data.String.Basic
import Stencil.Proofs.Folding

/-!
# Settled fields are a normal form

Fields that hold each name once at every level are left as they are, and settling ends in such
fields: settling a second time changes nothing (`settle_normal`). The names of the root stay in the
order in which they first occur.
-/

namespace Stencil.Fields

open Outcome

variable {path : List String} {fs settled folded out : Fields} {f : Key × Shape}

/-! ### Nothing to fold -/

theorem absorb_of_notMem (h : f.1.name ∉ names settled) :
    absorb path f settled = .ok (settled ++ [f]) := by
  rcases absorb_cases path f settled with ⟨before, first, after, rfl, _, hn, _⟩ | ⟨_, heq⟩
  · exact absurd (mem_names_iff.mpr ⟨first, by simp, hn⟩) h
  · exact heq

theorem foldlM_absorb_of_nodup (h : (names (settled ++ fs)).Nodup) :
    fs.foldlM (fun settled f => absorb path f settled) settled = .ok (settled ++ fs) := by
  induction fs generalizing settled with
  | nil => exact congrArg Except.ok (List.append_nil settled).symm
  | cons f fs ih =>
    have hnew : f.1.name ∉ names settled := fun hm => by
      rw [names, List.map_append] at h
      exact (List.nodup_append.mp h).2.2 _ hm _ (List.mem_cons_self ..) rfl
    rw [List.append_cons] at h
    rw [List.foldlM_cons, absorb_of_notMem hnew]
    exact (ih h).trans (congrArg Except.ok (List.append_assoc settled [f] fs))

theorem fold_of_nodup (h : (names fs).Nodup) : fold path fs = .ok fs :=
  foldlM_absorb_of_nodup h

theorem settleLevels_of_distinct (levels : Nat) (h : (Shape.object fs).Distinct Key.name) :
    settleLevels levels path fs = .ok fs := by
  induction levels generalizing path fs with
  | zero => rfl
  | succ levels ih =>
    cases h with
    | object hnames hfields =>
      rw [← names_eq] at hnames
      refine settleLevels_succ_eq_ok.mpr ⟨fs, fold_of_nodup hnames, List.forall₂_same.mpr ?_⟩
      rintro ⟨key, shape⟩ hf
      cases shape with
      | leaf l => exact .leaf key l
      | object inner => exact .object (ih (hfields _ hf))

theorem settle_of_distinct (h : (Shape.object fs).Distinct Key.name) : fs.settle = .ok fs :=
  settleLevels_of_distinct _ h

/-! ### The names of the root -/

theorem names_fold (h : fold path fs = .ok folded) : names folded = (names fs).eraseDups := by
  refine foldlM_invariant (motive := fun seen settled => names settled = (names seen).eraseDups)
    h rfl fun seen f settled out hs _ ha => ?_
  have hseen : names (seen ++ [f]) = names seen ++ [f.1.name] := List.map_append
  rw [names_absorb ha, hs, hseen, eraseDups_append_singleton]

theorem names_settle (h : fs.settle = .ok out) : names out = (names fs).eraseDups := by
  obtain ⟨folded, hfold, hout⟩ := settleLevels_succ_eq_ok.mp h
  rw [names_of_settledAs hout, names_fold hfold]

/-- Settling changes nothing exactly where no object has two keys of one name, and reaches such
fields whenever it succeeds, with the names of the root in order of their first occurrence. -/
theorem settle_normal (fs : Fields) :
    (fs.settle = .ok fs ↔ (Shape.object fs).Distinct Key.name) ∧
      ∀ out, fs.settle = .ok out →
        (Shape.object out).Distinct Key.name ∧ names out = (names fs).eraseDups ∧
          out.settle = .ok out :=
  ⟨⟨distinct_settle, settle_of_distinct⟩, fun _ h =>
    have hd := distinct_settle h
    ⟨hd, names_settle h, settle_of_distinct hd⟩⟩

/-- The keys for `a` come together only once those for `user` are one. -/
theorem settle_normal_user :
    let age : Shape := .leaf (.oneOf ⟨["number"], by simp, by simp⟩)
    let fs : Fields :=
      [({ name := "user", optional := true }, .object [({ name := "a", optional := true }, age)]),
        ({ name := "id" }, .leaf .any), ({ name := "user" }, .object [({ name := "a" }, age)])]
    let out : Fields := [({ name := "user" }, .object [({ name := "a" }, age)]),
      ({ name := "id" }, .leaf .any)]
    fs.settle = .ok out ∧ (Shape.object out).Distinct Key.name ∧
      names out = (names fs).eraseDups ∧ out.settle = .ok out := by
  intro age fs out
  have h : fs.settle = .ok out := by rfl
  exact ⟨h, (settle_normal fs).2 out h⟩

end Stencil.Fields
