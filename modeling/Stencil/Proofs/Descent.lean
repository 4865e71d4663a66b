import Stencil.Render

/-!
# Dotted blocks, one step at a time

A block at `p ++ q` prints what a block at `q` prints inside a block at `p`, as long as `p` does not
find a list (`Node.render_dotted`). Whatever stops one of the two stops the other as well: nothing
is behind what is missing or null, and a scalar that is not truthy is found again by every longer
path. A list sets them apart: the outer block goes through its items, the dotted path needs an
index. So a block is one block for each of its names where no list is on the way
(`Node.render_inSteps`).
-/

namespace Stencil

namespace Value

variable {v context : Value} {p q : List String}

theorem contexts_some (h : ∀ items, v ≠ .list items) :
    contexts (some v) = if v.truthy then [v] else [] := by
  cases v with
  | list items => exact absurd rfl (h items)
  | null | bool | number | string | map => rfl

/-- What a block without a list prints its content for is what its path finds. -/
theorem eq_some_of_mem_contexts {found : Option Value} (hl : ∀ items, found ≠ some (.list items))
    (h : v ∈ contexts found) : found = some v := by
  cases found with
  | none => cases h
  | some w =>
    rw [contexts_some fun items hw => hl items (congrArg some hw)] at h
    split at h
    · rw [List.mem_singleton.mp h]
    · cases h

/-- Where a block prints nothing, no block that goes on from there prints anything. -/
theorem contexts_resolve?_of_falsy (hv : v.truthy = false) (hq : q ≠ []) :
    contexts (v.resolve? q) = [] := by
  obtain ⟨segment, rest, rfl⟩ := List.exists_cons_of_ne_nil hq
  have hscalar : v.isScalar = true → contexts (v.resolve? (segment :: rest)) = [] := fun hs => by
    have hlist : ∀ items, v ≠ .list items := by
      rintro items rfl
      cases hs
    rw [resolve?_of_isScalar hs, contexts_some hlist, hv]
    rfl
  cases v with
  | null => rfl
  | bool | number | string => exact hscalar rfl
  | list items =>
    have hnil : items = [] := by simpa [truthy] using hv
    subst hnil
    have hchild : (list []).child? segment = none := by
      rw [child?]
      cases index? segment <;> rfl
    rw [resolve?, if_neg (by decide), hchild]
    rfl
  | map => cases hv

/-- A block over a longer path prints for the values that are reached in two steps. -/
theorem contexts_resolve?_append (hq : q ≠ [])
    (hp : ∀ items, context.resolve? p ≠ some (.list items)) :
    contexts (context.resolve? (p ++ q)) =
      (contexts (context.resolve? p)).flatMap fun v => contexts (v.resolve? q) := by
  rw [resolve?_append]
  cases hv : context.resolve? p with
  | none => rfl
  | some v =>
    have hlist : ∀ items, v ≠ .list items := fun items h => hp items (h ▸ hv)
    rw [Option.bind_some, contexts_some hlist]
    split
    · rw [List.flatMap_singleton]
    · rename_i hfalsy
      rw [List.flatMap_nil, contexts_resolve?_of_falsy (Bool.eq_false_iff.mpr hfalsy) hq]

end Value

theorem Text.join_flatMap {α : Type} (items : List α) (texts : α → List String) :
    String.join (items.flatMap texts) = String.join (items.map fun x => String.join (texts x)) := by
  induction items with
  | nil => rfl
  | cons x items ih =>
    rw [List.flatMap_cons, String.join_append, ih, List.map_cons, String.join_cons]

theorem renderAll_singleton (root context : Value) (n : Node) :
    renderAll root context [n] = n.render root context := by
  rw [renderAll, renderAll, String.append_empty]

namespace Node

variable {context : Value}

/-- A block with a dotted path prints the same as a block for the first part of the path around one
for the rest, unless the first part finds a list. -/
theorem render_dotted (root : Value) (content : List Node) (p q : Path)
    (optional outer inner : Bool)
    (h : ∀ items, context.resolve? p.segments ≠ some (.list items)) :
    (block (p ++ q) content optional).render root context =
      (block p [block q content inner] outer).render root context := by
  rw [render, render, Path.segments_append, Value.contexts_resolve?_append q.segments_ne_nil h,
    List.map_flatMap, Text.join_flatMap]
  refine congrArg String.join (List.map_congr_left fun v _ => ?_)
  rw [renderAll_singleton, render]

/-- The scalar that the first part of the path finds is what the rest of it finds. -/
theorem render_dotted_scalar :
    let name : Path := ⟨["user", "name"], by simp⟩
    let first : Path := ⟨["first"], by simp⟩
    let content : List Node := [.text "Dear ", .dot false]
    let context : Value := .map [("user", .map [("name", .string "Ann")])]
    (∀ items, context.resolve? name.segments ≠ some (.list items)) ∧
      (block (name ++ first) content false).render .null context = "Dear Ann" ∧
      (block name [block first content false] true).render .null context = "Dear Ann" := by
  intro name first content context
  have hname : ∀ items, context.resolve? name.segments ≠ some (.list items) := nofun
  have hdotted : (block (name ++ first) content false).render .null context = "Dear Ann" := by
    decide +kernel
  exact ⟨hname, hdotted,
    (render_dotted .null content name first false true false hname).symm.trans hdotted⟩

/-- The items of a list print the inner block, the list itself has nothing under the name. -/
example :
    let a : Path := ⟨["a"], by simp⟩
    let b : Path := ⟨["b"], by simp⟩
    let context : Value := .map [("a", .list [.map [("b", .bool true)]])]
    (block (a ++ b) [.text "x"] false).render .null context = "" ∧
      (block a [block b [.text "x"] false] false).render .null context = "x" := by
  decide +kernel

/-! ### One block for each name -/

/-- The nodes inside one block for each name, the first name outermost. -/
def inSteps (content : List Node) : List String → List Node
  | [] => content
  | name :: rest => [block ⟨[name], List.cons_ne_nil _ _⟩ (inSteps content rest) false]

/-- A block prints the same as a block for each name of its path, one in the other, if no list is
found on the way. -/
theorem render_inSteps (root : Value) (content : List Node) (p : Path) (optional : Bool)
    (h : ∀ q, q <+: p.segments → q ≠ [] → q ≠ p.segments →
      ∀ items, context.resolve? q ≠ some (.list items)) :
    renderAll root context (inSteps content p.segments) =
      (block p content optional).render root context := by
  obtain ⟨segments, hne⟩ := p
  induction segments generalizing context with
  | nil => exact absurd rfl hne
  | cons name rest ih =>
    by_cases hrest : rest = []
    · subst hrest
      rw [inSteps, inSteps, renderAll_singleton, render, render]
    · let first : Path := ⟨[name], List.cons_ne_nil _ _⟩
      let behind : Path := ⟨rest, hrest⟩
      have hfirst : ∀ items, context.resolve? first.segments ≠ some (.list items) :=
        h [name] (by simp) (List.cons_ne_nil _ _) (by simpa using Ne.symm hrest)
      have hdotted := render_dotted root content first behind optional false false hfirst
      have hbehind : ∀ v ∈ Value.contexts (context.resolve? first.segments),
          renderAll root v (inSteps content rest) =
            renderAll root v [block behind content false] := fun v hv => by
        have hv := Value.eq_some_of_mem_contexts hfirst hv
        have hstep : ∀ q, context.resolve? (name :: q) = v.resolve? q := fun q => by
          rw [← List.singleton_append, Value.resolve?_append, hv, Option.bind_some]
        rw [renderAll_singleton]
        refine ih hrest fun q hq _ hqne => ?_
        rw [← hstep]
        exact h (name :: q) (List.cons_prefix_cons.mpr ⟨rfl, hq⟩) (List.cons_ne_nil _ _)
          fun heq => hqne (List.cons.inj heq).2
      rw [inSteps, renderAll_singleton]
      refine Eq.trans ?_ hdotted.symm
      rw [render, render]
      exact congrArg String.join (List.map_congr_left hbehind)

end Node

end Stencil
