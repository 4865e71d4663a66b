import Stencil.Proofs.Folding
import Stencil.Proofs.Fragments

/-!
# Asking twice

What is asked for already is absorbed: merging it in once more neither fails nor moves a field, at
any depth (`Shape.merge_of_below`). Behind a node, whatever stands between, its requirements are
among those gathered so far. So the second copy of a node among its siblings adds nothing, and
inference without it has the same outcome, the conflict included (`infer_repeated`).
-/

namespace Stencil

open Outcome Requirements

theorem Entries.put_of_lookup {κ ν : Type} [DecidableEq κ] {k : κ} {v : ν} {entries : List (κ × ν)}
    (h : entries.lookup k = some v) : put k v entries = entries := by
  obtain ⟨before, after, rfl, hput⟩ := exists_put_eq h
  exact hput v

/-! ### Merging what is below -/

namespace Shape

open Fields

theorem mergeInto_of_below {rest : List (Key × Shape)} {into : Fields}
    (ih : ∀ f ∈ rest, ∀ path (p : Shape), f.2.UniqueKeys → f.2.Below p →
      p.merge path f.2 = .ok p) (path : List String) (hr : ∀ f ∈ rest, f.2.UniqueKeys)
    (hi : ∀ f ∈ rest, ∃ p, into.get? f.1 = some p ∧ f.2.Below p) :
    mergeInto path into rest = .ok into := by
  induction rest with
  | nil => rfl
  | cons f rest ihr =>
    obtain ⟨p, hp, hfp⟩ := hi f (List.mem_cons_self ..)
    have hmerge : p.merge (path ++ [f.1.toString]) f.2 = .ok p :=
      ih f (List.mem_cons_self ..) _ p (hr f (List.mem_cons_self ..)) hfp
    refine mergeInto_cons_eq_ok.mpr ⟨p, .inl ⟨p, hp, hmerge⟩, ?_⟩
    rw [show into.set f.1 p = into from Entries.put_of_lookup hp]
    exact ihr (fun g hg => ih g (List.mem_cons_of_mem _ hg))
      (fun g hg => hr g (List.mem_cons_of_mem _ hg)) fun g hg => hi g (List.mem_cons_of_mem _ hg)

/-- Merging in what is below changes nothing, the order of fields included. -/
theorem merge_of_below {s t : Shape} (path : List String) (ht : t.UniqueKeys) (h : t.Below s) :
    s.merge path t = .ok s := by
  induction t using fieldsInduction generalizing s path with
  | leaf l =>
    cases h with
    | any => exact merge_any path s
    | oneOf types => rw [merge, if_pos rfl]
  | object gs ih =>
    have hg : Fields.UniqueKeys gs := ht
    cases h with
    | object keys fields =>
      exact merge_object_eq_ok.mpr ⟨_, mergeInto_of_below
        (fun f hf path p hf' hp => ih f hf path hf' hp) path (fun f hf => hg.of_mem hf)
        fun f hf => below_object_iff.mp (.object keys fields) f.1 f.2 (hg.get?_of_mem hf), rfl⟩

end Shape

theorem Fields.merge_of_below {fs gs : Fields} (hg : gs.UniqueKeys) (h : gs.Below fs) :
    fs.merge gs = .ok fs :=
  merge_eq_ok.mpr (Shape.merge_of_below [] hg h)

section
variable {r q : Requirements} {n m : Node} {ns ms content content' : List Node}

theorem Requirements.Adds.of_below (hq : q.UniqueKeys) (h : q.Below r) : r.Adds q r where
  here := Fields.merge_of_below hq.here h.here
  root := Fields.merge_of_below hq.root h.root
  dot := by cases hd : q.dot <;> simp [h.dot, hd]

/-- A node whose requirements are all there already adds nothing. -/
theorem require_of_below (hq : n.fragment = .ok q) (h : q.Below r) : (n.require r).result = .ok r :=
  require_eq_ok.mpr ⟨q, hq, .of_below (uniqueKeys_fragment hq) h⟩

/-! ### Runs in parts -/

theorem requireAll_append (r : Requirements) (ns ms : List Node) :
    (requireAll r (ns ++ ms)).result =
      (requireAll r ns).result >>= fun u => (requireAll u ms).result := by
  induction ns generalizing r with
  | nil => rfl
  | cons n ns ih =>
    simp only [List.cons_append, requireAll, Traced.result_bind, bind_assoc]
    exact bind_congr fun u => ih u

theorem requireAll_congr (before after : List Node)
    (h : ∀ u, (n.require u).result = (m.require u).result) (r : Requirements) :
    (requireAll r (before ++ n :: after)).result =
      (requireAll r (before ++ m :: after)).result := by
  rw [requireAll_append, requireAll_append]
  refine bind_congr fun u => ?_
  rw [requireAll, requireAll, Traced.result_bind, Traced.result_bind, h]

theorem require_block_congr {name : Path} {optional : Bool}
    (h : (requireAll {} content).result = (requireAll {} content').result) (r : Requirements) :
    ((Node.block name content optional).require r).result =
      ((Node.block name content' optional).require r).result := by
  rw [Node.require, Node.require, Traced.result_bind, Traced.result_bind, h]

/-- Behind a copy of itself a node adds nothing. -/
theorem requireAll_again (hr : r.UniqueKeys) (before between after : List Node) (n : Node) :
    (requireAll r (before ++ n :: between ++ n :: after)).result =
      (requireAll r (before ++ n :: between ++ after)).result := by
  rw [requireAll_append r (before ++ n :: between), requireAll_append r (before ++ n :: between)]
  cases hu : (requireAll r (before ++ n :: between)).result with
  | error c => rfl
  | ok u =>
    -- all that the first copy asks for is among what the run has gathered
    obtain ⟨q, hq, hqu⟩ := (bounds_of_requireAll hr hu).2.2 n (by simp)
    show (requireAll u (n :: after)).result = (requireAll u after).result
    rw [requireAll, Traced.result_bind, require_of_below hq hqu]
    rfl

end

/-! ### Copies at any depth -/

/-- The same nodes but for one that has a copy of itself in front of it, among its siblings. -/
inductive Repeated : List Node → List Node → Prop
  | again (before between after : List Node) (n : Node) :
      Repeated (before ++ n :: between ++ n :: after) (before ++ n :: between ++ after)
  | block (before after : List Node) (name : Path) (optional : Bool) {content content' : List Node}
      (h : Repeated content content') :
      Repeated (before ++ .block name content optional :: after)
        (before ++ .block name content' optional :: after)
  | inverted (before after : List Node) (name : Path) {content content' : List Node}
      (h : Repeated content content') :
      Repeated (before ++ .inverted name content :: after)
        (before ++ .inverted name content' :: after)

variable {ns ms : List Node}

theorem Repeated.requireAll_eq (h : Repeated ns ms) {r : Requirements} (hr : r.UniqueKeys) :
    (requireAll r ns).result = (requireAll r ms).result := by
  induction h generalizing r with
  | again before between after n => exact requireAll_again hr before between after n
  | block before after name optional _ ih =>
    exact requireAll_congr before after (fun _ => require_block_congr (ih .empty) _) r
  | inverted before after name _ _ =>
    exact requireAll_congr before after (fun _ => by rw [Node.require, Node.require]) r

/-- Without the second copy of a node, inference has the same outcome: the same fields in the same
order, or the same conflict. -/
theorem infer_repeated (h : Repeated ns ms) : (infer ns).result = (infer ms).result := by
  rw [infer_eq, infer_eq, collect, collect, h.requireAll_eq .empty]

/-- Inside a block, a list of tags is repeated behind a tag that makes its items objects. -/
theorem infer_repeated_tags :
    let tags (content : List Node) : Node := .block ⟨["tags"], by simp⟩ content true
    let lang : Node := .var ⟨["lang"], by simp⟩ false (some ⟨["string"], true⟩) .root
    let list := tags [.dot false, .var ⟨["name"], by simp⟩ false none .context, lang]
    let title : Node := .var ⟨["title"], by simp⟩ true none .context
    let site : Path := ⟨["site", "page"], by simp⟩
    let around (content : List Node) : List Node := [.block site content false]
    let twice := around [title, list, tags [title], list, .text "."]
    let once := around [title, list, tags [title], .text "."]
    let any (name : String) : Key × Shape := ({ name }, .leaf .any)
    let page : Fields := [any "title",
      ({ name := "tags", optional := true, array := true }, .object [any "name", any "title"])]
    let fs : Fields := [({ name := "site" }, .object [({ name := "page" }, .object page)]),
      ({ name := "lang", optional := true }, .leaf (.of ["string"]))]
    Repeated twice once ∧ (infer once).result = .ok fs ∧ (infer twice).result = .ok fs := by
  intro tags lang list title site around twice once any page fs
  have h : Repeated twice once :=
    .block [] [] _ _ (.again [title] [tags [title]] [.text "."] list)
  have honce : (infer once).result = .ok fs := by decide +kernel
  exact ⟨h, honce, (infer_repeated h).trans honce⟩

end Stencil
