import Stencil.Proofs.Folding

/-!
# The clash that a merge reports

Two objects clash at a chain of keys that leads through both, if no shape is above the two shapes at
its end: leaves with different types, or an object and a leaf with types. A merge that fails reports
the first clash, in depth-first order of the fields that are merged into the others, with the shapes
as they were before the merge; without a clash it succeeds (`Fields.merge_first_clash`).
-/

namespace Stencil

namespace Shape

/-- The shape at the end of a chain of keys. -/
def follow : Shape → List Key → Option Shape
  | s, [] => some s
  | leaf _, _ :: _ => none
  | object fs, key :: chain => (Fields.get? fs key).bind fun s => s.follow chain

mutual

/-- The chains of keys that lead to a shape and into it, in depth-first order. -/
def chains : Shape → List (List Key)
  | leaf _ => [[]]
  | object fs => [] :: chainsList fs

def chainsList : List (Key × Shape) → List (List Key)
  | [] => []
  | (key, s) :: fs => s.chains.map (key :: ·) ++ chainsList fs

end

/-- No data serves both shapes, and the conflict at the place `names` describes the two. -/
inductive Incompatible (names : List String) : Shape → Shape → Conflict → Prop
  | types {a b : NameSet} (h : a ≠ b) : Incompatible names (.leaf (.oneOf a)) (.leaf (.oneOf b))
      (.scalar names (Leaf.oneOf a).toString (Leaf.oneOf b).toString)
  | objectLeaf (fs : Fields) (b : NameSet) : Incompatible names (.object fs) (.leaf (.oneOf b))
      (.shape names (object fs).describe (leaf (.oneOf b)).describe)
  | leafObject (a : NameSet) (gs : Fields) : Incompatible names (.leaf (.oneOf a)) (.object gs)
      (.shape names (leaf (.oneOf a)).describe (object gs).describe)

/-- The chain leads through both shapes, which lie at `path`, to two that clash. -/
def ClashAt (path : List String) (s t : Shape) (chain : List Key) (c : Conflict) : Prop :=
  ∃ u v, s.follow chain = some u ∧ t.follow chain = some v ∧
    Incompatible (path ++ chain.map Key.toString) u v c

end Shape

namespace Fields

/-- The chains of keys into the fields, in depth-first order. -/
def chains (fs : Fields) : List (List Key) := Shape.chainsList fs

/-- The chain leads through both, from the outermost fields inward, to two shapes that clash. -/
def ClashAt (l r : Fields) (chain : List Key) (c : Conflict) : Prop :=
  (Shape.object l).ClashAt [] (.object r) chain c

/-- No chain of `r` that comes before this one leads to a clash. -/
structure FirstClash (l r : Fields) (chain : List Key) (c : Conflict) : Prop where
  clash : l.ClashAt r chain c
  first : ∃ before after, r.chains = before ++ chain :: after ∧
    ∀ other ∈ before, ∀ c', ¬ l.ClashAt r other c'

end Fields

/-! ### The first of several places -/

/-- The result is the failure at the first of the chains where there is one, if there is one. -/
def FailsFirst {α : Type} (fails : List Key → Conflict → Prop) (chains : List (List Key)) :
    Except Conflict α → Prop
  | .ok _ => ∀ chain ∈ chains, ∀ c, ¬ fails chain c
  | .error c => ∃ before chain after, chains = before ++ chain :: after ∧ fails chain c ∧
      ∀ other ∈ before, ∀ c', ¬ fails other c'

namespace FailsFirst

variable {α β : Type} {fails fails' : List Key → Conflict → Prop}
variable {chains others : List (List Key)} {chain : List Key} {x : Except Conflict α}

theorem congr (h : FailsFirst fails chains x)
    (heq : ∀ chain ∈ chains, ∀ c, fails chain c ↔ fails' chain c) :
    FailsFirst fails' chains x := by
  cases x with
  | ok a => exact fun chain hchain c hc => h chain hchain c ((heq chain hchain c).mpr hc)
  | error c =>
    obtain ⟨before, chain, after, rfl, hc, hbefore⟩ := h
    refine ⟨before, chain, after, rfl, (heq chain (by simp) c).mp hc, fun other ho c' hc' => ?_⟩
    exact hbefore other ho c' ((heq other (by simp [ho]) c').mpr hc')

theorem bind {f : α → Except Conflict β} (h : FailsFirst fails chains x)
    (hf : ∀ a, x = .ok a → FailsFirst fails others (f a)) :
    FailsFirst fails (chains ++ others) (x >>= f) := by
  cases x with
  | error c =>
    obtain ⟨before, chain, after, rfl, hc, hbefore⟩ := h
    exact ⟨before, chain, after ++ others, by simp, hc, hbefore⟩
  | ok a =>
    show FailsFirst fails (chains ++ others) (f a)
    have hfa := hf a rfl
    generalize f a = y at hfa ⊢
    cases y with
    | ok b => exact List.forall_mem_append.mpr ⟨h, hfa⟩
    | error c =>
      obtain ⟨before, chain, after, rfl, hc, hbefore⟩ := hfa
      exact ⟨chains ++ before, chain, after, by simp, hc, List.forall_mem_append.mpr ⟨h, hbefore⟩⟩

theorem map (key : Key) (h : FailsFirst (fun chain => fails (key :: chain)) chains x) :
    FailsFirst fails (chains.map (key :: ·)) x := by
  cases x with
  | ok a => exact List.forall_mem_map.mpr h
  | error c =>
    obtain ⟨before, chain, after, rfl, hc, hbefore⟩ := h
    exact ⟨before.map (key :: ·), key :: chain, after.map (key :: ·), by simp, hc,
      List.forall_mem_map.mpr hbefore⟩

theorem head {c : Conflict} (h : fails chain c) :
    FailsFirst fails (chain :: chains) (.error c : Except Conflict α) :=
  ⟨[], chain, chains, rfl, h, nofun⟩

end FailsFirst

/-! ### Clashes of shapes and of their fields -/

namespace Shape

open Fields

variable {path : List String} {s t u : Shape} {fs gs : Fields} {key : Key} {chain : List Key}
variable {c c' : Conflict} {names : List String}

theorem clashAt_nil_iff : ClashAt path s t [] c ↔ Incompatible path s t c := by
  simp [ClashAt, follow]

theorem clashAt_cons_iff : ClashAt path (.object fs) (.object gs) (key :: chain) c ↔
    ∃ u v, fs.get? key = some u ∧ gs.get? key = some v ∧
      ClashAt (path ++ [key.toString]) u v chain c := by
  simp only [ClashAt, follow, Option.bind_eq_some_iff, List.map_cons, List.append_assoc,
    List.singleton_append]
  constructor
  · rintro ⟨u, v, ⟨p, hp, hu⟩, ⟨q, hq, hv⟩, h⟩
    exact ⟨p, q, hp, hq, u, v, hu, hv, h⟩
  · rintro ⟨p, q, hp, hq, u, v, hu, hv, h⟩
    exact ⟨u, v, ⟨p, hp, hu⟩, ⟨q, hq, hv⟩, h⟩

theorem not_clashAt_any_left : ¬ ClashAt path (.leaf .any) t chain c := by
  rintro ⟨u, v, hu, -, h⟩
  cases chain with
  | nil => cases hu; cases h
  | cons key chain => cases hu

theorem not_clashAt_any_right : ¬ ClashAt path s (.leaf .any) chain c := by
  rintro ⟨u, v, -, hv, h⟩
  cases chain with
  | nil => cases hv; cases h
  | cons key chain => cases hv

theorem Incompatible.unique (h : Incompatible names s t c)
    (h' : Incompatible names s t c') : c = c' := by
  cases h <;> cases h' <;> rfl

theorem ClashAt.unique (h : ClashAt path s t chain c) (h' : ClashAt path s t chain c') :
    c = c' := by
  obtain ⟨u, v, hu, hv, h⟩ := h
  obtain ⟨u', v', hu', hv', h'⟩ := h'
  cases hu.symm.trans hu'
  cases hv.symm.trans hv'
  exact h.unique h'

theorem Incompatible.names_eq (h : Incompatible names s t c) : c.names = names := by cases h <;> rfl

theorem mem_keys_of_mem_chainsList {fs : List (Key × Shape)} (h : chain ∈ chainsList fs) :
    ∃ key rest, chain = key :: rest ∧ key ∈ fs.map Prod.fst := by
  induction fs with
  | nil => cases h
  | cons f fs ih =>
    rcases List.mem_append.mp h with h | h
    · obtain ⟨rest, -, rfl⟩ := List.mem_map.mp h
      exact ⟨f.1, rest, rfl, List.mem_cons_self ..⟩
    · obtain ⟨key, rest, rfl, hk⟩ := ih h
      exact ⟨key, rest, rfl, List.mem_cons_of_mem _ hk⟩

/-- All chains that lead through a shape are among its chains. -/
theorem mem_chains (h : t.follow chain = some u) : chain ∈ t.chains := by
  induction t using fieldsInduction generalizing chain with
  | leaf l =>
    cases chain with
    | nil => exact List.mem_singleton.mpr rfl
    | cons key chain => cases h
  | object fs ih =>
    cases chain with
    | nil => exact List.mem_cons_self ..
    | cons key chain =>
      obtain ⟨s, hs, h⟩ := Option.bind_eq_some_iff.mp h
      have hmem := ih (key, s) (mem_of_get? hs) h
      obtain ⟨before, after, hfs⟩ := List.append_of_mem (mem_of_get? hs)
      have hlist : ∀ before : Fields, key :: chain ∈ chainsList (before ++ (key, s) :: after) := by
        intro before
        induction before with
        | nil => exact List.mem_append_left _ (List.mem_map_of_mem hmem)
        | cons f before ih => exact List.mem_append_right _ ih
      exact List.mem_cons_of_mem _ (hfs ▸ hlist before)

/-! ### What a merge reports -/

/-- The fields are merged in order, and those merged so far have other keys than those to come: a
clash is one of the shapes that were there from the start. -/
theorem failsFirst_mergeInto {rest : List (Key × Shape)} {into : Fields}
    (ih : ∀ f ∈ rest, ∀ path (p : Shape), FailsFirst (ClashAt path p f.2) f.2.chains
      (p.merge path f.2)) (hr : (rest.map Prod.fst).Nodup) :
    FailsFirst (ClashAt path (.object into) (.object rest)) (chainsList rest)
      (mergeInto path into rest) := by
  induction rest generalizing into with
  | nil => exact nofun
  | cons f rest ihr =>
    obtain ⟨key, shape⟩ := f
    obtain ⟨hf, hrest⟩ := List.forall_mem_cons.mp ih
    obtain ⟨hnew, hr⟩ := List.nodup_cons.mp hr
    have hget : get? ((key, shape) :: rest) key = some shape := by rw [get?_cons, if_pos rfl]
    have hbehind (merged : Shape) : FailsFirst
        (ClashAt path (.object into) (.object ((key, shape) :: rest))) (chainsList rest)
        (mergeInto path (into.set key merged) rest) := by
      refine (ihr hrest hr).congr fun chain hchain c => ?_
      obtain ⟨other, tail, rfl, hother⟩ := mem_keys_of_mem_chainsList hchain
      have hne : other ≠ key := fun h => hnew (h ▸ hother)
      rw [clashAt_cons_iff, clashAt_cons_iff, get?_set, if_neg hne, get?_cons, if_neg hne]
    rw [mergeInto]
    cases hp : into.get? key with
    | none =>
      have hnone : FailsFirst (fun chain => ClashAt path (.object into)
          (.object ((key, shape) :: rest)) (key :: chain)) shape.chains
          (.ok shape : Except Conflict Shape) := fun chain _ c h => by
        obtain ⟨u, _, hu, -⟩ := clashAt_cons_iff.mp h
        cases hp.symm.trans hu
      exact (hnone.map key).bind fun merged _ => hbehind merged
    | some p =>
      refine FailsFirst.bind (.map key ?_) fun merged _ => hbehind merged
      refine (hf (path ++ [key.toString]) p).congr fun chain _ c => ?_
      rw [clashAt_cons_iff, hp, hget]
      simp

theorem failsFirst_merge (path : List String) (s : Shape) (ht : t.UniqueKeys) :
    FailsFirst (ClashAt path s t) t.chains (s.merge path t) := by
  induction t using fieldsInduction generalizing s path with
  | leaf l =>
    cases l with
    | any =>
      rw [merge_any]
      exact fun chain _ c => not_clashAt_any_right
    | oneOf b =>
      cases s with
      | object fs => exact .head (clashAt_nil_iff.mpr (.objectLeaf fs b))
      | leaf l =>
        cases l with
        | any => exact fun chain _ c => not_clashAt_any_left
        | oneOf a =>
          rw [merge]
          split
          · rename_i hab
            refine List.forall_mem_singleton.mpr fun c h => ?_
            cases clashAt_nil_iff.mp h with
            | types hne => exact hne hab
          · rename_i hab
            exact .head (clashAt_nil_iff.mpr (.types hab))
  | object gs ih =>
    cases s with
    | leaf l =>
      cases l with
      | any => exact fun chain _ c => not_clashAt_any_left
      | oneOf a => exact .head (clashAt_nil_iff.mpr (.leafObject a gs))
    | object fs =>
      have hg : Fields.UniqueKeys gs := ht
      have hfields : FailsFirst (ClashAt path (.object fs) (.object gs)) (chainsList gs)
          (mergeInto path fs gs) :=
        failsFirst_mergeInto (fun f hf path p => ih f hf path p (hg.of_mem hf)) hg.nodup
      -- two objects do not clash themselves
      have hself : FailsFirst (ClashAt path (.object fs) (.object gs)) [[]]
          (.ok () : Except Conflict Unit) :=
        List.forall_mem_singleton.mpr fun c h => by cases clashAt_nil_iff.mp h
      rw [merge]
      have hall := hself.bind (f := fun _ => mergeInto path fs gs) fun _ _ => hfields
      have hdone : FailsFirst (ClashAt path (.object fs) (.object gs)) (([] :: chainsList gs) ++ [])
          (mergeInto path fs gs >>= fun merged => .ok (object merged)) :=
        hall.bind fun _ _ _ hm => absurd hm List.not_mem_nil
      rwa [List.append_nil] at hdone

end Shape

namespace Fields

variable {l r : Fields} {c c' : Conflict} {chain chain' : List Key}

theorem failsFirst_merge (l : Fields) (hr : r.UniqueKeys) :
    FailsFirst (l.ClashAt r) r.chains (l.merge r) :=
  Shape.failsFirst_mergeInto (fun _ hf path p => Shape.failsFirst_merge path p (hr.of_mem hf))
    hr.nodup

/-- A chain at which two objects clash is not empty. -/
theorem ClashAt.mem_chains (h : l.ClashAt r chain c) : chain ∈ r.chains := by
  obtain ⟨u, v, hu, hv, h⟩ := h
  rcases List.mem_cons.mp (Shape.mem_chains hv) with rfl | hmem
  · cases hu
    cases hv
    cases h
  · exact hmem

theorem FirstClash.unique (h : l.FirstClash r chain c) (h' : l.FirstClash r chain' c') :
    c = c' := by
  obtain ⟨hc, before, after, hchains, hbefore⟩ := h
  obtain ⟨hc', before', after', hchains', hbefore'⟩ := h'
  rcases List.append_eq_append_iff.mp (hchains.symm.trans hchains') with
    ⟨between, hb, hrest⟩ | ⟨between, hb, hrest⟩
  · cases between with
    | nil => cases hrest; exact hc.unique hc'
    | cons other between =>
      cases hrest
      exact absurd hc (hbefore' chain (by simp [hb]) c)
  · cases between with
    | nil => cases hrest; exact hc.unique hc'
    | cons other between =>
      cases hrest
      exact absurd hc' (hbefore chain' (by simp [hb]) c')

/-- A merge fails exactly if there is a clash. It reports the first one, in depth-first order of the
fields of `r`, at the keys that lead to it. -/
theorem merge_first_clash (hr : r.UniqueKeys) :
    (∀ c, l.merge r = .error c ↔ ∃ chain, l.FirstClash r chain c) ∧
    ((∃ m, l.merge r = .ok m) ↔ ∀ chain c, ¬ l.ClashAt r chain c) ∧
    ∀ chain c, l.ClashAt r chain c → c.path = ".".intercalate (chain.map Key.toString) := by
  have hfails := failsFirst_merge l hr
  cases hm : l.merge r with
  | ok m =>
    rw [hm] at hfails
    have hnone : ∀ chain c, ¬ l.ClashAt r chain c := fun chain c h =>
      hfails chain h.mem_chains c h
    refine ⟨fun c => ⟨nofun, ?_⟩, ⟨fun _ => hnone, fun _ => ⟨m, rfl⟩⟩, fun chain c h =>
      absurd h (hnone chain c)⟩
    rintro ⟨chain, h⟩
    exact absurd h.clash (hnone chain c)
  | error c =>
    rw [hm] at hfails
    obtain ⟨before, chain, after, hchains, hc, hbefore⟩ := hfails
    have hfirst : l.FirstClash r chain c := ⟨hc, before, after, hchains, hbefore⟩
    refine ⟨fun c' => ⟨?_, ?_⟩, ⟨?_, ?_⟩, ?_⟩
    · rintro ⟨⟩
      exact ⟨chain, hfirst⟩
    · rintro ⟨chain', h'⟩
      rw [hfirst.unique h']
    · rintro ⟨_, ⟨⟩⟩
    · intro hnone
      exact absurd hc (hnone chain c)
    · rintro chain' c' ⟨u, v, -, -, h⟩
      rw [Conflict.path, h.names_eq]
      rfl

/-- Of three clashes, two inside one object, the one that comes first in `r` is reported. Keys with
different marks do not meet. -/
theorem merge_first_clash_tags :
    let item : Shape := .object [({ name := "id" }, .leaf .any)]
    let l : Fields := [({ name := "shop" }, .leaf .boolean), ({ name := "user" }, .object
      [({ name := "age" }, .leaf (.of ["number"])), ({ name := "tags", array := true }, item)])]
    let user : Fields := [({ name := "age", optional := true }, item),
      ({ name := "tags", array := true }, .leaf (.of ["string", "number"])),
      ({ name := "age" }, .leaf (.of ["string"]))]
    let r : Fields := [({ name := "user" }, .object user), ({ name := "shop" }, item)]
    let c : Conflict := .shape ["user", "tags[]"] "\x7b id \x7d" "number | string"
    r.UniqueKeys ∧ l.merge r = .error c ∧ ∃ chain, l.FirstClash r chain c := by
  intro item l user r c
  have hitem : item.UniqueKeys := .object (by decide) (by simp [Shape.Distinct.leaf])
  have huser : (Shape.object user).UniqueKeys :=
    .object (by decide) (by simp [user, hitem, Shape.Distinct.leaf])
  have hr : r.UniqueKeys := .mk (by decide) (by simp [r, huser, hitem])
  have hm : l.merge r = .error c := rfl
  exact ⟨hr, hm, ((merge_first_clash hr).1 c).mp hm⟩

end Fields

end Stencil
