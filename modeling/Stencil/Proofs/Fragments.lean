import Stencil.Inference
import Stencil.Proofs.MergeLub

/-!
# What each node asks for

A run of nodes asks for the least requirements above those of its nodes, each taken alone: its
`fragment`. `requireAll_cons_eq_ok` opens a run, `bounds_of_requireAll` and `requireAll_least` say
where its requirements stand among all others.
-/

namespace Stencil

open Outcome

/-- A principle of induction: a property of all nodes of a block passes on to the block. -/
@[elab_as_elim]
theorem Node.contentInduction {motive : Node → Prop} (text : ∀ s, motive (.text s))
    (var : ∀ n r a s, motive (.var n r a s)) (dot : ∀ r, motive (.dot r))
    (block : ∀ n c o, (∀ m ∈ c, motive m) → motive (.block n c o))
    (inverted : ∀ n c, (∀ m ∈ c, motive m) → motive (.inverted n c))
    (comment : ∀ s, motive (.comment s)) (reference : ∀ n, motive (.reference n)) :
    ∀ n, motive n :=
  Node.rec (motive_2 := fun ns => ∀ n ∈ ns, motive n) text var dot block inverted comment reference
    (fun _ h => nomatch h) fun _ _ hn hns => List.forall_mem_cons.mpr ⟨hn, hns⟩

namespace Requirements

variable {r q u r' : Requirements}

structure UniqueKeys (r : Requirements) : Prop where
  here : r.here.UniqueKeys
  root : r.root.UniqueKeys

structure Below (r u : Requirements) : Prop where
  here : r.here.Below u.here
  root : r.root.Below u.root
  dot : r.dot = true → u.dot = true

/-- `r'` is what `r` and `q` ask for together. -/
structure Adds (r q r' : Requirements) : Prop where
  here : r.here.merge q.here = .ok r'.here
  root : r.root.merge q.root = .ok r'.root
  dot : r'.dot = (r.dot || q.dot)

theorem UniqueKeys.empty : UniqueKeys {} := ⟨.nil, .nil⟩

theorem Below.refl (r : Requirements) : r.Below r := ⟨.refl _, .refl _, id⟩

theorem Below.trans (h : r.Below q) (h' : q.Below u) : r.Below u :=
  ⟨h.here.trans h'.here, h.root.trans h'.root, fun hr => h'.dot (h.dot hr)⟩

theorem Below.empty (r : Requirements) : Below {} r :=
  ⟨.object nofun nofun, .object nofun nofun, nofun⟩

namespace Adds

theorem unique (h : r.Adds q r') (hr : r.UniqueKeys) (hq : q.UniqueKeys) : r'.UniqueKeys :=
  ⟨(Fields.least_merge hr.here hq.here).unique _ h.here,
    (Fields.least_merge hr.root hq.root).unique _ h.root⟩

theorem left (h : r.Adds q r') (hr : r.UniqueKeys) (hq : q.UniqueKeys) : r.Below r' :=
  ⟨((Fields.least_merge hr.here hq.here).holds _ h.here).1,
    ((Fields.least_merge hr.root hq.root).holds _ h.root).1, fun hd => by simp [h.dot, hd]⟩

theorem right (h : r.Adds q r') (hr : r.UniqueKeys) (hq : q.UniqueKeys) : q.Below r' :=
  ⟨((Fields.least_merge hr.here hq.here).holds _ h.here).2,
    ((Fields.least_merge hr.root hq.root).holds _ h.root).2, fun hd => by simp [h.dot, hd]⟩

theorem least (hr : r.UniqueKeys) (hq : q.UniqueKeys) (hru : r.Below u) (hqu : q.Below u) :
    ∃ r', r.Adds q r' ∧ r'.Below u := by
  obtain ⟨here, hh, hhu⟩ := (Fields.least_merge hr.here hq.here).least _ ⟨hru.here, hqu.here⟩
  obtain ⟨root, hg, hgu⟩ := (Fields.least_merge hr.root hq.root).least _ ⟨hru.root, hqu.root⟩
  refine ⟨⟨here, root, r.dot || q.dot⟩, ⟨hh, hg, rfl⟩, hhu, hgu, fun hd => ?_⟩
  rcases Bool.or_eq_true_iff.mp hd with hd | hd
  · exact hru.dot hd
  · exact hqu.dot hd

end Adds

end Requirements

open Requirements

/-- What a node asks for by itself. -/
def Node.fragment : Node → Except Conflict Requirements
  | .text _ | .comment _ | .reference _ => .ok {}
  | .dot _ => .ok { dot := true }
  | .var name _ type .context => do
    let fields ← Fields.ofVariable name type
    .ok { here := fields }
  | .var name _ type .root => do
    let fields ← Fields.ofVariable name type
    .ok { root := fields }
  | .block name content optional => do
    let inner ← (requireAll {} content).result
    let fields ← Fields.chain name.segments optional inner.blockShape.2 inner.blockShape.1
    .ok { here := fields, root := inner.root }
  | .inverted name _ => do
    let fields ← Fields.chain name.segments false false (.leaf .boolean)
    .ok { here := fields }

section
variable {r r' q u : Requirements} {n : Node} {ns : List Node}

theorem Fields.merge_nil (fs : Fields) : fs.merge [] = .ok fs := rfl

theorem Requirements.addHere_eq_ok {fs : Fields} :
    (r.addHere fs).result = .ok r' ↔ r.Adds { here := fs } r' := by
  rw [addHere, Traced.result_bind, Traced.result_ofExcept, bind_eq_ok]
  constructor
  · rintro ⟨here, hh, h⟩
    cases h
    exact ⟨hh, Fields.merge_nil _, (Bool.or_false _).symm⟩
  · rintro ⟨hh, hg, hd⟩
    cases r'
    cases hg
    cases hd.trans (Bool.or_false _)
    exact ⟨_, hh, rfl⟩

theorem Requirements.addRoot_eq_ok {fs : Fields} :
    (r.addRoot fs).result = .ok r' ↔ r.Adds { root := fs } r' := by
  rw [addRoot, Traced.result_bind, Traced.result_ofExcept, bind_eq_ok]
  constructor
  · rintro ⟨root, hg, h⟩
    cases h
    exact ⟨Fields.merge_nil _, hg, (Bool.or_false _).symm⟩
  · rintro ⟨hh, hg, hd⟩
    cases r'
    cases hh
    cases hd.trans (Bool.or_false _)
    exact ⟨_, hg, rfl⟩

theorem Requirements.adds_root_here {fs gs : Fields} :
    (∃ u, r.Adds { root := fs } u ∧ u.Adds { here := gs } r') ↔
      r.Adds { here := gs, root := fs } r' := by
  constructor
  · rintro ⟨u, ⟨hh, hg, hd⟩, ⟨hh', hg', hd'⟩⟩
    cases u
    cases hh
    cases hg'
    cases hd
    exact ⟨hh', hg, hd'.trans (Bool.or_false _)⟩
  · intro h
    exact ⟨⟨r.here, r'.root, r.dot || false⟩, ⟨Fields.merge_nil _, h.root, rfl⟩,
      ⟨h.here, Fields.merge_nil _, h.dot.trans (Bool.or_false _).symm⟩⟩

theorem Requirements.adds_empty : r.Adds {} r' ↔ r' = r := by
  constructor
  · rintro ⟨hh, hg, hd⟩
    cases r'
    cases hh
    cases hg
    cases hd.trans (Bool.or_false _)
    rfl
  · rintro rfl
    exact ⟨Fields.merge_nil _, Fields.merge_nil _, (Bool.or_false _).symm⟩

theorem Requirements.adds_dot : r.Adds { dot := true } r' ↔ r' = { r with dot := true } := by
  constructor
  · rintro ⟨hh, hg, hd⟩
    cases r'
    cases hh
    cases hg
    cases hd.trans (Bool.or_true _)
    rfl
  · rintro rfl
    exact ⟨Fields.merge_nil _, Fields.merge_nil _, (Bool.or_true _).symm⟩

/-- Adding a node is adding its fragment. -/
theorem require_eq_ok :
    (n.require r).result = .ok r' ↔ ∃ q, n.fragment = .ok q ∧ r.Adds q r' := by
  cases n with
  | text s | comment s | reference s => simp [Node.require, Node.fragment, adds_empty, eq_comm]
  | dot raw => simp [Node.require, Node.fragment, adds_dot, eq_comm]
  | var name raw type scope =>
    cases scope <;>
      simp [Node.require, Node.fragment, addHere_eq_ok, addRoot_eq_ok, bind_eq_ok]
  | block name content optional =>
    simp only [Node.require, Node.fragment, Traced.result_bind, Traced.result_ofExcept,
      Traced.result_write, bind_eq_ok, addHere_eq_ok, addRoot_eq_ok]
    constructor
    · rintro ⟨inner, hi, u, hu, fields, hf, _, -, h⟩
      exact ⟨_, ⟨inner, hi, fields, hf, rfl⟩, adds_root_here.mp ⟨u, hu, h⟩⟩
    · rintro ⟨q, ⟨inner, hi, fields, hf, ⟨⟩⟩, h⟩
      obtain ⟨u, hu, h⟩ := adds_root_here.mpr h
      exact ⟨inner, hi, u, hu, fields, hf, (), trivial, h⟩
  | inverted name content =>
    simp [Node.require, Node.fragment, addHere_eq_ok, bind_eq_ok]

theorem requireAll_cons_eq_ok :
    (requireAll r (n :: ns)).result = .ok r' ↔
      ∃ q, n.fragment = .ok q ∧ ∃ u, r.Adds q u ∧ (requireAll u ns).result = .ok r' := by
  rw [requireAll, Traced.result_bind, bind_eq_ok]
  constructor
  · rintro ⟨u, hu, h⟩
    obtain ⟨q, hq, hadd⟩ := require_eq_ok.mp hu
    exact ⟨q, hq, u, hadd, h⟩
  · rintro ⟨q, hq, u, hadd, h⟩
    exact ⟨u, require_eq_ok.mpr ⟨q, hq, hadd⟩, h⟩

/-- The fields that a run asks for, before they are settled. -/
def collect (ns : List Node) : Except Conflict Fields := do
  let r ← (requireAll {} ns).result
  r.here.merge r.root

theorem infer_eq (ns : List Node) : (infer ns).result = collect ns >>= Fields.settle := by
  rw [infer, collect, Traced.result_bind]
  cases (requireAll {} ns).result with
  | error c => rfl
  | ok r =>
    show (_ : Inference Fields).result = r.here.merge r.root >>= Fields.settle
    rw [Traced.result_bind, Traced.result_ofExcept]
    refine congrArg _ (funext fun merged => ?_)
    cases merged.settle <;> rfl

theorem infer_eq_ok {fs : Fields} :
    (infer ns).result = .ok fs ↔
      ∃ r merged, (requireAll {} ns).result = .ok r ∧ r.here.merge r.root = .ok merged ∧
        merged.settle = .ok fs := by
  simp only [infer_eq, collect, bind_eq_ok]
  constructor
  · rintro ⟨merged, ⟨r, hr, hm⟩, hs⟩; exact ⟨r, merged, hr, hm, hs⟩
  · rintro ⟨r, merged, hr, hm, hs⟩; exact ⟨merged, ⟨r, hr, hm⟩, hs⟩

/-! ### Fragments hold every key once -/

theorem Fields.UniqueKeys.singleton {k : Key} {s : Shape} (h : s.UniqueKeys) :
    Fields.UniqueKeys [(k, s)] :=
  .mk (List.nodup_singleton k) fun _ hf => List.mem_singleton.mp hf ▸ h

theorem Fields.uniqueKeys_wrap {optional array : Bool} {shape : Shape} (h : shape.UniqueKeys) :
    ∀ segments, (Fields.wrap optional array shape segments).UniqueKeys
  | [] => .nil
  | [_] => .singleton h
  | _ :: s :: rest => .singleton (uniqueKeys_wrap h (s :: rest))

theorem Fields.chain_eq_ok {segments : List String} {optional array : Bool} {shape : Shape}
    {fs : Fields} :
    Fields.chain segments optional array shape = .ok fs ↔
      (∀ s ∈ segments, looksLikeIndex s = false) ∧ fs = wrap optional array shape segments := by
  unfold chain
  split
  · rename_i s hs
    have hs' := List.find?_some hs
    constructor
    · intro h; cases h
    · rintro ⟨h, _⟩
      rw [h s (List.mem_of_find?_eq_some hs)] at hs'
      cases hs'
  · rename_i hs
    constructor
    · intro h; cases h; exact ⟨by simpa using hs, rfl⟩
    · rintro ⟨_, rfl⟩; rfl

theorem Fields.ofVariable_eq_ok {name : Path} {type : Option ValueType} {fs : Fields} :
    Fields.ofVariable name type = .ok fs ↔
      ∃ l, chain name.segments (type.elim false ValueType.optional) false (.leaf l) = .ok fs ∧
        l = type.elim .any fun a => .of a.alternatives := by
  cases type <;> simp [ofVariable]

theorem Requirements.UniqueKeys.blockShape (h : r.UniqueKeys) : r.blockShape.1.UniqueKeys := by
  unfold Requirements.blockShape
  split
  · exact .leaf _
  · exact .leaf _
  · exact h.here

def Requirements.Bounds (r : Requirements) (ns : List Node) (u : Requirements) : Prop :=
  r.Below u ∧ ∀ n ∈ ns, ∃ q, n.fragment = .ok q ∧ q.Below u

theorem Requirements.Bounds.cons (h : r.Bounds ns u) (hq : n.fragment = .ok q) (hqr : q.Below r)
    (hr : r'.Below r) : r'.Bounds (n :: ns) u :=
  ⟨hr.trans h.1, List.forall_mem_cons.mpr ⟨⟨q, hq, hqr.trans h.1⟩, h.2⟩⟩

theorem bounds_of_requireAll_of_unique (hns : ∀ n ∈ ns, ∀ q, n.fragment = .ok q → q.UniqueKeys)
    (hr : r.UniqueKeys) (h : (requireAll r ns).result = .ok r') :
    r'.UniqueKeys ∧ r.Bounds ns r' := by
  induction ns generalizing r with
  | nil => cases h; exact ⟨hr, .refl _, nofun⟩
  | cons n ns ih =>
    obtain ⟨q, hq, u, hadd, h⟩ := requireAll_cons_eq_ok.mp h
    have huq := hns n (List.mem_cons_self ..) q hq
    obtain ⟨hu, hb⟩ := ih (fun m hm => hns m (List.mem_cons_of_mem _ hm)) (hadd.unique hr huq) h
    exact ⟨hu, hb.cons hq (hadd.right hr huq) (hadd.left hr huq)⟩

theorem uniqueKeys_fragment (h : n.fragment = .ok q) : q.UniqueKeys := by
  induction n using Node.contentInduction generalizing q with
  | text | comment | reference | dot => cases h; exact ⟨.nil, .nil⟩
  | var name raw type scope =>
    have hvar : ∀ fs, Fields.ofVariable name type = .ok fs → fs.UniqueKeys := by
      intro fs hfs
      obtain ⟨l, hl, _⟩ := Fields.ofVariable_eq_ok.mp hfs
      rw [(Fields.chain_eq_ok.mp hl).2]
      exact Fields.uniqueKeys_wrap (.leaf l) _
    cases scope with
    | context =>
      obtain ⟨fs, hfs, h⟩ := bind_eq_ok.mp h
      cases h
      exact ⟨hvar fs hfs, .nil⟩
    | root =>
      obtain ⟨fs, hfs, h⟩ := bind_eq_ok.mp h
      cases h
      exact ⟨.nil, hvar fs hfs⟩
  | block name content optional ih =>
    obtain ⟨inner, hi, h⟩ := bind_eq_ok.mp h
    obtain ⟨fs, hfs, h⟩ := bind_eq_ok.mp h
    cases h
    have hinner := (bounds_of_requireAll_of_unique (fun n hn q => ih n hn) .empty hi).1
    rw [(Fields.chain_eq_ok.mp hfs).2]
    exact ⟨Fields.uniqueKeys_wrap hinner.blockShape _, hinner.root⟩
  | inverted name content =>
    obtain ⟨fs, hfs, h⟩ := bind_eq_ok.mp h
    cases h
    rw [(Fields.chain_eq_ok.mp hfs).2]
    exact ⟨Fields.uniqueKeys_wrap (.leaf _) _, .nil⟩

/-! ### A run asks for the least that bounds its nodes -/

theorem bounds_of_requireAll (hr : r.UniqueKeys) (h : (requireAll r ns).result = .ok r') :
    r'.UniqueKeys ∧ r.Bounds ns r' :=
  bounds_of_requireAll_of_unique (fun _ _ _ => uniqueKeys_fragment) hr h

theorem requireAll_least (hr : r.UniqueKeys) (hu : r.Bounds ns u) :
    ∃ r', (requireAll r ns).result = .ok r' ∧ r'.Below u := by
  induction ns generalizing r with
  | nil => exact ⟨r, rfl, hu.1⟩
  | cons n ns ih =>
    obtain ⟨q, hq, hqu⟩ := hu.2 n (List.mem_cons_self ..)
    have huq := uniqueKeys_fragment hq
    obtain ⟨v, hadd, hvu⟩ := Adds.least hr huq hu.1 hqu
    obtain ⟨r', hr', hru⟩ := ih (hadd.unique hr huq)
      ⟨hvu, fun m hm => hu.2 m (List.mem_cons_of_mem _ hm)⟩
    exact ⟨r', requireAll_cons_eq_ok.mpr ⟨q, hq, v, hadd, hr'⟩, hru⟩

end

end Stencil
