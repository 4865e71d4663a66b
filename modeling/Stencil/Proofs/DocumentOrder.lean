import Stencil.Proofs.Fragments
import Stencil.Proofs.SettleOrder

/-!
# Inference in another order

What a template asks for before it is settled does not depend on the order of its nodes, at any
depth (`agree_collect`). Settling does: a name that is tested, has fields, and is a list is settled
as a list of objects, but not if the list is the last of the three to come. Two orders infer the
same fields unless a list comes too late in one of them (`infer_reordered`).
-/

namespace Stencil

open Outcome

/-- The same nodes with other orders of siblings, outside of blocks and inside them. -/
inductive Reordered : List Node → List Node → Prop
  | perm {ns ms : List Node} (h : ns.Perm ms) : Reordered ns ms
  | block {name : Path} {content content' : List Node} {optional : Bool} (before after : List Node)
      (h : Reordered content content') :
      Reordered (before ++ .block name content optional :: after)
        (before ++ .block name content' optional :: after)
  | inverted {name : Path} {content content' : List Node} (before after : List Node)
      (h : Reordered content content') :
      Reordered (before ++ .inverted name content :: after)
        (before ++ .inverted name content' :: after)
  | trans {ns ms ks : List Node} (h : Reordered ns ms) (h' : Reordered ms ks) : Reordered ns ks

section
variable {ns ms content content' : List Node} {n m : Node} {r u q inner inner' : Requirements}

def Alike (ns ms : List Node) : Prop := ∀ r u, Requirements.Bounds r ns u ↔ r.Bounds ms u

def Node.Asks (n : Node) (u : Requirements) : Prop := ∃ q, n.fragment = .ok q ∧ q.Below u

theorem alike_replace (before after : List Node) (h : ∀ u, n.Asks u ↔ m.Asks u) :
    Alike (before ++ n :: after) (before ++ m :: after) := by
  intro r u
  refine and_congr Iff.rfl ?_
  rw [List.forall_mem_append, List.forall_mem_append, List.forall_mem_cons, List.forall_mem_cons]
  exact and_congr Iff.rfl (and_congr (h u) Iff.rfl)

namespace Requirements

theorem here_eq_nil_of_below (h : inner.Below inner') (hn : inner'.here = []) :
    inner.here = [] := by
  have hh := h.here
  rw [hn] at hh
  refine List.eq_nil_iff_forall_not_mem.mpr fun f hf => ?_
  cases hh with
  | object keys _ => cases keys f.1 (List.mem_map_of_mem hf)

theorem blockShape_below (h : inner.Below inner') (h' : inner'.Below inner) :
    inner.blockShape.1.Below inner'.blockShape.1 ∧ inner.blockShape.2 = inner'.blockShape.2 := by
  have hd : inner.dot = inner'.dot := Bool.eq_iff_iff.mpr ⟨h.dot, h'.dot⟩
  by_cases hn : inner.here = []
  · have hn' := here_eq_nil_of_below h' hn
    unfold blockShape
    rw [hn, hn', hd]
    exact ⟨.refl _, rfl⟩
  · have hn' : inner'.here ≠ [] := fun hn' => hn (here_eq_nil_of_below h hn')
    have hshape : ∀ r : Requirements, r.here ≠ [] → r.blockShape = (.object r.here, r.dot) := by
      intro r hr
      unfold blockShape
      split
      · rename_i he; exact absurd he hr
      · rename_i he; exact absurd he hr
      · rfl
    rw [hshape inner hn, hshape inner' hn']
    exact ⟨h.here, hd⟩

end Requirements

theorem Fields.below_singleton {k : Key} {s t : Shape} (h : s.Below t) :
    Fields.Below [(k, s)] [(k, t)] := by
  refine Shape.below_object_iff.mpr fun k' s' hk => ?_
  rw [get?_cons] at hk ⊢
  split at hk
  · cases hk
    exact ⟨t, if_pos ‹_›, h⟩
  · cases hk

theorem Fields.wrap_below {optional array : Bool} {s t : Shape} (h : s.Below t) :
    ∀ segments, (Fields.wrap optional array s segments).Below (wrap optional array t segments)
  | [] => .refl _
  | [_] => below_singleton h
  | _ :: second :: rest => below_singleton (wrap_below h (second :: rest))

theorem exists_requirements (h : Alike content content')
    (hi : (requireAll {} content).result = .ok inner) :
    ∃ inner', (requireAll {} content').result = .ok inner' ∧ inner.Below inner' ∧
      inner'.Below inner := by
  have hbounds := (bounds_of_requireAll .empty hi).2
  obtain ⟨inner', hi', hb⟩ := requireAll_least .empty ((h {} inner).mp hbounds)
  have hbounds' := (bounds_of_requireAll .empty hi').2
  obtain ⟨i, hii, hb'⟩ := requireAll_least .empty ((h {} inner').mpr hbounds')
  cases hi.symm.trans hii
  exact ⟨inner', hi', hb', hb⟩

theorem asks_block_of_alike {name : Path} {optional : Bool} (h : Alike content content')
    (ha : (Node.block name content optional).Asks u) :
    (Node.block name content' optional).Asks u := by
  obtain ⟨q, hq, hqu⟩ := ha
  obtain ⟨inner, hi, hq⟩ := bind_eq_ok.mp hq
  obtain ⟨fs, hfs, hq⟩ := bind_eq_ok.mp hq
  cases hq
  obtain ⟨inner', hi', hb, hb'⟩ := exists_requirements h hi
  obtain ⟨hshape, harray⟩ := Requirements.blockShape_below hb' hb
  obtain ⟨hindex, rfl⟩ := Fields.chain_eq_ok.mp hfs
  refine ⟨_, bind_eq_ok.mpr ⟨inner', hi', bind_eq_ok.mpr
    ⟨_, Fields.chain_eq_ok.mpr ⟨hindex, rfl⟩, rfl⟩⟩, ?_⟩
  rw [harray]
  exact ⟨(Fields.wrap_below hshape _).trans hqu.here, hb'.root.trans hqu.root, hqu.dot⟩

theorem Reordered.alike (h : Reordered ns ms) : Alike ns ms := by
  induction h with
  | perm h =>
    intro r u
    refine and_congr Iff.rfl ⟨fun hns n hn => ?_, fun hms n hn => ?_⟩
    · exact hns n (h.mem_iff.mpr hn)
    · exact hms n (h.mem_iff.mp hn)
  | block before after _ ih =>
    exact alike_replace before after fun u =>
      ⟨asks_block_of_alike ih, asks_block_of_alike fun r u => (ih r u).symm⟩
  | inverted before after _ _ => exact alike_replace before after fun _ => Iff.rfl
  | trans _ _ ih ih' => exact fun r u => (ih r u).trans (ih' r u)

/-! ### Two orders of one template -/

theorem least_collect (ns : List Node) :
    Fields.Least (fun u => Requirements.Bounds {} ns ⟨u, u, true⟩) (collect ns) := by
  have hcollect : ∀ m, collect ns = .ok m → ∃ r, r.UniqueKeys ∧ Requirements.Bounds {} ns r ∧
      r.here.merge r.root = .ok m := fun m hm => by
    obtain ⟨r, hr, hm⟩ := bind_eq_ok.mp hm
    obtain ⟨hu, hb⟩ := bounds_of_requireAll .empty hr
    exact ⟨r, hu, hb, hm⟩
  refine ⟨fun m hm => ?_, fun m hm => ?_, fun u hu => ?_⟩
  · obtain ⟨r, hr, _, hm⟩ := hcollect m hm
    exact (Fields.least_merge hr.here hr.root).unique m hm
  · obtain ⟨r, hr, hb, hm⟩ := hcollect m hm
    obtain ⟨hh, hg⟩ := (Fields.least_merge hr.here hr.root).holds m hm
    have hrm : r.Below ⟨m, m, true⟩ := ⟨hh, hg, fun _ => rfl⟩
    refine ⟨.empty _, fun n hn => ?_⟩
    obtain ⟨q, hq, hqr⟩ := hb.2 n hn
    exact ⟨q, hq, hqr.trans hrm⟩
  · obtain ⟨r, hr, hru⟩ := requireAll_least .empty hu
    have huniq := (bounds_of_requireAll .empty hr).1
    obtain ⟨m, hm, hmu⟩ := (Fields.least_merge huniq.here huniq.root).least u ⟨hru.here, hru.root⟩
    exact ⟨m, bind_eq_ok.mpr ⟨r, hr, hm⟩, hmu⟩

theorem agree_collect (h : Reordered ns ms) : Fields.Agree (collect ns) (collect ms) :=
  (least_collect ns).agree ((least_collect ms).congr fun _ => (h.alike {} _).symm)

/-- In the fields that the run asks for, in their order, a list comes too late to be settled. -/
def ListLate (ns : List Node) : Prop := ∃ asked, collect ns = .ok asked ∧ Fields.LateList [] asked

theorem ListLate.infer_ne_ok (h : ListLate ns) (fs : Fields) : (infer ns).result ≠ .ok fs := by
  obtain ⟨asked, ha, hl⟩ := h
  rw [infer_eq, ha]
  exact hl.settle_ne_ok ((least_collect ns).unique asked ha)

theorem infer_cases (h : Reordered ns ms) {fs : Fields} (hf : (infer ns).result = .ok fs) :
    (∃ gs, (infer ms).result = .ok gs ∧ fs.same gs = true) ∨
      ListLate ms ∧ ∃ c, (infer ms).result = .error c ∧ Fields.ListClash [] fs c := by
  obtain ⟨a, ha, hs⟩ := bind_eq_ok.mp ((infer_eq ns).symm.trans hf)
  have hagree := agree_collect h
  cases hb : collect ms with
  | error c => rw [ha, hb] at hagree; cases hagree
  | ok b =>
    rw [ha, hb] at hagree
    have hua := (least_collect ns).unique a ha
    have hub := (least_collect ms).unique b hb
    obtain ⟨hab, hba⟩ := (Fields.same_iff_below hua hub).mp hagree
    have hms : (infer ms).result = b.settle := by rw [infer_eq, hb]; rfl
    rcases Fields.settle_cases hua hub hab hba hs with ⟨gs, hgs, hsame⟩ | ⟨c, hc, hclash, hlate⟩
    · exact .inl ⟨gs, hms.trans hgs, hsame⟩
    · exact .inr ⟨⟨b, hb, hlate⟩, c, hms.trans hc, hclash⟩

theorem Reordered.symm (h : Reordered ns ms) : Reordered ms ns := by
  induction h with
  | perm h => exact .perm h.symm
  | block before after _ ih => exact .block before after ih
  | inverted before after _ ih => exact .inverted before after ih
  | trans _ _ ih ih' => exact ih'.trans ih

/-- One order infers fields, and in the other one a list comes too late. -/
def Torn (ns ms : List Node) : Prop :=
  ((∃ fs, (infer ns).result = .ok fs) ∧ ListLate ms) ∨
    ((∃ fs, (infer ms).result = .ok fs) ∧ ListLate ns)

/-- Two orders of one template infer the same fields or both fail, unless a list comes too late in
one of them. That one reports a name that is tested and has fields, where the other one infers a
list. -/
theorem infer_reordered (h : Reordered ns ms) :
    (Fields.Agree (infer ns).result (infer ms).result ↔ ¬ Torn ns ms) ∧
      ∀ fs c, (infer ns).result = .ok fs → (infer ms).result = .error c →
        Fields.ListClash [] fs c := by
  refine ⟨⟨?_, fun htorn => ?_⟩, fun fs c hn hm => ?_⟩
  · rintro hagree (⟨hn, hl⟩ | ⟨hm, hl⟩)
    · obtain ⟨gs, hm⟩ := hagree.exists_ok_iff.mp hn
      exact hl.infer_ne_ok gs hm
    · obtain ⟨fs, hn⟩ := hagree.exists_ok_iff.mpr hm
      exact hl.infer_ne_ok fs hn
  · cases hn : (infer ns).result with
    | ok fs =>
      rcases infer_cases h hn with ⟨gs, hm, hsame⟩ | ⟨hl, _⟩
      · rw [hm]
        exact hsame
      · exact absurd (.inl ⟨⟨fs, hn⟩, hl⟩) htorn
    | error c =>
      cases hm : (infer ms).result with
      | error c' => trivial
      | ok gs =>
        rcases infer_cases h.symm hm with ⟨fs, hn', _⟩ | ⟨hl, _⟩
        · cases hn.symm.trans hn'
        · exact absurd (.inr ⟨⟨gs, hm⟩, hl⟩) htorn
  · rcases infer_cases h hn with ⟨gs, hm', _⟩ | ⟨_, c', hm', hclash⟩
    · cases hm.symm.trans hm'
    · cases hm.symm.trans hm'
      exact hclash

/-- Inside a block, a list of users that are tested and have names: the second order fails alone. -/
theorem infer_reordered_users :
    let users : Path := ⟨["users"], by simp⟩
    let test : Node := .block users [] false
    let list : Node := .block users [.dot false] false
    let names : Node := .block users [.var ⟨["name"], by simp⟩ false none .context] true
    let around : List Node → Node := fun content => .block ⟨["site"], by simp⟩ content false
    Reordered [around [test, list, names]] [around [test, names, list]] ∧
      Torn [around [test, list, names]] [around [test, names, list]] := by
  intro users test list names around
  have hr : Reordered [around [test, list, names]] [around [test, names, list]] :=
    .block [] [] (.perm ((List.Perm.swap names list []).cons test))
  have hn : ¬ Fields.Agree (infer [around [test, list, names]]).result
      (infer [around [test, names, list]]).result := id
  exact ⟨hr, not_not.mp fun ht => hn ((infer_reordered hr).1.mpr ht)⟩

/-- Three uses of one name that are served by a list of objects: with the list in the middle its
fields are inferred, with the list at the end there is a conflict. -/
theorem infer_depends_on_order :
    let n : Path := ⟨["n"], by simp⟩
    let test : Node := .block n [] false
    let object : Node := .block n [.var ⟨["x"], by simp⟩ false none .context] true
    let list : Node := .block n [.dot false] false
    Reordered [test, object, list] [test, list, object] ∧
      (infer [test, object, list]).result = .error (.shape ["n"] "boolean" "\x7b x \x7d") ∧
      (infer [test, list, object]).result =
        .ok [({ name := "n", array := true }, .object [({ name := "x" }, .leaf .any)])] ∧
      ¬ Fields.Agree (infer [test, object, list]).result (infer [test, list, object]).result := by
  intro n test object list
  exact ⟨.perm ((List.Perm.swap list object []).cons test), rfl, rfl, id⟩

end

end Stencil
