import Mathlib.Data.List.Induction
import Stencil.Proofs.NormalForm
import Stencil.Proofs.Uses

/-!
# The order of the root fields

The fields of the root stand in the order in which the template first names them: those that its
outermost tags name, then those that variables at the root name anywhere in it (`infer_names`).
Merging appends what is new and settling folds into the first key of a name, so neither moves a name
(`names_merge`, `names_settle`).
-/

namespace Stencil

open Outcome Fields

/-- The first step of the path. -/
def Path.first (p : Path) : String := p.segments.head p.segments_ne_nil

/-- The name that the tag puts among the fields around it. -/
def Node.ownName? : Node → Option String
  | .var name _ _ .context | .block name _ _ | .inverted name _ => some name.first
  | .var _ _ _ .root | .text _ | .dot _ | .comment _ | .reference _ => none

/-- The names that variables at the root put among the fields of the root. -/
def rootNames (us : List Use) : List String :=
  (us.filter fun u => u.tag.atRoot).map fun u => u.name.first

theorem rootNames_append (us vs : List Use) :
    rootNames (us ++ vs) = rootNames us ++ rootNames vs := by
  rw [rootNames, List.filter_append, List.map_append]
  rfl

/-! ### First occurrences -/

theorem eraseDups_append_of_eq {as bs : List String} (h : as.eraseDups = bs.eraseDups)
    (cs : List String) : (as ++ cs).eraseDups = (bs ++ cs).eraseDups := by
  have hmem : ∀ c, c ∈ as ↔ c ∈ bs := fun c => by
    rw [← List.mem_eraseDups, h, List.mem_eraseDups]
  have hnew : cs.removeAll as = cs.removeAll bs :=
    List.filter_congr fun c _ => by simp [hmem]
  rw [List.eraseDups_append, List.eraseDups_append, h, hnew]

theorem eraseDups_append_eraseDups (bs cs : List String) :
    (bs ++ cs.eraseDups).eraseDups = (bs ++ cs).eraseDups := by
  induction cs using List.reverseRecOn with
  | nil => rfl
  | append_singleton cs c ih =>
    rw [eraseDups_append_singleton, ← List.append_assoc]
    split
    · rename_i hc
      have hmem : c ∈ (bs ++ cs).eraseDups :=
        List.mem_eraseDups.mpr (List.mem_append_right bs (List.mem_eraseDups.mp hc))
      rw [ih, eraseDups_append_singleton, if_pos hmem]
    · rw [← List.append_assoc]
      exact eraseDups_append_of_eq ih [c]

theorem eraseDups_append_congr {as bs cs ds : List String} (h : as.eraseDups = bs.eraseDups)
    (h' : cs.eraseDups = ds.eraseDups) : (as ++ cs).eraseDups = (bs ++ ds).eraseDups := by
  rw [eraseDups_append_of_eq h, ← eraseDups_append_eraseDups, h', eraseDups_append_eraseDups]

/-! ### Merging keeps the order -/

namespace Fields

variable {fs gs out : Fields} {path : List String}

theorem names_set (fs : Fields) (key : Key) (s : Shape) :
    (names (fs.set key s)).eraseDups = (names fs ++ [key.name]).eraseDups := by
  have hkeys : (fs.set key s).keys = if key ∈ fs.keys then fs.keys else fs.keys ++ [key] :=
    Entries.keys_put key s fs
  rw [names_eq, names_eq, hkeys]
  split
  · rename_i hkey
    have hname : key.name ∈ (fs.keys.map Key.name).eraseDups :=
      List.mem_eraseDups.mpr (List.mem_map_of_mem hkey)
    rw [eraseDups_append_singleton, if_pos hname]
  · rw [List.map_append]
    rfl

theorem names_mergeInto (h : Shape.mergeInto path fs gs = .ok out) :
    (names out).eraseDups = (names fs ++ names gs).eraseDups := by
  induction gs generalizing fs with
  | nil =>
    cases h
    exact congrArg List.eraseDups (List.append_nil _).symm
  | cons g gs ih =>
    obtain ⟨s, -, h⟩ := Shape.mergeInto_cons_eq_ok.mp h
    rw [ih h, eraseDups_append_congr (names_set fs g.1 s) rfl, List.append_assoc]
    rfl

theorem names_merge (h : fs.merge gs = .ok out) :
    (names out).eraseDups = (names fs ++ names gs).eraseDups :=
  names_mergeInto h

theorem names_chain {optional array : Bool} {shape : Shape} {name : Path}
    (h : chain name.segments optional array shape = .ok fs) : names fs = [name.first] := by
  obtain ⟨-, rfl⟩ := chain_eq_ok.mp h
  obtain ⟨segments, hne⟩ := name
  match segments, hne with
  | [_], _ => rfl
  | _ :: _ :: _, _ => rfl

end Fields

/-! ### What a run names -/

section
variable {around own own' : List String} {us vs : List Use} {r r' q : Requirements} {n : Node}
variable {ns : List Node} {fs : Fields}

namespace Requirements

/-- The fields are named in this order, those of the root by these uses. -/
structure NamedBy (r : Requirements) (own : List String) (us : List Use) : Prop where
  here : (names r.here).eraseDups = own.eraseDups
  root : (names r.root).eraseDups = (rootNames us).eraseDups

theorem NamedBy.empty : NamedBy {} [] [] := ⟨rfl, rfl⟩

theorem NamedBy.adds (hr : r.NamedBy own us) (hq : q.NamedBy own' vs) (h : r.Adds q r') :
    r'.NamedBy (own ++ own') (us ++ vs) where
  here := (names_merge h.here).trans (eraseDups_append_congr hr.here hq.here)
  root := by
    rw [names_merge h.root, rootNames_append]
    exact eraseDups_append_congr hr.root hq.root

end Requirements

theorem namedBy_requireAll_of_fragments
    (hns : ∀ n ∈ ns, ∀ q, n.fragment = .ok q → q.NamedBy n.ownName?.toList (n.uses around))
    (hr : r.NamedBy own us) (h : (requireAll r ns).result = .ok r') :
    r'.NamedBy (own ++ ns.filterMap Node.ownName?) (us ++ usesAll around ns) := by
  induction ns generalizing r own us with
  | nil =>
    cases h
    rwa [usesAll, List.append_nil, List.filterMap_nil, List.append_nil]
  | cons n ns ih =>
    obtain ⟨hn, hns⟩ := List.forall_mem_cons.mp hns
    obtain ⟨q, hq, u, hadd, h⟩ := requireAll_cons_eq_ok.mp h
    have hrest := ih hns (hr.adds (hn q hq) hadd) h
    rw [usesAll, ← List.append_assoc]
    cases hown : n.ownName? with
    | none =>
      rw [hown, Option.toList_none, List.append_nil] at hrest
      rwa [List.filterMap_cons_none hown]
    | some name =>
      rw [hown, Option.toList_some, List.append_assoc] at hrest
      rwa [List.filterMap_cons_some hown]

theorem namedBy_fragment (h : n.fragment = .ok q) :
    q.NamedBy n.ownName?.toList (n.uses around) := by
  induction n using Node.contentInduction generalizing around q with
  | text | comment | reference | dot => cases h; exact ⟨rfl, rfl⟩
  | var name raw type scope =>
    cases scope with
    | context =>
      obtain ⟨fs, hfs, h⟩ := bind_eq_ok.mp h
      obtain ⟨l, hl, -⟩ := ofVariable_eq_ok.mp hfs
      cases h
      exact ⟨congrArg _ (names_chain hl), rfl⟩
    | root =>
      obtain ⟨fs, hfs, h⟩ := bind_eq_ok.mp h
      obtain ⟨l, hl, -⟩ := ofVariable_eq_ok.mp hfs
      cases h
      exact ⟨rfl, congrArg _ (names_chain hl)⟩
  | block name content optional ih =>
    obtain ⟨inner, hi, h⟩ := bind_eq_ok.mp h
    obtain ⟨fs, hfs, h⟩ := bind_eq_ok.mp h
    cases h
    have hinner : inner.NamedBy (content.filterMap Node.ownName?)
        (usesAll (around ++ name.segments) content) :=
      namedBy_requireAll_of_fragments (fun m hm q hq => ih m hm hq) .empty hi
    exact ⟨congrArg _ (names_chain hfs), hinner.root⟩
  | inverted name content =>
    obtain ⟨fs, hfs, h⟩ := bind_eq_ok.mp h
    cases h
    exact ⟨congrArg _ (names_chain hfs), rfl⟩

/-- The names of the root fields, in their order: those of the outermost tags whose paths start at
the data around them, as they come in the template, then those of the variables at the root outside
inverted blocks, at any depth; each where it comes first. -/
theorem infer_names (h : (infer ns).result = .ok fs) :
    names fs = (ns.filterMap Node.ownName? ++ rootNames (usesAll [] ns)).eraseDups := by
  obtain ⟨r, merged, hr, hm, hs⟩ := infer_eq_ok.mp h
  have hnamed : r.NamedBy (ns.filterMap Node.ownName?) (usesAll [] ns) :=
    namedBy_requireAll_of_fragments (fun _ _ _ => namedBy_fragment) .empty hr
  rw [names_settle hs, names_merge hm, eraseDups_append_congr hnamed.here hnamed.root]

/-- What a block asks for from the root comes behind the tags that follow the block. The second key
for the title is folded into the first one, and nothing is taken from the inverted block. -/
theorem infer_names_page :
    let title : Path := ⟨["title"], by simp⟩
    let user : Path := ⟨["user"], by simp⟩
    let userName : Path := ⟨["user", "name"], by simp⟩
    let lang : Path := ⟨["site", "lang"], by simp⟩
    let guest : Path := ⟨["guest"], by simp⟩
    let hint : Path := ⟨["hint"], by simp⟩
    let ns : List Node :=
      [.var title false (some ⟨[], true⟩) .context,
        .block user [.var lang false none .root, .var title false none .root, .dot false] false,
        .inverted guest [.var hint false none .root], .var userName false none .context]
    ∃ fs, (infer ns).result = .ok fs ∧ names fs = ["title", "user", "guest", "site"] := by
  intro title user userName lang guest hint ns
  have hsome : ∃ fs, (infer ns).result = .ok fs := ⟨_, rfl⟩
  obtain ⟨fs, h⟩ := hsome
  exact ⟨fs, h, infer_names h⟩

end

end Stencil
