import Stencil.Proofs.Uses
import Stencil.Proofs.Ways

/-!
# Where conflicts are reported

A conflict of types or shapes names a place that at least two tags lead to (`infer_conflict`). The
place is seen from the root, except for two tags that clash inside a block, before the fields of the
block are joined with those around it: then it is seen from the block, and the path of the block is
missing in front (`infer_conflict_inside_block`).
-/

namespace Stencil

open Outcome Requirements

/-! ### Reported paths -/

def dropOptional : List Char → List Char
  | '?' :: cs => cs
  | cs => cs

def dropArray (cs : List Char) : List Char :=
  match cs.reverse with
  | ']' :: '[' :: rest => rest.reverse
  | _ => cs

/-- A component of a reported path without its marks: no `?` in front and no `[]` behind. -/
def bareName (component : String) : String :=
  String.ofList (dropArray (dropOptional component.toList))

namespace Conflict

/-- The names on the reported path. -/
def bareNames (c : Conflict) : List String := (Path.segmentsOf c.path.toList).map bareName

/-- The conflict is at a place inside `around` that at least two of the tags lead to. -/
structure LiesAt (around : List String) (us : List Use) (c : Conflict) : Prop where
  ne_nil : c.bareNames ≠ []
  two : 2 ≤ us.countP fun u => around ++ c.bareNames <+: u.path

end Conflict

section
variable {key : Key} {keys : List Key} {c : Conflict}

theorem toList_toString (key : Key) : key.toString.toList =
    (if key.optional then ['?'] else []) ++ key.name.toList ++
      (if key.array then ['[', ']'] else []) := by
  cases ho : key.optional <;> cases ha : key.array <;> simp [Key.toString, ho, ha]

theorem bareName_toString (h : Parser.IsWord key.name) : bareName key.toString = key.name := by
  obtain ⟨hne, hword⟩ := h
  have hne' : key.name.toList ≠ [] := by simpa using hne
  have hquery : '?' ∉ key.name.toList := fun hm => absurd (hword '?' hm) (by decide)
  have hbracket : ']' ∉ key.name.toList := fun hm => absurd (hword ']' hm) (by decide)
  have hopt : dropOptional key.toString.toList =
      key.name.toList ++ (if key.array then ['[', ']'] else []) := by
    rw [toList_toString, List.append_assoc]
    cases key.optional with
    | true => rfl
    | false =>
      obtain ⟨first, rest, hcs⟩ := List.exists_cons_of_ne_nil hne'
      rw [hcs] at hquery ⊢
      show dropOptional (first :: _) = first :: _
      unfold dropOptional
      split
      · rename_i heq
        cases heq
        exact absurd (List.mem_cons_self ..) hquery
      · rfl
  have harr : dropArray (key.name.toList ++ (if key.array then ['[', ']'] else [])) =
      key.name.toList := by
    cases key.array with
    | true => simp [dropArray]
    | false =>
      unfold dropArray
      split
      · rename_i rest heq
        have hmem : ']' ∈ key.name.toList.reverse := by
          rw [if_neg Bool.false_ne_true, List.append_nil] at heq
          exact heq ▸ List.mem_cons_self ..
        exact absurd (List.mem_reverse.mp hmem) hbracket
      · exact List.append_nil _
  rw [bareName, hopt, harr, String.ofList_toList]

theorem toString_spells (h : Parser.IsWord key.name) :
    key.toString ≠ "" ∧ '.' ∉ key.toString.toList := by
  have hdot : '.' ∉ key.name.toList := fun hm => absurd (h.2 '.' hm) (by decide)
  have hne : key.name.toList ≠ [] := by simpa using h.1
  refine ⟨fun he => hne ?_, ?_⟩
  · have hnil := congrArg String.toList he
    rw [toList_toString] at hnil
    exact (List.append_eq_nil_iff.mp (List.append_eq_nil_iff.mp hnil).1).2
  · rw [toList_toString]
    cases key.optional <;> cases key.array <;> simpa using hdot

theorem bareNames_eq (hc : c.names = keys.map Key.toString)
    (hw : ∀ k ∈ keys, Parser.IsWord k.name) : c.bareNames = keys.map Key.name := by
  have hspells : ∀ s ∈ c.names, s ≠ "" ∧ '.' ∉ s.toList := fun s hs => by
    rw [hc] at hs
    obtain ⟨key, hk, rfl⟩ := List.mem_map.mp hs
    exact toString_spells (hw key hk)
  rw [Conflict.bareNames, Conflict.path, Parser.segmentsOf_join hspells, hc, List.map_map]
  exact List.map_congr_left fun key hk => bareName_toString (hw key hk)

end

/-! ### Tags that lead to a place -/

/-- The number of tags, of those that start at the root or of the others, whose paths lead from
`around` along the names. -/
def leading (atRoot : Bool) (around : List String) (us : List Use) (names : List String) : Nat :=
  us.countP fun u => u.tag.atRoot == atRoot && decide (around ++ names <+: u.path)

/-- The fields have no more ways than there are tags. -/
structure Requirements.CountedBy (around : List String) (us : List Use) (r : Requirements) :
    Prop where
  here : ∀ names, r.here.ways names ≤ leading false around us names
  root : ∀ names, r.root.ways names ≤ leading true [] us names

section
variable {around : List String} {us vs : List Use} {r q r' : Requirements} {n : Node}
variable {ns : List Node} {u : Use} {fs gs out : Fields} {c : Conflict}

theorem leading_append {atRoot : Bool} (names : List String) :
    leading atRoot around (us ++ vs) names =
      leading atRoot around us names + leading atRoot around vs names := List.countP_append

theorem leading_le {atRoot : Bool} (names : List String) :
    leading atRoot around us names ≤ us.countP fun u => around ++ names <+: u.path :=
  List.countP_mono_left fun _ _ h => (Bool.and_eq_true_iff.mp h).2

/-- A tag leads to the places on its own path. -/
theorem leading_own (u : Use) (names : List String) :
    leading u.tag.atRoot u.around [u] names = if names <+: u.name.segments then 1 else 0 := by
  by_cases hp : names <+: u.name.segments <;>
    simp [leading, Use.path, List.prefix_append_right_inj, hp]

theorem Fields.ways_merge_le (h : fs.merge gs = .ok out) (names : List String) :
    out.ways names ≤ fs.ways names + gs.ways names := by
  have hm := Fields.counted_merge fs gs
  rw [h] at hm
  exact hm names

theorem Requirements.CountedBy.adds (hr : r.CountedBy around us) (hq : q.CountedBy around vs)
    (h : r.Adds q r') : r'.CountedBy around (us ++ vs) := by
  constructor
  · intro names
    rw [leading_append]
    exact Nat.le_trans (Fields.ways_merge_le h.here names) (Nat.add_le_add (hr.here _) (hq.here _))
  · intro names
    rw [leading_append]
    exact Nat.le_trans (Fields.ways_merge_le h.root names) (Nat.add_le_add (hr.root _) (hq.root _))

theorem Requirements.CountedBy.empty {dot : Bool} : CountedBy around us { dot } :=
  ⟨fun names => by simp [Fields.ways_empty], fun names => by simp [Fields.ways_empty]⟩

namespace Fields

/-- The names end on the chain, or go on in the shape at its end. -/
theorem ways_wrap_cases (optional array : Bool) (shape : Shape) {segments : List String}
    (hne : segments ≠ []) (names : List String) :
    (names <+: segments ∧ ways (wrap optional array shape segments) names ≤ 1) ∨
      (∃ rest, names = segments ++ rest ∧ rest ≠ [] ∧
        ways (wrap optional array shape segments) names = shape.ways rest) ∨
      ways (wrap optional array shape segments) names = 0 := by
  induction segments generalizing names with
  | nil => exact absurd rfl hne
  | cons segment segments ih =>
    cases names with
    | nil => exact .inr (.inr rfl)
    | cons name rest =>
      by_cases hn : segment = name
      · subst hn
        cases segments with
        | nil =>
          have hways : ways (wrap optional array shape [segment]) (segment :: rest) =
              shape.ways rest := by rw [wrap, ways_singleton, if_pos rfl]
          rw [hways]
          by_cases hr : rest = []
          · exact .inl ⟨by simp [hr], by rw [hr]; exact Nat.le_refl 1⟩
          · exact .inr (.inl ⟨rest, rfl, hr, rfl⟩)
        | cons second more =>
          have hways : ways (wrap optional array shape (segment :: second :: more))
              (segment :: rest) =
              (Shape.object (wrap optional array shape (second :: more))).ways rest := by
            rw [wrap, ways_singleton, if_pos rfl]
            exact List.cons_ne_nil _ _
          rw [hways]
          cases rest with
          | nil => exact .inl ⟨by simp, Nat.le_refl 1⟩
          | cons next rest =>
            rcases ih (List.cons_ne_nil _ _) (next :: rest) with ⟨hp, h⟩ | ⟨more', h, hne, hw⟩ | h
            · exact .inl ⟨List.cons_prefix_cons.mpr ⟨rfl, hp⟩, h⟩
            · exact .inr (.inl ⟨more', by rw [h]; rfl, hne, hw⟩)
            · exact .inr (.inr h)
      · refine .inr (.inr ?_)
        cases segments <;> exact (ways_singleton).trans (if_neg hn)

theorem ways_chain_le {name : Path} {optional array : Bool} {shape : Shape}
    (inside : List String → Nat)
    (h : chain name.segments optional array shape = .ok fs)
    (hshape : ∀ rest, rest ≠ [] → shape.ways rest ≤ inside (name.segments ++ rest))
    (names : List String) :
    fs.ways names ≤ (if names <+: name.segments then 1 else 0) + inside names := by
  rw [(chain_eq_ok.mp h).2]
  rcases ways_wrap_cases optional array shape name.segments_ne_nil names with
    ⟨hp, hw⟩ | ⟨rest, rfl, hne, hw⟩ | hw
  · rw [if_pos hp]
    exact Nat.le_trans hw (Nat.le_add_right _ _)
  · rw [hw]
    exact Nat.le_trans (hshape rest hne) (Nat.le_add_left _ _)
  · rw [hw]
    exact Nat.zero_le _

theorem ways_chain_leaf_le {optional : Bool} {l : Leaf}
    (h : chain u.name.segments optional false (.leaf l) = .ok fs) (names : List String) :
    fs.ways names ≤ leading u.tag.atRoot u.around [u] names := by
  rw [leading_own]
  refine ways_chain_le (fun _ => 0) h (fun rest hne => ?_) names
  obtain ⟨next, rest, rfl⟩ := List.exists_cons_of_ne_nil hne
  exact Nat.zero_le _

end Fields

theorem Requirements.CountedBy.blockShape (h : r.CountedBy around us) {names : List String}
    (hne : names ≠ []) : r.blockShape.1.ways names ≤ leading false around us names := by
  obtain ⟨name, rest, rfl⟩ := List.exists_cons_of_ne_nil hne
  have hle : r.blockShape.1.ways (name :: rest) ≤ r.here.ways (name :: rest) := by
    unfold Requirements.blockShape
    split
    · exact Nat.zero_le _
    · exact Nat.zero_le _
    · exact Nat.le_refl _
  exact Nat.le_trans hle (h.here _)

/-- What is inside a block adds to its own field. -/
theorem Requirements.CountedBy.block {inner : Requirements} {name : Path} {content : List Node}
    {optional : Bool}
    (h : inner.CountedBy (around ++ name.segments) (usesAll (around ++ name.segments) content))
    (hfs : Fields.chain name.segments optional inner.blockShape.2 inner.blockShape.1 = .ok fs) :
    CountedBy around (Node.uses around (.block name content optional))
      { here := fs, root := inner.root } := by
  let own : Use := ⟨around, name, .block content optional⟩
  show CountedBy around ([own] ++ usesAll own.path content) _
  constructor
  · intro names
    have hown : leading false around [own] names = _ := leading_own own names
    rw [leading_append, hown]
    refine Fields.ways_chain_le _ hfs (fun rest hne => ?_) names
    have hinside := h.blockShape hne
    rw [leading] at hinside ⊢
    rwa [← List.append_assoc]
  · intro names
    rw [leading_append]
    exact Nat.le_trans (h.root names) (Nat.le_add_left _ _)

theorem countedBy_requireAll_of_fragments
    (hns : ∀ n ∈ ns, ∀ q, n.fragment = .ok q → q.CountedBy around (n.uses around))
    (hr : r.CountedBy around us) (h : (requireAll r ns).result = .ok r') :
    r'.CountedBy around (us ++ usesAll around ns) := by
  induction ns generalizing r us with
  | nil => cases h; rwa [usesAll, List.append_nil]
  | cons n ns ih =>
    obtain ⟨hn, hns⟩ := List.forall_mem_cons.mp hns
    obtain ⟨q, hq, u, hadd, h⟩ := requireAll_cons_eq_ok.mp h
    rw [usesAll, ← List.append_assoc]
    exact ih hns (hr.adds (hn q hq) hadd) h

theorem countedBy_fragment (h : n.fragment = .ok q) : q.CountedBy around (n.uses around) := by
  induction n using Node.contentInduction generalizing around q with
  | text | comment | reference | dot => cases h; exact .empty
  | var name raw type scope =>
    cases scope with
    | context =>
      obtain ⟨fs, hfs, h⟩ := bind_eq_ok.mp h
      obtain ⟨l, hl, -⟩ := Fields.ofVariable_eq_ok.mp hfs
      cases h
      exact ⟨Fields.ways_chain_leaf_le (u := ⟨around, name, .var type .context⟩) hl,
        fun names => by simp [Fields.ways_empty]⟩
    | root =>
      obtain ⟨fs, hfs, h⟩ := bind_eq_ok.mp h
      obtain ⟨l, hl, -⟩ := Fields.ofVariable_eq_ok.mp hfs
      cases h
      exact ⟨fun names => by simp [Fields.ways_empty],
        Fields.ways_chain_leaf_le (u := ⟨[], name, .var type .root⟩) hl⟩
  | block name content optional ih =>
    obtain ⟨inner, hi, h⟩ := bind_eq_ok.mp h
    obtain ⟨fs, hfs, h⟩ := bind_eq_ok.mp h
    cases h
    have hinner : inner.CountedBy (around ++ name.segments)
        (usesAll (around ++ name.segments) content) :=
      countedBy_requireAll_of_fragments (fun m hm q hq => ih m hm hq)
        (.empty : CountedBy _ [] {}) hi
    exact .block hinner hfs
  | inverted name content =>
    obtain ⟨fs, hfs, h⟩ := bind_eq_ok.mp h
    cases h
    exact ⟨Fields.ways_chain_leaf_le (u := ⟨around, name, .inverted⟩) hfs,
      fun names => by simp [Fields.ways_empty]⟩

theorem countedBy_requireAll (hr : r.CountedBy around us)
    (h : (requireAll r ns).result = .ok r') : r'.CountedBy around (us ++ usesAll around ns) :=
  countedBy_requireAll_of_fragments (fun _ _ _ => countedBy_fragment) hr h

/-! ### Conflicts of a run -/

namespace Conflict

/-- As `LiesAt`, by the keys that the reported path is written with. -/
def MeetsAt (around : List String) (us : List Use) (c : Conflict) : Prop :=
  ∃ keys : List Key, keys ≠ [] ∧ c.names = keys.map Key.toString ∧
    2 ≤ us.countP fun u => around ++ keys.map Key.name <+: u.path

/-- What the content of one of the blocks fails with: the conflict is inside that block. -/
def InsideBlock (us : List Use) (c : Conflict) : Prop :=
  ∃ u ∈ us, ∃ content optional, u.tag = .block content optional ∧
    (requireAll {} content).result = .error c ∧ c.MeetsAt u.path (usesAll u.path content)

def Placed (around : List String) (us : List Use) (c : Conflict) : Prop :=
  c.MeetsAt around us ∨ c.MeetsAt [] us ∨ c.InsideBlock us

theorem MeetsAt.mono (h : c.MeetsAt around us) (hs : us.Sublist vs) : c.MeetsAt around vs := by
  obtain ⟨keys, hne, hc, hk⟩ := h
  exact ⟨keys, hne, hc, Nat.le_trans hk hs.countP_le⟩

theorem InsideBlock.mono (h : c.InsideBlock us) (hs : us.Sublist vs) : c.InsideBlock vs := by
  obtain ⟨u, hu, h⟩ := h
  exact ⟨u, hs.subset hu, h⟩

theorem Placed.mono (h : c.Placed around us) (hs : us.Sublist vs) : c.Placed around vs :=
  h.imp (·.mono hs) (Or.imp (·.mono hs) (·.mono hs))

theorem meetsAt_of_counted {given : List String → Nat} {size : Fields → List String → Nat}
    (h : Counted [] given size (.error c)) (hzero : given [] = 0)
    (hle : ∀ names, given names ≤ us.countP fun u => around ++ names <+: u.path) :
    c.MeetsAt around us := by
  obtain ⟨keys, hc, hk⟩ := h
  refine ⟨keys, ?_, hc, Nat.le_trans hk (hle _)⟩
  rintro rfl
  rw [List.map_nil, hzero] at hk
  cases hk

theorem meetsAt_of_merge (h : fs.merge gs = .error c)
    (hle : ∀ names, fs.ways names + gs.ways names ≤
      us.countP fun u => around ++ names <+: u.path) : c.MeetsAt around us := by
  have hm := Fields.counted_merge fs gs
  rw [h] at hm
  exact meetsAt_of_counted hm rfl hle

end Conflict

/-- The tags of the run itself and those at the root. -/
theorem leading_add_leading (names : List String) :
    leading false [] us names + leading true [] us names =
      us.countP fun u => [] ++ names <+: u.path := by
  induction us with
  | nil => rfl
  | cons u us ih =>
    simp only [leading, List.countP_cons] at ih ⊢
    cases u.tag.atRoot <;> simp_all <;> omega

theorem addHere_eq_error :
    (r.addHere fs).result = .error c ↔ r.here.merge fs = .error c := by
  rw [Requirements.addHere, Traced.result_bind, Traced.result_ofExcept, bind_eq_error]
  simp

theorem addRoot_eq_error :
    (r.addRoot fs).result = .error c ↔ r.root.merge fs = .error c := by
  rw [Requirements.addRoot, Traced.result_bind, Traced.result_ofExcept, bind_eq_error]
  simp

theorem chain_ne_error {segments : List String} {optional array : Bool} {shape : Shape}
    (hc : ∀ path segment, c ≠ .indexName path segment) :
    Fields.chain segments optional array shape ≠ .error c := by
  unfold Fields.chain
  split
  · rintro ⟨⟩
    exact hc _ _ rfl
  · exact nofun

theorem ofVariable_ne_error {name : Path} {type : Option ValueType}
    (hc : ∀ path segment, c ≠ .indexName path segment) :
    Fields.ofVariable name type ≠ .error c := by
  cases type <;> exact chain_ne_error hc

theorem meetsAt_of_leading {atRoot : Bool}
    (hf : ∀ names, fs.ways names ≤ leading atRoot around us names)
    (hg : ∀ names, gs.ways names ≤ leading atRoot around vs names) (h : fs.merge gs = .error c) :
    c.MeetsAt around (us ++ vs) := by
  refine Conflict.meetsAt_of_merge h fun names => ?_
  have hle : leading atRoot around (us ++ vs) names ≤ _ := leading_le names
  rw [leading_append] at hle
  exact Nat.le_trans (Nat.add_le_add (hf names) (hg names)) hle

/-! ### What a run fails with -/

theorem placed_of_requireAll_of_nodes
    (hns : ∀ n ∈ ns, ∀ {r us}, r.CountedBy around us → (n.require r).result = .error c →
      c.Placed around (us ++ n.uses around))
    (hr : r.CountedBy around us) (h : (requireAll r ns).result = .error c) :
    c.Placed around (us ++ usesAll around ns) := by
  induction ns generalizing r us with
  | nil => cases h
  | cons n ns ih =>
    obtain ⟨hn, hns⟩ := List.forall_mem_cons.mp hns
    rw [requireAll, Traced.result_bind, bind_eq_error] at h
    rw [usesAll, ← List.append_assoc]
    rcases h with h | ⟨r', hr', h⟩
    · exact (hn hr h).mono (List.sublist_append_left ..)
    · obtain ⟨q, hq, hadd⟩ := require_eq_ok.mp hr'
      exact ih hns (hr.adds (countedBy_fragment hq) hadd) h

theorem placed_of_require (hc : ∀ path segment, c ≠ .indexName path segment)
    (hr : r.CountedBy around us) (h : (n.require r).result = .error c) :
    c.Placed around (us ++ n.uses around) := by
  induction n using Node.contentInduction generalizing around r us with
  | text | comment | reference | dot => cases h
  | var name raw type scope =>
    simp only [Node.require, Traced.result_bind, Traced.result_ofExcept, Traced.result_write,
      bind_eq_error, reduceCtorEq, false_or, true_and, exists_const] at h
    obtain h | ⟨fs, hfs, h⟩ := h
    · exact absurd h (ofVariable_ne_error hc)
    cases scope with
    | context =>
      have hq : CountedBy around _ { here := fs } :=
        countedBy_fragment (n := .var name raw type .context) (bind_eq_ok.mpr ⟨fs, hfs, rfl⟩)
      exact .inl (meetsAt_of_leading hr.here hq.here (addHere_eq_error.mp h))
    | root =>
      have hq : CountedBy around _ { root := fs } :=
        countedBy_fragment (n := .var name raw type .root) (bind_eq_ok.mpr ⟨fs, hfs, rfl⟩)
      exact .inr (.inl (meetsAt_of_leading hr.root hq.root (addRoot_eq_error.mp h)))
  | block name content optional ih =>
    let own : Use := ⟨around, name, .block content optional⟩
    have hown : own ∈ us ++ own :: usesAll own.path content := by simp
    have hinside : (usesAll own.path content).Sublist (us ++ own :: usesAll own.path content) :=
      (List.sublist_cons_self ..).trans (List.sublist_append_right ..)
    simp only [Node.require, Traced.result_bind, Traced.result_ofExcept, Traced.result_write,
      bind_eq_error, addRoot_eq_error, addHere_eq_error, reduceCtorEq, false_or, true_and,
      exists_const] at h
    obtain hi | ⟨inner, hi, h | ⟨r', hr', h | ⟨fs, hfs, h⟩⟩⟩ := h
    · have hplaced : c.Placed own.path ([] ++ usesAll own.path content) :=
        placed_of_requireAll_of_nodes (fun m hm _ _ => ih m hm) .empty hi
      rcases hplaced with h | h | h
      · exact .inr (.inr ⟨own, hown, content, optional, rfl, hi, h⟩)
      · exact .inr (.inl (h.mono hinside))
      · exact .inr (.inr (h.mono hinside))
    · have hinner : inner.CountedBy own.path ([] ++ usesAll own.path content) :=
        countedBy_requireAll .empty hi
      have hplace := meetsAt_of_leading hr.root hinner.root h
      exact .inr (.inl (hplace.mono ((List.sublist_cons_self ..).append_left us)))
    · exact absurd h (chain_ne_error hc)
    · have hq : CountedBy around _ { here := fs, root := inner.root } := countedBy_fragment
        (n := .block name content optional)
        (bind_eq_ok.mpr ⟨inner, hi, bind_eq_ok.mpr ⟨fs, hfs, rfl⟩⟩)
      have hhere : r'.here = r.here := by
        have hmerge := (Fields.merge_nil r.here).symm.trans (addRoot_eq_ok.mp hr').here
        exact (Except.ok.inj hmerge).symm
      refine .inl (meetsAt_of_leading hr.here hq.here ?_)
      rwa [← hhere]
  | inverted name content =>
    rw [Node.require, Traced.result_bind, Traced.result_ofExcept, bind_eq_error] at h
    obtain h | ⟨fs, hfs, h⟩ := h
    · exact absurd h (chain_ne_error hc)
    have hq : CountedBy around _ { here := fs } :=
      countedBy_fragment (n := .inverted name content) (bind_eq_ok.mpr ⟨fs, hfs, rfl⟩)
    exact .inl (meetsAt_of_leading hr.here hq.here (addHere_eq_error.mp h))

theorem placed_of_infer (hc : ∀ path segment, c ≠ .indexName path segment)
    (h : (infer ns).result = .error c) : c.Placed [] (usesAll [] ns) := by
  rw [infer_eq, bind_eq_error] at h
  have hcollect : ∀ r, (requireAll {} ns).result = .ok r → ∀ names,
      r.here.ways names + r.root.ways names ≤
        (usesAll [] ns).countP fun u => [] ++ names <+: u.path := fun r hr names => by
    have hcounted : r.CountedBy [] ([] ++ usesAll [] ns) := countedBy_requireAll .empty hr
    rw [← leading_add_leading]
    exact Nat.add_le_add (hcounted.here names) (hcounted.root names)
  rcases h with h | ⟨merged, hm, h⟩
  · rw [collect, bind_eq_error] at h
    rcases h with h | ⟨r, hr, h⟩
    · exact placed_of_requireAll_of_nodes (fun n _ _ _ => placed_of_require hc)
        (.empty : CountedBy [] [] {}) h
    · exact .inl (Conflict.meetsAt_of_merge h (hcollect r hr))
  · obtain ⟨r, hr, hm⟩ := bind_eq_ok.mp hm
    have hsettle := Fields.counted_settle merged
    rw [h] at hsettle
    exact .inl (Conflict.meetsAt_of_counted hsettle rfl fun names =>
      Nat.le_trans (Fields.ways_merge_le hm names) (hcollect r hr names))

theorem Conflict.MeetsAt.liesAt (hw : ∀ u ∈ us, ∀ s ∈ u.path, Parser.IsWord s)
    (h : c.MeetsAt around us) : c.LiesAt around us := by
  obtain ⟨keys, hne, hc, hk⟩ := h
  obtain ⟨u, hu, hp⟩ := List.countP_pos_iff.mp (Nat.lt_of_lt_of_le Nat.zero_lt_two hk)
  have hnames : ∀ k ∈ keys, Parser.IsWord k.name := fun k hmem =>
    hw u hu _ ((of_decide_eq_true hp).subset
      (List.mem_append_right _ (List.mem_map_of_mem hmem)))
  have hbare := bareNames_eq hc hnames
  exact ⟨by rw [hbare]; simpa using hne, by rw [hbare]; exact hk⟩

/-- A clash of two uses is reported at a place that at least two tags lead to. The place is seen
from the root, unless the content of a block fails with this conflict: then it can be seen from the
block, and is that of two tags inside the block. -/
theorem infer_conflict (hw : ∀ u ∈ usesAll [] ns, ∀ s ∈ u.path, Parser.IsWord s)
    (hc : ∀ path segment, c ≠ .indexName path segment) (h : (infer ns).result = .error c) :
    c.LiesAt [] (usesAll [] ns) ∨
      ∃ u ∈ usesAll [] ns, ∃ content optional, u.tag = .block content optional ∧
        (requireAll {} content).result = .error c ∧ c.LiesAt u.path (usesAll u.path content) := by
  rcases placed_of_infer hc h with h | h | ⟨u, hu, content, optional, ht, hfail, hm⟩
  · exact .inl (h.liesAt hw)
  · exact .inl (h.liesAt hw)
  · refine .inr ⟨u, hu, content, optional, ht, hfail, hm.liesAt fun v hv => hw v ?_⟩
    obtain ⟨n, hn, hu⟩ := mem_usesAll_iff.mp hu
    exact mem_usesAll_iff.mpr ⟨n, hn, mem_uses_of_mem_content hu ht hv⟩

/-- Two blocks with one name, of which one holds a dotted path: the optional mark is reported. -/
theorem infer_conflict_site :
    let site : Path := ⟨["site"], by simp⟩
    let user : Path := ⟨["user"], by simp⟩
    let age : Path := ⟨["age"], by simp⟩
    let typed : Path → String → Node := fun name type =>
      .var name false (some ⟨[type], false⟩) .context
    let ns : List Node := [.block site [.block user [typed age "number"] false] true,
      .block site [typed (user ++ age) "string"] true]
    let c : Conflict := .scalar ["?site", "user", "age"] "number" "string"
    (∀ u ∈ usesAll [] ns, ∀ s ∈ u.path, Parser.IsWord s) ∧
      (∀ path segment, c ≠ .indexName path segment) ∧ (infer ns).result = .error c ∧
      c.bareNames = ["site", "user", "age"] ∧ c.LiesAt [] (usesAll [] ns) := by
  intro site user age typed ns c
  have hw : ∀ u ∈ usesAll [] ns, ∀ s ∈ u.path, Parser.IsWord s := by
    decide +kernel
  have hc : ∀ path segment, c ≠ .indexName path segment := nofun
  have h : (infer ns).result = .error c := by rfl
  refine ⟨hw, hc, h, by decide +kernel, (infer_conflict hw hc h).resolve_right ?_⟩
  -- the content of each block agrees in itself
  rintro ⟨u, hu, content, optional, htag, hfail, -⟩
  change u ∈ [_, _, _, _, _] at hu
  simp only [List.mem_cons, List.not_mem_nil, or_false] at hu
  rcases hu with rfl | rfl | rfl | rfl | rfl <;> cases htag <;> cases hfail

/-- Two tags that clash inside a block: the reported path starts at the block, and no tag lies
there when seen from the root. -/
theorem infer_conflict_inside_block :
    let user : Path := ⟨["user"], by simp⟩
    let age : Path := ⟨["age"], by simp⟩
    let typed : String → Node := fun type => .var age false (some ⟨[type], false⟩) .context
    let ns : List Node := [.block user [typed "number", typed "string"] false]
    let c : Conflict := .scalar ["age"] "number" "string"
    (infer ns).result = .error c ∧ (∀ u ∈ usesAll [] ns, ∀ s ∈ u.path, Parser.IsWord s) ∧
      c.bareNames = ["age"] ∧ ¬ c.LiesAt [] (usesAll [] ns) := by
  intro user age typed ns c
  have hnames : c.bareNames = ["age"] := by decide +kernel
  refine ⟨rfl, by decide +kernel, hnames, fun h => ?_⟩
  have htwo := h.two
  rw [hnames] at htwo
  exact absurd htwo (by decide)

end

end Stencil

