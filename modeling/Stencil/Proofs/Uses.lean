import Stencil.Proofs.Places

/-!
# The uses of data in a template

Inference looks at the tags outside inverted blocks: the `uses` of a template, each with the names
of the blocks around it. A property of marks that sums up holds at a place of the inferred fields
exactly if one of the uses asks for it there (`has_infer`).
-/

namespace Stencil

open Outcome Fields

/-- A tag that asks for data. -/
inductive Tag where
  | var (type : Option ValueType) (scope : Scope)
  | block (content : List Node) (optional : Bool)
  | inverted

namespace Node

def isDot : Node → Bool
  | dot _ => true
  | _ => false

/-- Whether the node is a tag whose path starts at the block around it. -/
def isLocal : Node → Bool
  | var _ _ _ .context | block .. | inverted .. => true
  | _ => false

end Node

namespace Tag

def atRoot : Tag → Bool
  | var _ .root => true
  | _ => false

def optional : Tag → Bool
  | var type _ => type.elim false ValueType.optional
  | block _ optional => optional
  | inverted => false

/-- Whether the tag is a block that prints its items. -/
def isList : Tag → Bool
  | block content _ => content.any Node.isDot
  | _ => false

/-- The leaf that the tag asks for; a block with fields of its own asks for an object. -/
def leaf : Tag → Option Leaf
  | var type _ => some (type.elim .any fun t => .of t.alternatives)
  | block content _ =>
    if content.any Node.isLocal then none
    else if content.any Node.isDot then some .any
    else some .boolean
  | inverted => some .boolean

def marks (t : Tag) : Marks := ⟨t.optional, t.isList, t.leaf⟩

end Tag

/-- A tag and its place in the template. -/
structure Use where
  /-- The names of the blocks around the tag; none if its path starts at the root. -/
  around : List String
  name : Path
  tag : Tag

namespace Use

def path (u : Use) : List String := u.around ++ u.name.segments

/-- The marks of a field that a path passes. -/
def passed : Marks := ⟨false, false, none⟩

/-- The first `names` of the tag's own path lead to the place. -/
structure LeadsTo (u : Use) (names path : List String) : Prop where
  ne_nil : names ≠ []
  own : names <+: u.name.segments
  path_eq : path = u.around ++ names

/-- The use asks for a field with such marks at the place: it passes it, or it ends there. -/
def Asks (u : Use) (Q : Marks → Prop) (path : List String) : Prop :=
  ∃ names, u.LeadsTo names path ∧ Q (if names = u.name.segments then u.tag.marks else passed)

end Use

mutual

/-- The tags of a node and of the nodes inside it, inside the blocks `around`. The content of an
inverted block is left out. -/
def Node.uses (around : List String) : Node → List Use
  | .var name _ type .context => [⟨around, name, .var type .context⟩]
  | .var name _ type .root => [⟨[], name, .var type .root⟩]
  | .block name content optional =>
    ⟨around, name, .block content optional⟩ :: usesAll (around ++ name.segments) content
  | .inverted name _ => [⟨around, name, .inverted⟩]
  | .text _ | .dot _ | .comment _ | .reference _ => []

def usesAll (around : List String) : List Node → List Use
  | [] => []
  | n :: ns => n.uses around ++ usesAll around ns

end

section
variable {Q : Marks → Prop} {around names path : List String} {n : Node} {ns : List Node} {u : Use}

theorem mem_usesAll_iff : u ∈ usesAll around ns ↔ ∃ n ∈ ns, u ∈ n.uses around := by
  induction ns with
  | nil => simp [usesAll]
  | cons n ns ih => simp [usesAll, ih]

theorem around_of_mem_uses (h : u ∈ n.uses around) :
    u.tag.atRoot = true ∧ u.around = [] ∨ u.tag.atRoot = false ∧ around <+: u.around := by
  induction n using Node.contentInduction generalizing around with
  | text | comment | reference | dot => cases h
  | var name raw type scope =>
    cases scope <;> cases List.mem_singleton.mp h
    · exact .inr ⟨rfl, List.prefix_rfl⟩
    · exact .inl ⟨rfl, rfl⟩
  | block name content optional ih =>
    rcases List.mem_cons.mp h with rfl | h
    · exact .inr ⟨rfl, List.prefix_rfl⟩
    · obtain ⟨m, hm, h⟩ := mem_usesAll_iff.mp h
      exact (ih m hm h).imp_right fun ⟨hr, hp⟩ => ⟨hr, (List.prefix_append ..).trans hp⟩
  | inverted name content =>
    cases List.mem_singleton.mp h
    exact .inr ⟨rfl, List.prefix_rfl⟩

/-- What is used inside a block is used in the template. -/
theorem mem_uses_of_mem_content {v : Use} {content : List Node} {optional : Bool}
    (h : u ∈ n.uses around) (ht : u.tag = .block content optional)
    (hv : v ∈ usesAll u.path content) : v ∈ n.uses around := by
  induction n using Node.contentInduction generalizing around with
  | text | comment | reference | dot => cases h
  | var name raw type scope => cases scope <;> cases List.mem_singleton.mp h <;> cases ht
  | inverted name content => cases List.mem_singleton.mp h; cases ht
  | block name content optional ih =>
    rcases List.mem_cons.mp h with rfl | h
    · cases ht
      exact List.mem_cons_of_mem _ hv
    · obtain ⟨m, hm, h⟩ := mem_usesAll_iff.mp h
      exact List.mem_cons_of_mem _ (mem_usesAll_iff.mpr ⟨m, hm, ih m hm h⟩)

/-! ### The fields along one path -/

theorem Fields.has_wrap_cons {optional array : Bool} {shape : Shape} {segment name : String}
    {segments rest : List String} :
    (Shape.object (wrap optional array shape (segment :: segments))).Has Q (name :: rest) ↔
      segment = name ∧
        if segments = [] then rest = [] ∧ Q ⟨optional, array, shape.leaf?⟩ ∨ shape.Has Q rest
        else rest = [] ∧ Q Use.passed ∨
          (Shape.object (wrap optional array shape segments)).Has Q rest := by
  cases segments <;> exact Shape.has_singleton_cons

theorem Fields.has_wrap {optional array : Bool} {shape : Shape} {segments : List String}
    (hne : segments ≠ []) : (Shape.object (wrap optional array shape segments)).Has Q names ↔
      (names ≠ [] ∧ names <+: segments ∧
          Q (if names = segments then ⟨optional, array, shape.leaf?⟩ else Use.passed)) ∨
        ∃ rest, names = segments ++ rest ∧ shape.Has Q rest := by
  induction segments generalizing names with
  | nil => exact absurd rfl hne
  | cons segment segments ih =>
    cases names with
    | nil => simp [Shape.not_has_nil]
    | cons name rest =>
      rw [has_wrap_cons]
      by_cases hn : segment = name
      · subst hn
        by_cases hs : segments = []
        · subst hs
          by_cases hr : rest = [] <;> simp [List.cons_prefix_cons, hr]
        · rw [if_neg hs, ih hs]
          by_cases hr : rest = []
          · simp [List.cons_prefix_cons, hr, hs, Ne.symm hs]
          · simp [List.cons_prefix_cons, hr]
      · simp [List.cons_prefix_cons, hn, Ne.symm hn]

theorem Fields.has_chain {optional array : Bool} {shape : Shape} {name : Path} {fs : Fields}
    (h : chain name.segments optional array shape = .ok fs) : (Shape.object fs).Has Q names ↔
      (names ≠ [] ∧ names <+: name.segments ∧
          Q (if names = name.segments then ⟨optional, array, shape.leaf?⟩ else Use.passed)) ∨
        ∃ rest, names = name.segments ++ rest ∧ shape.Has Q rest := by
  rw [(chain_eq_ok.mp h).2]
  exact has_wrap name.segments_ne_nil

theorem Use.asks_append_iff : u.Asks Q (u.around ++ names) ↔
    names ≠ [] ∧ names <+: u.name.segments ∧
      Q (if names = u.name.segments then u.tag.marks else passed) := by
  constructor
  · rintro ⟨names', ⟨hne, hp, heq⟩, hQ⟩
    cases List.append_cancel_left heq
    exact ⟨hne, hp, hQ⟩
  · rintro ⟨hne, hp, hQ⟩
    exact ⟨names, ⟨hne, hp, rfl⟩, hQ⟩

theorem Use.Asks.around_prefix (h : u.Asks Q path) : u.around <+: path := by
  obtain ⟨names, hn, -⟩ := h
  exact hn.path_eq ▸ List.prefix_append ..

/-! ### The uses of a run -/

/-- The uses that `r` is made of. -/
structure Requirements.MadeOf (Q : Marks → Prop) (around : List String) (us : List Use)
    (r : Requirements) : Prop where
  here : ∀ names, (Shape.object r.here).Has Q names ↔
    ∃ u ∈ us, u.tag.atRoot = false ∧ u.Asks Q (around ++ names)
  root : ∀ names, (Shape.object r.root).Has Q names ↔
    ∃ u ∈ us, u.tag.atRoot = true ∧ u.Asks Q names

theorem Shape.not_has_empty : ¬ (object []).Has Q names := by
  rintro ⟨g, h, -⟩
  cases h with
  | last hm => cases hm
  | step hm => cases hm

theorem Requirements.MadeOf.empty {d : Bool} : MadeOf Q around [] { dot := d } :=
  ⟨fun _ => by simp [Shape.not_has_empty], fun _ => by simp [Shape.not_has_empty]⟩

variable {us vs : List Use} {r q r' inner : Requirements}

theorem Requirements.MadeOf.adds (hQ : Sums Q) (hr : r.MadeOf Q around us)
    (hq : q.MadeOf Q around vs) (hru : r.UniqueKeys) (hqu : q.UniqueKeys) (h : r.Adds q r') :
    r'.MadeOf Q around (us ++ vs) := by
  have hhere := Fields.merge_eq_ok.mp h.here
  have hroot := Fields.merge_eq_ok.mp h.root
  constructor
  · intro names
    rw [Shape.has_merge hQ hru.here hqu.here hhere, hr.here, hq.here]
    simp [or_and_right, exists_or]
  · intro names
    rw [Shape.has_merge hQ hru.root hqu.root hroot, hr.root, hq.root]
    simp [or_and_right, exists_or]

theorem madeOf_requireAll_of_madeOf (hQ : Sums Q)
    (hns : ∀ n ∈ ns, ∀ q, n.fragment = .ok q → q.MadeOf Q around (n.uses around))
    (hr : r.UniqueKeys) (hus : r.MadeOf Q around us) (h : (requireAll r ns).result = .ok r') :
    r'.MadeOf Q around (us ++ usesAll around ns) := by
  induction ns generalizing r us with
  | nil => cases h; rwa [usesAll, List.append_nil]
  | cons n ns ih =>
    obtain ⟨hn, hns⟩ := List.forall_mem_cons.mp hns
    obtain ⟨q, hq, u, hadd, h⟩ := requireAll_cons_eq_ok.mp h
    have hqu := uniqueKeys_fragment hq
    rw [usesAll, ← List.append_assoc]
    exact ih hns (hadd.unique hr hqu) (hus.adds hQ (hn q hq) hr hqu hadd) h

theorem dot_fragment (h : n.fragment = .ok q) : q.dot = n.isDot := by
  cases n with
  | text | comment | reference | dot => cases h; rfl
  | var name raw type scope =>
    cases scope <;> obtain ⟨fs, -, h⟩ := bind_eq_ok.mp h <;> cases h <;> rfl
  | block name content optional =>
    obtain ⟨inner, -, h⟩ := bind_eq_ok.mp h
    obtain ⟨fs, -, h⟩ := bind_eq_ok.mp h
    cases h
    rfl
  | inverted name content =>
    obtain ⟨fs, -, h⟩ := bind_eq_ok.mp h
    cases h
    rfl

theorem dot_requireAll (h : (requireAll r ns).result = .ok r') :
    r'.dot = (r.dot || ns.any Node.isDot) := by
  induction ns generalizing r with
  | nil => cases h; simp
  | cons n ns ih =>
    obtain ⟨q, hq, u, hadd, h⟩ := requireAll_cons_eq_ok.mp h
    rw [ih h, hadd.dot, dot_fragment hq, List.any_cons, Bool.or_assoc]

theorem exists_local_use_iff (around : List String) (ns : List Node) :
    (∃ u ∈ usesAll around ns, u.tag.atRoot = false) ↔ ns.any Node.isLocal = true := by
  have hnode : ∀ n : Node, (∃ u ∈ n.uses around, u.tag.atRoot = false) ↔ n.isLocal = true := by
    intro n
    cases n with
    | var name raw type scope => cases scope <;> simp [Node.uses, Node.isLocal, Tag.atRoot]
    | _ => simp [Node.uses, Node.isLocal, Tag.atRoot]
  simp only [mem_usesAll_iff, List.any_eq_true, ← hnode]
  exact ⟨fun ⟨u, ⟨n, hn, hu⟩, hr⟩ => ⟨n, hn, u, hu, hr⟩,
    fun ⟨n, hn, u, hu, hr⟩ => ⟨u, ⟨n, hn, hu⟩, hr⟩⟩

/-- A run has fields of its own if one of its tags starts there. -/
theorem Requirements.MadeOf.here_ne_nil_iff
    (h : r.MadeOf (fun _ => True) around (usesAll around ns)) :
    r.here ≠ [] ↔ ns.any Node.isLocal = true := by
  rw [← exists_local_use_iff around]
  constructor
  · intro hne
    obtain ⟨f, hf⟩ := List.exists_mem_of_ne_nil _ hne
    obtain ⟨u, hu, hroot, -⟩ := (h.here [f.1.name]).mp ⟨f, .last hf, trivial⟩
    exact ⟨u, hu, hroot⟩
  · rintro ⟨u, hu, hroot⟩ hnil
    obtain ⟨m, -, hum⟩ := mem_usesAll_iff.mp hu
    obtain ⟨hroot', -⟩ | ⟨-, names, hnames⟩ := around_of_mem_uses hum
    · simp [hroot] at hroot'
    · have hasks : u.Asks (fun _ => True) (around ++ (names ++ u.name.segments)) := by
        rw [← List.append_assoc, hnames, Use.asks_append_iff]
        exact ⟨u.name.segments_ne_nil, List.prefix_rfl, trivial⟩
      have hhas := (h.here _).mpr ⟨u, hu, hroot, hasks⟩
      exact Shape.not_has_empty (hnil ▸ hhas)

theorem Requirements.array_blockShape : r.blockShape.2 = r.dot := by
  unfold blockShape
  split <;> simp_all

theorem Requirements.leaf?_blockShape : r.blockShape.1.leaf? =
    if r.here ≠ [] then none else if r.dot then some .any else some .boolean := by
  unfold blockShape
  split
  · simp_all [Shape.leaf?]
  · simp_all [Shape.leaf?]
  · rename_i h1 h2
    have hne : r.here ≠ [] := fun h => by cases hd : r.dot <;> simp_all
    rw [if_pos hne]
    rfl

theorem Requirements.has_blockShape :
    r.blockShape.1.Has Q names ↔ (Shape.object r.here).Has Q names := by
  unfold blockShape
  split
  · rename_i h; simp [h, Shape.not_has_leaf, Shape.not_has_empty]
  · rename_i h; simp [h, Shape.not_has_leaf, Shape.not_has_empty]
  · exact Iff.rfl

theorem Use.has_chain_leaf {optional : Bool} {l : Leaf} {fs : Fields}
    (hm : u.tag.marks = ⟨optional, false, some l⟩)
    (h : chain u.name.segments optional false (.leaf l) = .ok fs) :
    (Shape.object fs).Has Q names ↔ u.Asks Q (u.around ++ names) := by
  rw [has_chain h, asks_append_iff, hm]
  simp [Shape.not_has_leaf, Shape.leaf?]

theorem Requirements.madeOf_here {optional : Bool} {l : Leaf} {fs : Fields}
    (hr : u.tag.atRoot = false) (hm : u.tag.marks = ⟨optional, false, some l⟩)
    (h : chain u.name.segments optional false (.leaf l) = .ok fs) :
    MadeOf Q u.around [u] { here := fs } :=
  ⟨fun _ => by simp [Use.has_chain_leaf hm h, hr],
    fun _ => by simp [Shape.not_has_empty, hr]⟩

theorem Requirements.madeOf_root {optional : Bool} {l : Leaf} {fs : Fields}
    (hr : u.tag.atRoot = true) (hu : u.around = []) (hm : u.tag.marks = ⟨optional, false, some l⟩)
    (h : chain u.name.segments optional false (.leaf l) = .ok fs) :
    MadeOf Q around [u] { root := fs } :=
  ⟨fun _ => by simp [Shape.not_has_empty, hr],
    fun _ => by simp [Use.has_chain_leaf hm h, hr, hu]⟩

/-- The marks of a block tell what its content asks for. -/
theorem marks_block {content : List Node} {optional : Bool}
    (hi : (requireAll {} content).result = .ok inner)
    (h : inner.MadeOf (fun _ => True) around (usesAll around content)) :
    (Tag.block content optional).marks =
      ⟨optional, inner.blockShape.2, inner.blockShape.1.leaf?⟩ := by
  simp only [Requirements.array_blockShape, Requirements.leaf?_blockShape, dot_requireAll hi,
    Bool.false_or, h.here_ne_nil_iff]
  rfl

/-- A block asks for its own field and, inside it, for what its content asks for. -/
theorem Requirements.MadeOf.block {name : Path} {content : List Node} {optional : Bool}
    {fs : Fields} (hm : (Tag.block content optional).marks =
      ⟨optional, inner.blockShape.2, inner.blockShape.1.leaf?⟩)
    (h : inner.MadeOf Q (around ++ name.segments) (usesAll (around ++ name.segments) content))
    (hfs : chain name.segments optional inner.blockShape.2 inner.blockShape.1 = .ok fs) :
    MadeOf Q around (Node.uses around (.block name content optional))
      { here := fs, root := inner.root } := by
  let own : Use := ⟨around, name, .block content optional⟩
  have hown : own.tag.atRoot = false := rfl
  rw [show Node.uses around (.block name content optional) =
    own :: usesAll (around ++ name.segments) content from rfl]
  constructor
  · intro names
    have hasks : own.Asks Q (around ++ names) ↔ _ := Use.asks_append_iff
    rw [has_chain hfs, List.exists_mem_cons_iff, ← hm, hasks]
    refine or_congr ⟨fun h => ⟨hown, h⟩, fun h => h.2⟩ ?_
    constructor
    · rintro ⟨rest, rfl, hrest⟩
      rw [has_blockShape, h.here, List.append_assoc] at hrest
      exact hrest
    · rintro ⟨u, hu, hr, hask⟩
      obtain ⟨n, -, hun⟩ := mem_usesAll_iff.mp hu
      rcases around_of_mem_uses hun with ⟨hr', -⟩ | ⟨-, hp⟩
      · simp [hr] at hr'
      · obtain ⟨rest, hrest⟩ := hp.trans hask.around_prefix
        rw [List.append_assoc] at hrest
        cases List.append_cancel_left hrest
        refine ⟨rest, rfl, has_blockShape.mpr ((h.here rest).mpr ⟨u, hu, hr, ?_⟩)⟩
        rwa [List.append_assoc]
  · intro names
    rw [List.exists_mem_cons_iff, h.root]
    simp [hown]

/-- What a node asks for is made of its uses. -/
theorem madeOf_fragment (hQ : Sums Q) (h : n.fragment = .ok q) :
    q.MadeOf Q around (n.uses around) := by
  induction n using Node.contentInduction generalizing around q Q with
  | text | comment | reference | dot => cases h; exact .empty
  | var name raw type scope =>
    cases scope with
    | context =>
      obtain ⟨fs, hfs, h⟩ := bind_eq_ok.mp h
      obtain ⟨l, hl, rfl⟩ := ofVariable_eq_ok.mp hfs
      cases h
      exact Requirements.madeOf_here (u := ⟨around, name, .var type .context⟩) rfl rfl hl
    | root =>
      obtain ⟨fs, hfs, h⟩ := bind_eq_ok.mp h
      obtain ⟨l, hl, rfl⟩ := ofVariable_eq_ok.mp hfs
      cases h
      exact Requirements.madeOf_root (u := ⟨[], name, .var type .root⟩) rfl rfl rfl hl
  | block name content optional ih =>
    obtain ⟨inner, hi, h⟩ := bind_eq_ok.mp h
    obtain ⟨fs, hfs, h⟩ := bind_eq_ok.mp h
    cases h
    have hinner : ∀ {Q' : Marks → Prop}, Sums Q' → inner.MadeOf Q' (around ++ name.segments)
        (usesAll (around ++ name.segments) content) := fun hQ' =>
      madeOf_requireAll_of_madeOf hQ' (fun m hm q hq => ih m hm hQ' hq) .empty .empty hi
    exact .block (marks_block hi (hinner Sums.present)) (hinner hQ) hfs
  | inverted name content =>
    obtain ⟨fs, hfs, h⟩ := bind_eq_ok.mp h
    cases h
    exact Requirements.madeOf_here (u := ⟨around, name, .inverted⟩) rfl rfl hfs

/-- A property that sums up holds at a place of the inferred fields exactly if a use asks for it
there. -/
theorem has_infer (hQ : Sums Q) {fs : Fields} (h : (infer ns).result = .ok fs) :
    (Shape.object fs).Has Q path ↔ ∃ u ∈ usesAll [] ns, u.Asks Q path := by
  obtain ⟨r, merged, hr, hmerged, hfs⟩ := infer_eq_ok.mp h
  have hru := (bounds_of_requireAll .empty hr).1
  have hmade : r.MadeOf Q [] (usesAll [] ns) :=
    madeOf_requireAll_of_madeOf hQ (fun _ _ _ => madeOf_fragment hQ) .empty .empty hr
  have hmergedu := (least_merge hru.here hru.root).unique _ hmerged
  rw [has_settle hQ hmergedu hfs,
    Shape.has_merge hQ hru.here hru.root (Fields.merge_eq_ok.mp hmerged), hmade.here, hmade.root]
  constructor
  · rintro (⟨u, hu, -, hask⟩ | ⟨u, hu, -, hask⟩) <;> exact ⟨u, hu, hask⟩
  · rintro ⟨u, hu, hask⟩
    cases hr : u.tag.atRoot
    · exact .inl ⟨u, hu, hr, hask⟩
    · exact .inr ⟨u, hu, hr, hask⟩

end

end Stencil
