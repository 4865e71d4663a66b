import Stencil.Proofs.DocumentOrder
import Stencil.Proofs.IndexNames
import Stencil.Proofs.JointMerge

/-!
# When the tags of a template agree mark by mark

Before its fields are settled, a template keeps keys of one name with different marks apart. Each
tag outside inverted blocks then asks for one field along a chain of marked keys: its `Demand`.
What the template asks for is the least that meets all demands (`least_collect_demands`). It can be
collected exactly if no tag has an index in its path and no tag asks for types where another one, by
the same marked keys, leads to something else (`exists_collect_iff`).
-/

namespace Stencil

open Outcome Fields

/-- The keys along a path, of which only the last is marked. -/
def Fields.keysAlong (optional array : Bool) : List String → List Key
  | [] => []
  | [last] => [{ name := last, optional, array }]
  | segment :: rest => { name := segment } :: keysAlong optional array rest

/-- The least shape that is a leaf, or an object if no leaf is given. -/
def Shape.least : Option Leaf → Shape
  | some l => .leaf l
  | none => .object []

/-- A tag and the keys that lead to it. -/
structure Demand where
  /-- The keys of the blocks around the tag; none if its path starts at the root. -/
  around : List Key
  name : Path
  tag : Tag

namespace Demand

def keys (d : Demand) : List Key :=
  d.around ++ keysAlong d.tag.optional d.tag.isList d.name.segments

/-- The one field that the tag asks for, from the root down. -/
def shape (d : Demand) : Shape := (Shape.least d.tag.leaf).along d.keys

/-- The fields have what the tag asks for, and its path can be followed by names alone. -/
def MetBy (u : Fields) (d : Demand) : Prop :=
  (∀ segment ∈ d.name.segments, looksLikeIndex segment = false) ∧ d.shape.Below (.object u)

/-- `d` asks for types at a place that `e` leads through, or where `e` asks for something else. -/
def Clashes (d e : Demand) : Prop :=
  (d.tag.leaf ≠ none ∧ d.tag.leaf ≠ some .any) ∧ d.keys <+: e.keys ∧
    (d.keys = e.keys → e.tag.leaf ≠ some .any ∧ e.tag.leaf ≠ d.tag.leaf)

instance (d e : Demand) : Decidable (d.Clashes e) := inferInstanceAs (Decidable (_ ∧ _))

end Demand

mutual

/-- What the tags of a node and of the nodes inside it ask for, behind the keys `around`. The
content of an inverted block is left out. -/
def Node.demands (around : List Key) : Node → List Demand
  | .var name _ type .context => [⟨around, name, .var type .context⟩]
  | .var name _ type .root => [⟨[], name, .var type .root⟩]
  | .block name content optional =>
    let own : Demand := ⟨around, name, .block content optional⟩
    own :: demandsAll own.keys content
  | .inverted name _ => [⟨around, name, .inverted⟩]
  | .text _ | .dot _ | .comment _ | .reference _ => []

def demandsAll (around : List Key) : List Node → List Demand
  | [] => []
  | n :: ns => n.demands around ++ demandsAll around ns

end

/-- The tags agree mark by mark: none has an index in its path, and no two of them clash. -/
structure MarksAgree (ns : List Node) : Prop where
  names : ∀ d ∈ demandsAll [] ns, ∀ segment ∈ d.name.segments, ¬ IsIndex segment
  leaves : ∀ d ∈ demandsAll [] ns, ∀ e ∈ demandsAll [] ns, ¬ d.Clashes e

section
variable {around : List Key} {n : Node} {ns : List Node} {d e : Demand}
variable {u here fs : Fields} {v r : Requirements} {s t : Shape}

theorem mem_demandsAll_iff : d ∈ demandsAll around ns ↔ ∃ n ∈ ns, d ∈ n.demands around := by
  induction ns with
  | nil => simp [demandsAll]
  | cons n ns ih => simp [demandsAll, ih]

/-! ### One field along a path -/

theorem Fields.keysAlong_ne_nil {optional array : Bool} {segments : List String}
    (h : segments ≠ []) : keysAlong optional array segments ≠ [] := by
  cases segments with
  | nil => exact absurd rfl h
  | cons segment rest => cases rest <;> exact List.cons_ne_nil _ _

theorem Demand.keys_ne_nil (d : Demand) : d.keys ≠ [] :=
  List.append_ne_nil_of_right_ne_nil _ (keysAlong_ne_nil d.name.segments_ne_nil)

theorem Fields.object_wrap {optional array : Bool} {segments : List String} (h : segments ≠ []) :
    Shape.object (wrap optional array s segments) = s.along (keysAlong optional array segments) := by
  induction segments with
  | nil => exact absurd rfl h
  | cons segment rest ih =>
    cases rest with
    | nil => rfl
    | cons second rest =>
      show Shape.object [({ name := segment }, .object (wrap optional array s (second :: rest)))] = _
      rw [ih (List.cons_ne_nil _ _)]
      rfl

/-- Inside the fields that the keys `around` lead to, a path asks for what it asks for from the
root behind those keys. -/
theorem Fields.chain_below_iff {name : Path} {optional array : Bool}
    (hu : (Shape.object u).follow around = some (.object here)) :
    (∃ fs, chain name.segments optional array s = .ok fs ∧ fs.Below here) ↔
      (∀ segment ∈ name.segments, looksLikeIndex segment = false) ∧
        (s.along (around ++ keysAlong optional array name.segments)).Below (.object u) := by
  have hbelow : (wrap optional array s name.segments).Below here ↔
      (s.along (around ++ keysAlong optional array name.segments)).Below (.object u) := by
    rw [Fields.Below, object_wrap name.segments_ne_nil, Shape.along_below_iff,
      Shape.along_below_iff, Shape.follow_append, hu, Option.bind_some]
  rw [← hbelow]
  constructor
  · rintro ⟨fs, hfs, hle⟩
    obtain ⟨hnames, rfl⟩ := chain_eq_ok.mp hfs
    exact ⟨hnames, hle⟩
  · rintro ⟨hnames, hle⟩
    exact ⟨_, chain_eq_ok.mpr ⟨hnames, rfl⟩, hle⟩

/-! ### What each node asks for -/

theorem Fields.nil_below (fs : Fields) : Fields.Below [] fs := .object nofun nofun

theorem Requirements.here_below_iff : Below { here := fs } v ↔ fs.Below v.here :=
  ⟨Below.here, fun h => ⟨h, nil_below _, nofun⟩⟩

theorem Requirements.root_below_iff : Below { root := fs } v ↔ fs.Below v.root :=
  ⟨Below.root, fun h => ⟨nil_below _, h, nofun⟩⟩

theorem Fields.ofVariable_eq_chain (name : Path) (type : Option ValueType) :
    ofVariable name type = chain name.segments (type.elim false ValueType.optional) false
      (.leaf (type.elim .any fun t => .of t.alternatives)) := by
  cases type <;> rfl

theorem asks_var_iff {name : Path} {raw : Bool} {type : Option ValueType} {scope : Scope} :
    (Node.var name raw type scope).Asks v ↔
      ∃ fs, chain name.segments (type.elim false ValueType.optional) false
        (.leaf (type.elim .any fun t => .of t.alternatives)) = .ok fs ∧
          fs.Below (match scope with
            | .context => v.here
            | .root => v.root) := by
  rw [← ofVariable_eq_chain]
  cases scope with
  | context =>
    exact exists_bind_ok_iff.trans
      (exists_congr fun _ => and_congr_right fun _ => Requirements.here_below_iff)
  | root =>
    exact exists_bind_ok_iff.trans
      (exists_congr fun _ => and_congr_right fun _ => Requirements.root_below_iff)

theorem asks_inverted_iff {name : Path} {content : List Node} :
    (Node.inverted name content).Asks v ↔
      ∃ fs, chain name.segments false false (.leaf .boolean) = .ok fs ∧ fs.Below v.here :=
  exists_bind_ok_iff.trans
    (exists_congr fun _ => and_congr_right fun _ => Requirements.here_below_iff)

/-- The value of a block is a leaf or an object as its marks say, with the fields of its content. -/
theorem Requirements.blockShape_below_iff : r.blockShape.1.Below t ↔
    (Shape.least r.blockShape.1.leaf?).Below t ∧ r.here.Below t.fields := by
  unfold blockShape
  split
  · rename_i hnil
    exact ⟨fun h => ⟨h, hnil ▸ nil_below _⟩, And.left⟩
  · rename_i hnil
    exact ⟨fun h => ⟨h, hnil ▸ nil_below _⟩, And.left⟩
  · constructor
    · intro h
      cases t with
      | leaf => cases h
      | object gs => exact ⟨nil_below gs, h⟩
    · rintro ⟨hobject, h⟩
      cases t with
      | leaf => cases hobject
      | object gs => exact h

/-- Whether a block is a list, and what leaf or object it asks for, can be seen from its content. -/
theorem Requirements.blockShape_of_requireAll {content : List Node} (optional : Bool)
    (hr : (requireAll {} content).result = .ok r) :
    r.blockShape.2 = (Tag.block content optional).isList ∧
      r.blockShape.1.leaf? = (Tag.block content optional).leaf := by
  have hmade : r.MadeOf (fun _ => True) [] (usesAll [] content) :=
    madeOf_requireAll_of_madeOf Sums.present (fun _ _ _ => madeOf_fragment Sums.present)
      .empty .empty hr
  have hmarks : (Tag.block content optional).marks = _ := marks_block hr hmade
  exact ⟨congrArg Marks.array hmarks.symm, congrArg Marks.leaf hmarks.symm⟩

/-- Requirements have what a run asks for exactly if they have what each of its nodes asks for. -/
theorem requireAll_below_iff : (∃ inner, (requireAll {} ns).result = .ok inner ∧ inner.Below v) ↔
    ∀ n ∈ ns, n.Asks v := by
  constructor
  · rintro ⟨inner, hi, hv⟩ n hn
    obtain ⟨q, hq, hle⟩ := (bounds_of_requireAll .empty hi).2.2 n hn
    exact ⟨q, hq, hle.trans hv⟩
  · exact fun h => requireAll_least .empty ⟨.empty v, h⟩

theorem Demand.metBy_iff : d.MetBy u ↔
    (∀ segment ∈ d.name.segments, looksLikeIndex segment = false) ∧
      ∃ t, (Shape.object u).follow d.keys = some t ∧ (Shape.least d.tag.leaf).Below t :=
  and_congr_right fun _ => Shape.along_below_iff

/-- A block asks for its own field, and of the shape that it finds there for what its content asks
for. -/
theorem asks_block_iff {own : Demand} {content : List Node} {optional : Bool}
    (ht : own.tag = .block content optional)
    (hu : (Shape.object u).follow own.around = some (.object here)) :
    (Node.block own.name content optional).Asks ⟨here, u, true⟩ ↔ own.MetBy u ∧
      ∃ t, (Shape.object u).follow own.keys = some t ∧
        ∀ n ∈ content, n.Asks ⟨t.fields, u, true⟩ := by
  have hmarks : ∀ inner, (requireAll {} content).result = .ok inner →
      keysAlong optional inner.blockShape.2 = keysAlong own.tag.optional own.tag.isList ∧
        inner.blockShape.1.leaf? = own.tag.leaf := fun inner hi => by
    obtain ⟨harray, hleaf⟩ := Requirements.blockShape_of_requireAll optional hi
    rw [ht, harray]
    exact ⟨rfl, hleaf⟩
  rw [Demand.metBy_iff]
  constructor
  · rintro ⟨q, hq, hle⟩
    obtain ⟨inner, hi, hq⟩ := bind_eq_ok.mp hq
    obtain ⟨fs, hfs, hq⟩ := bind_eq_ok.mp hq
    cases hq
    obtain ⟨hkeys, hleaf⟩ := hmarks inner hi
    obtain ⟨hnames, halong⟩ := (chain_below_iff hu).mp ⟨fs, hfs, hle.here⟩
    rw [hkeys] at halong
    obtain ⟨t, hfollow, hbelow⟩ := Shape.along_below_iff.mp halong
    obtain ⟨hleast, hhere⟩ := Requirements.blockShape_below_iff.mp hbelow
    exact ⟨⟨hnames, t, hfollow, hleaf ▸ hleast⟩, t, hfollow,
      requireAll_below_iff.mp ⟨inner, hi, hhere, hle.root, fun _ => rfl⟩⟩
  · rintro ⟨⟨hnames, t, hfollow, hleast⟩, t', hfollow', hcontent⟩
    cases hfollow.symm.trans hfollow'
    obtain ⟨inner, hi, hle⟩ := requireAll_below_iff.mpr hcontent
    obtain ⟨hkeys, hleaf⟩ := hmarks inner hi
    have hbelow : inner.blockShape.1.Below t :=
      Requirements.blockShape_below_iff.mpr ⟨hleaf ▸ hleast, hle.here⟩
    have hfollow : (Shape.object u).follow (own.around ++
        keysAlong optional inner.blockShape.2 own.name.segments) = some t := by
      rw [hkeys]
      exact hfollow
    obtain ⟨fs, hfs, hfsu⟩ := (chain_below_iff hu).mpr
      ⟨hnames, Shape.along_below_iff.mpr ⟨t, hfollow, hbelow⟩⟩
    exact ⟨_, bind_eq_ok.mpr ⟨inner, hi, bind_eq_ok.mpr ⟨fs, hfs, rfl⟩⟩, hfsu, hle.root, nofun⟩

/-- A node asks for what its demands ask for. The fields `here` are those that the keys `around` lead
to; only tags with a path that starts there need them. -/
theorem asks_iff (hu : n.isLocal = true → (Shape.object u).follow around = some (.object here)) :
    n.Asks ⟨here, u, true⟩ ↔ ∀ d ∈ n.demands around, d.MetBy u := by
  induction n using Node.contentInduction generalizing around here with
  | text | comment | reference => exact ⟨fun _ => nofun, fun _ => ⟨_, rfl, .empty _⟩⟩
  | dot raw => exact ⟨fun _ => nofun, fun _ => ⟨_, rfl, nil_below _, nil_below _, fun _ => rfl⟩⟩
  | var name raw type scope =>
    cases scope with
    | context =>
      rw [Node.demands, List.forall_mem_singleton, asks_var_iff]
      exact chain_below_iff (hu rfl)
    | root =>
      rw [Node.demands, List.forall_mem_singleton, asks_var_iff]
      exact chain_below_iff (Shape.follow_nil _)
  | block name content optional ih =>
    let own : Demand := ⟨around, name, .block content optional⟩
    rw [Node.demands, List.forall_mem_cons]
    have hblock : (Node.block own.name content optional).Asks ⟨here, u, true⟩ ↔ own.MetBy u ∧ _ :=
      asks_block_iff rfl (hu rfl)
    refine hblock.trans (and_congr_right fun hown => ?_)
    obtain ⟨-, t, hfollow, hleast⟩ := Demand.metBy_iff.mp hown
    -- a tag of the content that starts there makes the value of the block an object
    have hlocal : ∀ m ∈ content, m.isLocal = true →
        (Shape.object u).follow own.keys = some (.object t.fields) := by
      intro m hm hl
      rw [show own.tag.leaf = none from if_pos (List.any_eq_true.mpr ⟨m, hm, hl⟩)] at hleast
      cases t with
      | leaf => cases hleast
      | object gs => exact hfollow
    have hcontent : (∀ m ∈ content, m.Asks ⟨t.fields, u, true⟩) ↔
        ∀ d ∈ demandsAll own.keys content, d.MetBy u := by
      simp only [mem_demandsAll_iff]
      exact ⟨fun h d ⟨m, hm, hd⟩ => (ih m hm (hlocal m hm)).mp (h m hm) d hd,
        fun h m hm => (ih m hm (hlocal m hm)).mpr fun d hd => h d ⟨m, hm, hd⟩⟩
    rw [← hcontent]
    constructor
    · rintro ⟨t', hfollow', h⟩
      cases hfollow.symm.trans hfollow'
      exact h
    · exact fun h => ⟨t, hfollow, h⟩
  | inverted name content =>
    rw [Node.demands, List.forall_mem_singleton, asks_inverted_iff]
    exact chain_below_iff (hu rfl)

/-- What a template asks for before it is settled is the least that meets all its demands. -/
theorem least_collect_demands (ns : List Node) :
    Fields.Least (fun u => ∀ d ∈ demandsAll [] ns, d.MetBy u) (collect ns) := by
  refine (least_collect ns).congr fun u => ?_
  have hnode : ∀ n ∈ ns, (n.Asks ⟨u, u, true⟩ ↔ ∀ d ∈ n.demands [], d.MetBy u) := fun n _ =>
    asks_iff fun _ => Shape.follow_nil _
  simp only [mem_demandsAll_iff]
  exact ⟨fun h d ⟨n, hn, hd⟩ => (hnode n hn).mp (h.2 n hn) d hd,
    fun h => ⟨.empty _, fun n hn => (hnode n hn).mpr fun d hd => h d ⟨n, hn, hd⟩⟩⟩

/-! ### Demands that can be met together -/

theorem Shape.fields_least (l : Option Leaf) : (least l).fields = [] := by cases l <;> rfl

theorem Shape.leaf?_least (l : Option Leaf) : (least l).leaf? = l := by cases l <;> rfl

theorem Shape.uniqueKeys_least (l : Option Leaf) : (least l).UniqueKeys := by
  cases l with
  | none => exact Fields.UniqueKeys.nil
  | some l => exact .leaf l

/-- What a clash sets against each other: fields that meet a demand for types have nothing else, and
nothing more, at its place. -/
theorem Demand.not_clashes_of_metBy (hd : d.MetBy u) (he : e.MetBy u) : ¬ d.Clashes e := by
  rintro ⟨⟨hnone, hany⟩, ⟨rest, hrest⟩, hdiffers⟩
  obtain ⟨-, s, hs, hds⟩ := metBy_iff.mp hd
  obtain ⟨-, t, ht, het⟩ := metBy_iff.mp he
  rw [← hrest, Shape.follow_append, hs, Option.bind_some] at ht
  cases hl : d.tag.leaf with
  | none => exact hnone hl
  | some l =>
    cases l with
    | any => exact hany hl
    | oneOf types =>
      rw [hl] at hds hdiffers
      cases hds
      obtain ⟨rfl, rfl⟩ := Shape.follow_of_fields_eq_nil rfl ht
      rw [List.append_nil] at hrest
      obtain ⟨hopen, hsame⟩ := hdiffers hrest
      cases hel : e.tag.leaf with
      | none => rw [hel] at het; cases het
      | some l =>
        rw [hel] at het
        cases het with
        | any => exact hopen hel
        | oneOf => exact hsame hel

/-- Where `d` ends and `e` leads to, the two agree. -/
theorem Demand.agree_of_append {rest : List Key} (h : ¬ d.Clashes e) (h' : ¬ e.Clashes d)
    (hkeys : e.keys = d.keys ++ rest) :
    d.tag.leaf = some .any ∨ ((Shape.least e.tag.leaf).along rest).leaf? = some .any ∨
      d.tag.leaf = ((Shape.least e.tag.leaf).along rest).leaf? := by
  by_contra hall
  obtain ⟨hany, hall⟩ := not_or.mp hall
  obtain ⟨hany', hne⟩ := not_or.mp hall
  cases rest with
  | nil =>
    rw [List.append_nil] at hkeys
    rw [Shape.along, Shape.leaf?_least] at hany' hne
    by_cases hnone : d.tag.leaf = none
    · exact h' ⟨⟨fun hn => hne (hnone.trans hn.symm), hany'⟩, hkeys ▸ List.prefix_rfl,
        fun _ => ⟨hany, hne⟩⟩
    · exact h ⟨⟨hnone, hany⟩, hkeys ▸ List.prefix_rfl, fun _ => ⟨hany', Ne.symm hne⟩⟩
  | cons key rest =>
    exact h ⟨⟨hne, hany⟩, ⟨_, hkeys.symm⟩, fun heq => by simp [heq] at hkeys⟩

theorem Demand.agrees_of_not_clashes (h : ¬ d.Clashes e) (h' : ¬ e.Clashes d) :
    d.shape.Agrees e.shape := by
  intro chain s t hs ht
  obtain ⟨rest, hd, rfl⟩ := Shape.follow_along (Shape.fields_least _) hs
  obtain ⟨rest', he, rfl⟩ := Shape.follow_along (Shape.fields_least _) ht
  cases rest with
  | nil =>
    rw [List.append_nil] at hd
    rw [Shape.along, Shape.leaf?_least]
    exact agree_of_append h h' (hd ▸ he)
  | cons key rest =>
    cases rest' with
    | nil =>
      rw [List.append_nil] at he
      rw [Shape.along.eq_1 (Shape.least e.tag.leaf), Shape.leaf?_least]
      rcases agree_of_append h' h (he ▸ hd) with hany | hany | heq
      · exact .inr (.inl hany)
      · exact .inl hany
      · exact .inr (.inr heq.symm)
    | cons => exact .inr (.inr rfl)

/-- What a template asks for can be collected exactly if its tags agree mark by mark. -/
theorem exists_collect_iff : (∃ fs, collect ns = .ok fs) ↔ MarksAgree ns := by
  have hleast := least_collect_demands ns
  constructor
  · rintro ⟨m, hm⟩
    have hmet := hleast.holds m hm
    refine ⟨fun d hd segment hs hi => ?_, fun d hd e he =>
      Demand.not_clashes_of_metBy (hmet d hd) (hmet e he)⟩
    have hnot := (hmet d hd).1 segment hs
    rw [looksLikeIndex_iff.mpr hi] at hnot
    cases hnot
  · intro h
    have hunique : ∀ s ∈ (demandsAll [] ns).map Demand.shape, s.UniqueKeys :=
      List.forall_mem_map.mpr fun d _ =>
        Shape.uniqueKeys_along (Shape.uniqueKeys_least d.tag.leaf) d.keys
    have hagree : ∀ s ∈ (demandsAll [] ns).map Demand.shape,
        ∀ t ∈ (demandsAll [] ns).map Demand.shape, s.Agrees t :=
      List.forall_mem_map.mpr fun d hd => List.forall_mem_map.mpr fun e he =>
        Demand.agrees_of_not_clashes (h.leaves d hd e he) (h.leaves e he d hd)
    obtain ⟨m, -, habove, -⟩ := Shape.exists_above hunique hagree
    obtain ⟨fs, hfs, -⟩ := hleast.least m.fields fun d hd => by
      refine ⟨fun segment hs => ?_, ?_⟩
      · exact Bool.eq_false_iff.mpr fun hi => h.names d hd segment hs (looksLikeIndex_iff.mp hi)
      · have hbelow : d.shape.Below m := habove _ (List.mem_map_of_mem hd)
        rw [Demand.shape, Shape.along_below_iff, Shape.follow_object_fields d.keys_ne_nil]
        exact Shape.along_below_iff.mp hbelow
    exact ⟨fs, hfs⟩

/-- Two types for one variable clash, but not if one of the tags has a mark that the other lacks. -/
example :
    let tag (type : String) (optional : Bool) : Demand :=
      ⟨[], ⟨["a"], by simp⟩, .var (some ⟨[type], optional⟩) .context⟩
    (tag "string" false).Clashes (tag "number" false) ∧
      ¬ (tag "string" true).Clashes (tag "number" false) := by decide

end

end Stencil
