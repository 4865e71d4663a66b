import Stencil.Proofs.Fragments

/-!
# Dotted paths are nested blocks

A tag at `p ++ q` asks for the same fields as a block at `p` around the same tag at `q`
(`Node.Dotted.fragment_iff`), the optional and the list mark included: they stand on the last
segment in both. Rendering tells the two apart, inference does not, at any depth (`infer_nested`).
-/

namespace Stencil

open Outcome Requirements

variable {p q : Path} {n m : Node} {ns ms : List Node} {r r' : Requirements} {fs gs : Fields}

/-- `Dotted p n m`: the tag `n` is `m` with `p` in front of its path. -/
inductive Node.Dotted (p : Path) : Node → Node → Prop
  | var (q : Path) (raw : Bool) (type : Option ValueType) :
      Dotted p (.var (p ++ q) raw type .context) (.var q raw type .context)
  | block (q : Path) (content : List Node) (optional : Bool) :
      Dotted p (.block (p ++ q) content optional) (.block q content optional)
  | inverted (q : Path) (content : List Node) :
      Dotted p (.inverted (p ++ q) content) (.inverted q content)

/-- The same nodes but for one tag with a dotted path, which stands in a block of its own for the
first part of the path. -/
inductive Nested : List Node → List Node → Prop
  | tag (before after : List Node) {p : Path} {n m : Node} (h : n.Dotted p m) :
      Nested (before ++ n :: after) (before ++ .block p [m] false :: after)
  | block (before after : List Node) (name : Path) (optional : Bool) {content content' : List Node}
      (h : Nested content content') :
      Nested (before ++ .block name content optional :: after)
        (before ++ .block name content' optional :: after)
  | inverted (before after : List Node) (name : Path) {content content' : List Node}
      (h : Nested content content') :
      Nested (before ++ .inverted name content :: after)
        (before ++ .inverted name content' :: after)

/-! ### A run of one node -/

theorem Shape.mergeInto_of_nodup {path : List String} (h : (fs ++ gs).keys.Nodup) :
    mergeInto path fs gs = .ok (fs ++ gs) := by
  induction gs generalizing fs with
  | nil => exact congrArg Except.ok (List.append_nil fs).symm
  | cons g gs ih =>
    have hnew : g.1 ∉ fs.keys := fun hm => by
      rw [Fields.keys, List.map_append] at h
      exact (List.nodup_append.mp h).2.2 _ hm _ (List.mem_cons_self ..) rfl
    have hget : fs.get? g.1 = none :=
      Option.eq_none_iff_forall_ne_some.mpr fun s hs => hnew (Fields.mem_keys_iff.mpr ⟨s, hs⟩)
    have hset : fs.set g.1 g.2 = fs ++ [g] := Entries.put_of_notMem hnew g.2
    rw [List.append_cons] at h ⊢
    refine mergeInto_cons_eq_ok.mpr ⟨g.2, .inr ⟨hget, rfl⟩, ?_⟩
    rw [hset]
    exact ih h

theorem Fields.nil_merge (h : gs.UniqueKeys) : Fields.merge [] gs = .ok gs :=
  Shape.mergeInto_of_nodup h.nodup

theorem Requirements.empty_adds (h : r.UniqueKeys) : Adds {} r r' ↔ r' = r := by
  constructor
  · rintro ⟨hh, hg, hd⟩
    cases r'
    cases hh.symm.trans (Fields.nil_merge h.here)
    cases hg.symm.trans (Fields.nil_merge h.root)
    cases hd.trans (Bool.false_or _)
    rfl
  · rintro rfl
    exact ⟨Fields.nil_merge h.here, Fields.nil_merge h.root, (Bool.false_or _).symm⟩

theorem requireAll_singleton_eq_ok : (requireAll {} [n]).result = .ok r ↔ n.fragment = .ok r := by
  rw [requireAll_cons_eq_ok]
  constructor
  · rintro ⟨q, hq, u, hu, h⟩
    cases h
    rw [hq, (empty_adds (uniqueKeys_fragment hq)).mp hu]
  · intro h
    exact ⟨r, h, r, (empty_adds (uniqueKeys_fragment h)).mpr rfl, rfl⟩

/-! ### Chains of fields -/

namespace Fields

variable {optional array : Bool} {shape : Shape}

theorem wrap_ne_nil {segments : List String} (h : segments ≠ []) :
    wrap optional array shape segments ≠ [] := by
  cases segments with
  | nil => exact absurd rfl h
  | cons s rest => cases rest <;> exact List.cons_ne_nil _ _

theorem wrap_append {rest : List String} (hr : rest ≠ []) : ∀ {segments : List String},
    segments ≠ [] → wrap optional array shape (segments ++ rest) =
      wrap false false (.object (wrap optional array shape rest)) segments
  | [], h => absurd rfl h
  | [s], _ => by
    obtain ⟨t, rest, rfl⟩ := List.exists_cons_of_ne_nil hr
    rfl
  | s :: t :: segments, _ =>
    have hinner := wrap_append hr (List.cons_ne_nil t segments)
    congrArg (fun inner => [(({ name := s } : Key), Shape.object inner)]) hinner

theorem chain_append_eq_ok :
    chain (p ++ q).segments optional array shape = .ok fs ↔
      ∃ inner, chain q.segments optional array shape = .ok inner ∧
        chain p.segments false false (.object inner) = .ok fs := by
  have hwrap : wrap optional array shape (p.segments ++ q.segments) =
      wrap false false (.object (wrap optional array shape q.segments)) p.segments :=
    wrap_append q.segments_ne_nil p.segments_ne_nil
  simp only [chain_eq_ok, Path.segments_append, List.forall_mem_append, hwrap]
  constructor
  · rintro ⟨⟨hp, hq⟩, rfl⟩
    exact ⟨_, ⟨hq, rfl⟩, hp, rfl⟩
  · rintro ⟨_, ⟨hq, rfl⟩, hp, rfl⟩
    exact ⟨⟨hp, hq⟩, rfl⟩

end Fields

/-! ### One tag -/

/-- What a tag asks for at the end of its path, and of the root. -/
structure Asked where
  optional : Bool := false
  array : Bool := false
  shape : Shape
  root : Fields := []

def Asked.along (a : Asked) (path : Path) : Except Conflict Requirements := do
  let here ← Fields.chain path.segments a.optional a.array a.shape
  .ok { here, root := a.root }

theorem Node.Dotted.exists_asked (h : n.Dotted p m) :
    ∃ (q : Path) (asked : Except Conflict Asked),
      n.fragment = (do let a ← asked; a.along (p ++ q)) ∧
        m.fragment = (do let a ← asked; a.along q) := by
  cases h with
  | var q raw type =>
    cases type with
    | none => exact ⟨q, .ok { shape := .leaf .any }, rfl, rfl⟩
    | some type =>
      exact ⟨q, .ok { optional := type.optional, shape := .leaf (.of type.alternatives) }, rfl, rfl⟩
  | block q content optional =>
    let asked : Except Conflict Asked := do
      let inner ← (requireAll {} content).result
      let block := inner.blockShape
      .ok { optional, array := block.2, shape := block.1, root := inner.root }
    refine ⟨q, asked, ?_, ?_⟩ <;>
      · simp only [Node.fragment, asked]
        cases (requireAll {} content).result <;> rfl
  | inverted q content => exact ⟨q, .ok { shape := .leaf .boolean }, rfl, rfl⟩

theorem Asked.along_eq_ok {a : Asked} :
    a.along p = .ok r ↔ ∃ here, Fields.chain p.segments a.optional a.array a.shape = .ok here ∧
      r = { here, root := a.root } := by
  rw [along, bind_eq_ok]
  exact exists_congr fun here => and_congr Iff.rfl ⟨fun h => by cases h; rfl, fun h => h ▸ rfl⟩

/-- The content asks for fields and holds no dot, so the block is an object and no list. -/
theorem Asked.blockShape_of_along {a : Asked} (h : a.along q = .ok r) :
    r.blockShape = (.object r.here, false) := by
  obtain ⟨here, hh, rfl⟩ := along_eq_ok.mp h
  have hne : Fields.wrap a.optional a.array a.shape q.segments ≠ [] :=
    Fields.wrap_ne_nil q.segments_ne_nil
  obtain ⟨f, rest, hwrap⟩ := List.exists_cons_of_ne_nil hne
  rw [(Fields.chain_eq_ok.mp hh).2, hwrap]
  rfl

theorem fragment_block_eq_ok {name : Path} {content : List Node} {optional : Bool} :
    (Node.block name content optional).fragment = .ok r ↔
      ∃ inner, (requireAll {} content).result = .ok inner ∧
        ∃ here, Fields.chain name.segments optional inner.blockShape.2 inner.blockShape.1 =
          .ok here ∧ r = { here, root := inner.root } := by
  simp only [Node.fragment, bind_eq_ok, Except.ok.injEq, eq_comm (a := r)]

theorem Node.Dotted.fragment_iff (h : n.Dotted p m) :
    n.fragment = .ok r ↔ (Node.block p [m] false).fragment = .ok r := by
  obtain ⟨q, asked, hn, hm⟩ := h.exists_asked
  rw [hn, bind_eq_ok, fragment_block_eq_ok]
  simp only [requireAll_singleton_eq_ok, hm, bind_eq_ok]
  constructor
  · rintro ⟨a, ha, h⟩
    obtain ⟨fs, hfs, rfl⟩ := Asked.along_eq_ok.mp h
    obtain ⟨here, hh, hfs⟩ := Fields.chain_append_eq_ok.mp hfs
    have hq : a.along q = .ok { here, root := a.root } := Asked.along_eq_ok.mpr ⟨here, hh, rfl⟩
    refine ⟨_, ⟨a, ha, hq⟩, fs, ?_, rfl⟩
    rw [Asked.blockShape_of_along hq]
    exact hfs
  · rintro ⟨inner, ⟨a, ha, hq⟩, fs, hfs, rfl⟩
    rw [Asked.blockShape_of_along hq] at hfs
    obtain ⟨here, hh, rfl⟩ := Asked.along_eq_ok.mp hq
    exact ⟨a, ha, Asked.along_eq_ok.mpr ⟨fs, Fields.chain_append_eq_ok.mpr ⟨here, hh, hfs⟩, rfl⟩⟩

/-! ### At any depth -/

/-- A node that asks for the same as another can stand in its place. -/
theorem requireAll_replace (before after : List Node)
    (h : ∀ q, n.fragment = .ok q ↔ m.fragment = .ok q) :
    (requireAll r (before ++ n :: after)).result = .ok r' ↔
      (requireAll r (before ++ m :: after)).result = .ok r' := by
  induction before generalizing r with
  | nil => simp only [List.nil_append, requireAll_cons_eq_ok, h]
  | cons k before ih => simp only [List.cons_append, requireAll_cons_eq_ok, ih]

theorem fragment_block_congr {name : Path} {optional : Bool}
    (h : ∀ inner, (requireAll {} ns).result = .ok inner ↔ (requireAll {} ms).result = .ok inner) :
    (Node.block name ns optional).fragment = .ok r ↔
      (Node.block name ms optional).fragment = .ok r := by
  simp only [fragment_block_eq_ok, h]

theorem Nested.requireAll_iff (h : Nested ns ms) :
    (requireAll r ns).result = .ok r' ↔ (requireAll r ms).result = .ok r' := by
  induction h generalizing r r' with
  | tag before after h => exact requireAll_replace before after fun _ => h.fragment_iff
  | block before after name optional _ ih =>
    exact requireAll_replace before after fun _ => fragment_block_congr fun _ => ih
  | inverted before after name _ _ => exact requireAll_replace before after fun _ => Iff.rfl

theorem Nested.infer_iff (h : Nested ns ms) :
    (infer ns).result = .ok fs ↔ (infer ms).result = .ok fs := by
  simp only [infer_eq_ok, h.requireAll_iff]

/-- To infer fields, a tag with a dotted path is the same as nested blocks: both templates fail, or
both have the same fields in the same order. -/
theorem infer_nested (h : Nested ns ms) :
    (∃ fs, (infer ns).result = .ok fs ∧ (infer ms).result = .ok fs) ∨
      ∃ c c', (infer ns).result = .error c ∧ (infer ms).result = .error c' := by
  cases hn : (infer ns).result with
  | ok fs => exact .inl ⟨fs, rfl, h.infer_iff.mp hn⟩
  | error c =>
    cases hm : (infer ms).result with
    | ok fs => cases hn.symm.trans (h.infer_iff.mpr hm)
    | error c' => exact .inr ⟨c, c', rfl, rfl⟩

/-- Inside a block, a list of tags under a dotted path whose items also print data of the root. -/
theorem infer_nested_tags :
    let page : Path := ⟨["page", "meta"], by simp⟩
    let tags : Path := ⟨["tags"], by simp⟩
    let content : List Node :=
      [.dot false, .var ⟨["lang"], by simp⟩ false (some ⟨["string"], true⟩) .root]
    let around : Node → List Node := fun n => [.block ⟨["site"], by simp⟩ [.text "a", n] true]
    let dotted := around (.block (page ++ tags) content true)
    let nested := around (.block page [.block tags content true] false)
    let list : Fields := [({ name := "tags", optional := true, array := true }, .leaf .any)]
    let site : Fields := [({ name := "page" }, .object [({ name := "meta" }, .object list)])]
    let fs : Fields := [({ name := "site", optional := true }, .object site),
      ({ name := "lang", optional := true }, .leaf (.of ["string"]))]
    Nested dotted nested ∧ (infer dotted).result = .ok fs ∧ (infer nested).result = .ok fs := by
  intro page tags content around dotted nested list site fs
  have h : Nested dotted nested := .block [] [] _ _ (.tag [.text "a"] [] (.block tags content true))
  have hdotted : (infer dotted).result = .ok fs := by decide +kernel
  obtain ⟨fs', hfs, hnested⟩ | ⟨c, _, hc, _⟩ := infer_nested h
  · cases hdotted.symm.trans hfs
    exact ⟨h, hdotted, hnested⟩
  · cases hdotted.symm.trans hc

end Stencil
