import Stencil.Proofs.Uses

/-!
# Segments that read as an index

A segment of digits cannot name a field. Only the fields of one tag are checked for such segments,
merging and settling fail for other reasons. Still every tag that has one makes inference fail; a
failure that speaks of an index is about such a tag; and no inferred field has such a name
(`infer_indexNames`).
-/

namespace Stencil

open Outcome

/-! ### Computations that fail in known ways only -/

namespace Outcome

variable {ε α β : Type} {P P' : ε → Prop} {x : Except ε α}

def FailsAs (P : ε → Prop) (x : Except ε α) : Prop := ∀ e, x = .error e → P e

namespace FailsAs

theorem ok (a : α) : FailsAs P (.ok a) := nofun

theorem error {e : ε} (h : P e) : FailsAs P (.error e : Except ε α) := by
  rintro _ ⟨⟩
  exact h

theorem mono (h : FailsAs P x) (hP : ∀ e, P e → P' e) : FailsAs P' x := fun e he => hP e (h e he)

theorem bind {f : α → Except ε β} (hx : FailsAs P x) (hf : ∀ a, FailsAs P (f a)) :
    FailsAs P (x >>= f) := fun e he => by
  rcases bind_eq_error.mp he with h | ⟨a, -, h⟩
  · exact hx e h
  · exact hf a e h

theorem foldlM {f : β → α → Except ε β} (hf : ∀ b a, FailsAs P (f b a)) (as : List α) (b : β) :
    FailsAs P (as.foldlM f b) := by
  induction as generalizing b with
  | nil => exact .ok b
  | cons a as ih =>
    rw [List.foldlM_cons]
    exact (hf b a).bind ih

theorem mapM {f : α → Except ε β} (hf : ∀ a, FailsAs P (f a)) (as : List α) :
    FailsAs P (as.mapM f) := by
  induction as with
  | nil => exact .ok []
  | cons a as ih =>
    rw [List.mapM_cons]
    exact (hf a).bind fun b => ih.bind fun bs => .ok (b :: bs)

end FailsAs

end Outcome

/-! ### Merging and settling -/

/-- The conflict is not about a segment that reads as an index. -/
def Conflict.OfUses (c : Conflict) : Prop := ∀ names segment, c ≠ .indexName names segment

theorem Conflict.ofUses_scalar {path : List String} {left right : String} :
    OfUses (.scalar path left right) := by
  rintro _ _ ⟨⟩

theorem Conflict.ofUses_shape {path : List String} {left right : String} :
    OfUses (.shape path left right) := by
  rintro _ _ ⟨⟩

namespace Shape

theorem failsAs_mergeInto {rest : List (Key × Shape)}
    (ih : ∀ f ∈ rest, ∀ path (p : Shape), FailsAs Conflict.OfUses (p.merge path f.2))
    (path : List String) (into : Fields) : FailsAs Conflict.OfUses (mergeInto path into rest) := by
  induction rest generalizing into with
  | nil => exact .ok into
  | cons f rest ihr =>
    have hrest := fun s => ihr (fun g hg => ih g (List.mem_cons_of_mem _ hg)) (into.set f.1 s)
    rw [mergeInto]
    cases into.get? f.1 with
    | none => exact (FailsAs.ok f.2).bind hrest
    | some p => exact (ih f (List.mem_cons_self ..) _ p).bind hrest

theorem failsAs_merge (path : List String) (s t : Shape) :
    FailsAs Conflict.OfUses (s.merge path t) := by
  induction t using fieldsInduction generalizing s path with
  | leaf l =>
    cases l with
    | any => exact Fields.merge_any path s ▸ .ok s
    | oneOf b =>
      cases s with
      | object fs => exact .error Conflict.ofUses_shape
      | leaf l =>
        cases l with
        | any => exact .ok _
        | oneOf a =>
          rw [merge]
          split
          · exact .ok _
          · exact .error Conflict.ofUses_scalar
  | object gs ih =>
    cases s with
    | leaf l =>
      cases l with
      | any => exact .ok _
      | oneOf a => exact .error Conflict.ofUses_shape
    | object fs =>
      rw [merge]
      have hfields : FailsAs Conflict.OfUses (mergeInto path fs gs) :=
        failsAs_mergeInto (fun f hf path p => ih f hf path p) path fs
      exact hfields.bind fun m => .ok (object m)

end Shape

namespace Fields

variable {path : List String} {f g : Key × Shape}

theorem failsAs_merge (fs gs : Fields) : FailsAs Conflict.OfUses (fs.merge gs) :=
  Shape.failsAs_mergeInto (fun f _ path p => Shape.failsAs_merge path p f.2) [] fs

theorem failsAs_fill (path : List String) (items plain : Shape) :
    FailsAs Conflict.OfUses (fill path items plain) := by
  cases plain with
  | object fs => exact Shape.failsAs_merge path items (.object fs)
  | leaf l =>
    rw [fill]
    split
    · exact .ok items
    · exact .error Conflict.ofUses_shape

theorem failsAs_together (path : List String) (f g : Key × Shape) :
    FailsAs Conflict.OfUses (together path f g) := by
  unfold together
  split
  · exact Shape.failsAs_merge path f.2 g.2
  · split
    · exact failsAs_fill path f.2 g.2
    · exact failsAs_fill path g.2 f.2

theorem failsAs_absorb (path : List String) (settled : Fields) (field : Key × Shape) :
    FailsAs Conflict.OfUses (absorb path field settled) := by
  rcases absorb_cases path field settled with ⟨before, first, after, -, -, hn, h⟩ | ⟨-, h⟩
  · rw [h, combine_eq hn]
    exact ((failsAs_together _ first field).bind fun s => .ok _).bind fun both => .ok _
  · exact h ▸ .ok _

theorem failsAs_settleLevels (levels : Nat) (path : List String) (fs : Fields) :
    FailsAs Conflict.OfUses (settleLevels levels path fs) := by
  induction levels generalizing path fs with
  | zero => exact .ok fs
  | succ levels ih =>
    rw [settleLevels_succ]
    refine (FailsAs.foldlM (failsAs_absorb path) fs []).bind fun folded => .mapM ?_ folded
    rintro ⟨key, shape⟩
    cases shape with
    | leaf l => exact .ok (key, Shape.leaf l)
    | object inner =>
      exact (ih (path ++ [key.name]) inner).bind fun settled => .ok (key, Shape.object settled)

end Fields

/-! ### The tag that a conflict is about -/

/-- Decimal digits and nothing else. -/
def IsIndex (s : String) : Prop := s ≠ "" ∧ ∀ c ∈ s.toList, '0' ≤ c ∧ c ≤ '9'

theorem Fields.looksLikeIndex_iff {s : String} : looksLikeIndex s = true ↔ IsIndex s := by
  simp only [looksLikeIndex, IsIndex, Bool.and_eq_true, Bool.not_eq_true', List.all_eq_true,
    Char.isDigit, decide_eq_true_eq, String.isEmpty_eq_false_iff]
  exact Iff.rfl

/-- The first of the segments that read as an index. -/
structure FirstIndex (segments : List String) (segment : String) : Prop where
  index : IsIndex segment
  first : ∃ before after, segments = before ++ segment :: after ∧ ∀ s ∈ before, ¬ IsIndex s

/-- If the conflict is about an index, one of the tags has it as the first in its path. -/
def Conflict.IndexOf (us : List Use) (c : Conflict) : Prop :=
  ∀ names segment, c = .indexName names segment →
    ∃ u ∈ us, names = u.name.segments ∧ FirstIndex names segment

section
variable {around : List String} {us vs : List Use} {u : Use} {n : Node} {ns : List Node}
variable {c : Conflict} {q : Requirements} {s : String}

theorem Outcome.FailsAs.indexOf {α : Type} {x : Except Conflict α}
    (h : FailsAs Conflict.OfUses x) : FailsAs (Conflict.IndexOf us) x :=
  h.mono fun _ hc names segment heq => absurd heq (hc names segment)

theorem Conflict.IndexOf.mono (h : c.IndexOf us) (hs : us ⊆ vs) : c.IndexOf vs :=
  fun names segment hc => (h names segment hc).imp fun _ ⟨hu, h⟩ => ⟨hs hu, h⟩

theorem failsAs_chain (hu : u ∈ us) (optional array : Bool) (shape : Shape) :
    FailsAs (Conflict.IndexOf us) (Fields.chain u.name.segments optional array shape) := by
  unfold Fields.chain
  split
  · rename_i segment hfind
    obtain ⟨hindex, before, after, heq, hbefore⟩ := List.find?_eq_some_iff_append.mp hfind
    refine .error fun _ _ h => ?_
    cases h
    refine ⟨u, hu, rfl, Fields.looksLikeIndex_iff.mp hindex, before, after, heq, fun s hs hi => ?_⟩
    simpa [Fields.looksLikeIndex_iff.mpr hi] using hbefore s hs
  · exact .ok _

theorem failsAs_ofVariable (hu : u ∈ us) (type : Option ValueType) :
    FailsAs (Conflict.IndexOf us) (Fields.ofVariable u.name type) := by
  cases type <;> exact failsAs_chain hu _ _ _

theorem failsAs_addHere (r : Requirements) (fs : Fields) :
    FailsAs (Conflict.IndexOf us) (r.addHere fs).result := by
  rw [Requirements.addHere, Traced.result_bind, Traced.result_ofExcept]
  exact (Fields.failsAs_merge r.here fs).indexOf.bind fun _ => .ok _

theorem failsAs_addRoot (r : Requirements) (fs : Fields) :
    FailsAs (Conflict.IndexOf us) (r.addRoot fs).result := by
  rw [Requirements.addRoot, Traced.result_bind, Traced.result_ofExcept]
  exact (Fields.failsAs_merge r.root fs).indexOf.bind fun _ => .ok _

theorem failsAs_requireAll_of_nodes
    (hns : ∀ n ∈ ns, ∀ r, FailsAs (Conflict.IndexOf (n.uses around)) (n.require r).result)
    (r : Requirements) :
    FailsAs (Conflict.IndexOf (usesAll around ns)) (requireAll r ns).result := by
  induction ns generalizing r with
  | nil => exact .ok r
  | cons n ns ih =>
    obtain ⟨hn, hns⟩ := List.forall_mem_cons.mp hns
    rw [requireAll, Traced.result_bind]
    exact ((hn r).mono fun _ h => h.mono (List.subset_append_left ..)).bind fun r' =>
      (ih hns r').mono fun _ h => h.mono (List.subset_append_right ..)

theorem failsAs_require (around : List String) (n : Node) (r : Requirements) :
    FailsAs (Conflict.IndexOf (n.uses around)) (n.require r).result := by
  induction n using Node.contentInduction generalizing around r with
  | text | comment | reference | dot => exact .ok _
  | var name raw type scope =>
    simp only [Node.require, Traced.result_bind, Traced.result_ofExcept]
    cases scope with
    | context =>
      exact (failsAs_ofVariable (List.mem_singleton_self _) type).bind fun fs =>
        (FailsAs.ok ()).bind fun _ => failsAs_addHere r fs
    | root =>
      exact (failsAs_ofVariable (List.mem_singleton_self _) type).bind fun fs =>
        (FailsAs.ok ()).bind fun _ => failsAs_addRoot r fs
  | block name content optional ih =>
    simp only [Node.require, Traced.result_bind, Traced.result_ofExcept]
    have hcontent := failsAs_requireAll_of_nodes
      (fun m hm r => ih m hm (around ++ name.segments) r) {}
    refine (hcontent.mono fun _ h => h.mono (List.subset_cons_self ..)).bind fun inner =>
      (failsAs_addRoot r inner.root).bind fun r' => ?_
    exact (failsAs_chain (List.mem_cons_self ..) _ _ _).bind fun fs =>
      (FailsAs.ok ()).bind fun _ => failsAs_addHere r' fs
  | inverted name content =>
    simp only [Node.require, Traced.result_bind, Traced.result_ofExcept]
    exact (failsAs_chain (List.mem_singleton_self _) _ _ _).bind fun fs => failsAs_addHere r fs

/-- Inference speaks of an index only if a tag has it in its path. -/
theorem failsAs_infer (ns : List Node) :
    FailsAs (Conflict.IndexOf (usesAll [] ns)) (infer ns).result := by
  have hrun : FailsAs (Conflict.IndexOf (usesAll [] ns)) (requireAll {} ns).result :=
    failsAs_requireAll_of_nodes (fun n _ => failsAs_require [] n) {}
  rw [infer_eq, collect]
  exact (hrun.bind fun r => (Fields.failsAs_merge r.here r.root).indexOf).bind fun merged =>
    (Fields.failsAs_settleLevels (merged.depth + 1) [] merged).indexOf

/-! ### No tag is missed -/

theorem not_isIndex_of_fragment (h : n.fragment = .ok q) (hu : u ∈ n.uses around)
    (hs : s ∈ u.name.segments) : ¬ IsIndex s := by
  have hchain : ∀ {name : Path} {optional array : Bool} {shape : Shape} {fs : Fields},
      Fields.chain name.segments optional array shape = .ok fs → s ∈ name.segments →
        ¬ IsIndex s := fun hfs hs hi => by
    have hnot := (Fields.chain_eq_ok.mp hfs).1 s hs
    rw [Fields.looksLikeIndex_iff.mpr hi] at hnot
    cases hnot
  induction n using Node.contentInduction generalizing around q with
  | text | comment | reference | dot => cases hu
  | var name raw type scope =>
    cases scope <;>
      · obtain ⟨fs, hfs, -⟩ := bind_eq_ok.mp h
        obtain ⟨l, hl, -⟩ := Fields.ofVariable_eq_ok.mp hfs
        cases List.mem_singleton.mp hu
        exact hchain hl hs
  | block name content optional ih =>
    obtain ⟨inner, hi, h⟩ := bind_eq_ok.mp h
    obtain ⟨fs, hfs, -⟩ := bind_eq_ok.mp h
    rcases List.mem_cons.mp hu with rfl | hu
    · exact hchain hfs hs
    · obtain ⟨m, hm, hum⟩ := mem_usesAll_iff.mp hu
      obtain ⟨q, hq, -⟩ := (bounds_of_requireAll .empty hi).2.2 m hm
      exact ih m hm hq hum
  | inverted name content =>
    obtain ⟨fs, hfs, -⟩ := bind_eq_ok.mp h
    cases List.mem_singleton.mp hu
    exact hchain hfs hs

theorem not_isIndex_of_infer {fs : Fields} (h : (infer ns).result = .ok fs)
    (hu : u ∈ usesAll [] ns) (hs : s ∈ u.name.segments) : ¬ IsIndex s := by
  obtain ⟨r, -, hr, -, -⟩ := infer_eq_ok.mp h
  obtain ⟨n, hn, hun⟩ := mem_usesAll_iff.mp hu
  obtain ⟨q, hq, -⟩ := (bounds_of_requireAll .empty hr).2.2 n hn
  exact not_isIndex_of_fragment hq hun hs

end

/-- The name of an inferred field is a segment of the path of a tag. -/
theorem exists_use_of_at {ns : List Node} {fs : Fields} {path : List String} {g : Key × Shape}
    (h : (infer ns).result = .ok fs) (hat : (Shape.object fs).At path g) :
    ∃ u ∈ usesAll [] ns, g.1.name ∈ u.name.segments := by
  obtain ⟨u, hu, names, ⟨hne, hp, hpath⟩, -⟩ := (has_infer Sums.present h).mp ⟨g, hat, trivial⟩
  obtain ⟨parents, hparents⟩ := hat.name_eq
  obtain ⟨init, last, rfl⟩ := (List.eq_nil_or_concat names).resolve_left hne
  rw [hparents, List.concat_eq_append, ← List.append_assoc] at hpath
  have hlast : g.1.name = last := List.singleton_inj.mp (List.append_inj' hpath rfl).2
  exact ⟨u, hu, hp.subset (by simp [hlast])⟩

/-- A tag with a segment of digits makes inference fail, unless it is inside an inverted block. A
failure that speaks of an index names the first such segment of a tag, with the tag's own path. No
inferred field, at any depth, has digits for a name. -/
theorem infer_indexNames (ns : List Node) :
    ((∃ u ∈ usesAll [] ns, ∃ s ∈ u.name.segments, IsIndex s) → ∃ c, (infer ns).result = .error c) ∧
    (∀ names segment, (infer ns).result = .error (.indexName names segment) →
      ∃ u ∈ usesAll [] ns, names = u.name.segments ∧ FirstIndex u.name.segments segment ∧
        (Conflict.indexName names segment).path = ".".intercalate u.name.segments) ∧
    ∀ fs, (infer ns).result = .ok fs → ∀ path g, (Shape.object fs).At path g →
      ¬ IsIndex g.1.name := by
  refine ⟨?_, fun names segment h => ?_, fun fs h path g hat => ?_⟩
  · rintro ⟨u, hu, s, hs, hi⟩
    cases h : (infer ns).result with
    | error c => exact ⟨c, rfl⟩
    | ok fs => exact absurd hi (not_isIndex_of_infer h hu hs)
  · obtain ⟨u, hu, rfl, hfirst⟩ := failsAs_infer ns _ h names segment rfl
    exact ⟨u, hu, rfl, hfirst, rfl⟩
  · obtain ⟨u, hu, hname⟩ := exists_use_of_at h hat
    exact not_isIndex_of_infer h hu hname

/-- Inside a list, the second item of a row is asked for by its number. -/
theorem infer_indexNames_row :
    let row : Path := ⟨["row", "01", "2"], by simp⟩
    let list : List Node → List Node := fun content => [.block ⟨["rows"], by simp⟩ content false]
    let ns := list [.dot false, .inverted row [.text "-"]]
    let rest := list [.dot false, .inverted ⟨["row"], by simp⟩ [.var row false none .context]]
    (∃ c, (infer ns).result = .error c) ∧
      (infer ns).result = .error (.indexName row.segments "01") ∧
      (∃ u ∈ usesAll [] ns, FirstIndex u.name.segments "01") ∧
      ∃ fs, (infer rest).result = .ok fs ∧ ∀ path g, (Shape.object fs).At path g →
        ¬ IsIndex g.1.name := by
  intro row list ns rest
  have hfail : (infer ns).result = .error (.indexName row.segments "01") := by rfl
  have huse : ∃ u ∈ usesAll [] ns, ∃ s ∈ u.name.segments, IsIndex s :=
    ⟨⟨["rows"], row, .inverted⟩, by simp [ns, list, usesAll, Node.uses], "2", by simp [row],
      by simp [IsIndex]⟩
  obtain ⟨hfails, hfirst, -⟩ := infer_indexNames ns
  obtain ⟨u, hu, -, hindex, -⟩ := hfirst _ _ hfail
  have hrest : ∃ fs, (infer rest).result = .ok fs := ⟨_, rfl⟩
  obtain ⟨fs, hfs⟩ := hrest
  exact ⟨hfails huse, hfail, ⟨u, hu, hindex⟩, fs, hfs, (infer_indexNames rest).2.2 fs hfs⟩

end Stencil
