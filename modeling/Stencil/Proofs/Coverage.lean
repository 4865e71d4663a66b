import Stencil.Proofs.Folding
import Stencil.Proofs.Fragments
import Stencil.Proofs.Words

/-!
# Inferred fields cover the tags

Every tag of a parsed template outside inverted blocks finds its path among the inferred fields.
From the fields of the block around it, or from the root, each name leads on to the next, and only
the last field may be optional, if the tag is (`Template.covered`). What a shape asks for is met by
a second one, `s.MetBy t`, through all that inference does with it: merging, folding, settling.
-/

namespace Stencil

open Outcome

namespace Shape

def fields : Shape → Fields
  | leaf _ => []
  | object fs => fs

mutual

/-- The second shape has all fields of the first, at any depth: under the same names, and required
where they are. -/
def MetBy : Shape → Shape → Prop
  | leaf _, _ => True
  | object fs, t => AllMetBy t fs

def AllMetBy (t : Shape) : List (Key × Shape) → Prop
  | [] => True
  | (k, s) :: fs =>
    (∃ g ∈ t.fields, g.1.name = k.name ∧ (g.1.optional = true → k.optional = true) ∧ s.MetBy g.2) ∧
      AllMetBy t fs

end

structure Answers (g f : Key × Shape) : Prop where
  name : g.1.name = f.1.name
  optional : g.1.optional = true → f.1.optional = true
  shape : f.2.MetBy g.2

theorem metBy_object_iff {fs : Fields} {t : Shape} :
    (object fs).MetBy t ↔ ∀ f ∈ fs, ∃ g ∈ t.fields, Answers g f := by
  rw [MetBy]
  induction fs with
  | nil => simp [AllMetBy]
  | cons f fs ih =>
    rw [AllMetBy, ih, List.forall_mem_cons]
    refine and_congr ⟨?_, ?_⟩ Iff.rfl
    · rintro ⟨g, hg, hn, ho, hs⟩; exact ⟨g, hg, hn, ho, hs⟩
    · rintro ⟨g, hg, hn, ho, hs⟩; exact ⟨g, hg, hn, ho, hs⟩

namespace MetBy

theorem refl (s : Shape) : s.MetBy s := by
  induction s using fieldsInduction with
  | leaf l => trivial
  | object fs ih => exact metBy_object_iff.mpr fun f hf => ⟨f, hf, rfl, id, ih f hf⟩

theorem trans {s t u : Shape} (h : s.MetBy t) (h' : t.MetBy u) : s.MetBy u := by
  induction s using fieldsInduction generalizing t u with
  | leaf l => trivial
  | object fs ih =>
    refine metBy_object_iff.mpr fun f hf => ?_
    obtain ⟨g, hg, hgf⟩ := metBy_object_iff.mp h f hf
    cases t with
    | leaf l => cases hg
    | object gs =>
      obtain ⟨k, hk, hkg⟩ := metBy_object_iff.mp h' g hg
      exact ⟨k, hk, hkg.name.trans hgf.name, fun ho => hgf.optional (hkg.optional ho),
        ih f hf hgf.shape hkg.shape⟩

theorem of_below {s t : Shape} (hs : s.UniqueKeys) (h : s.Below t) : s.MetBy t := by
  induction s using fieldsInduction generalizing t with
  | leaf l => trivial
  | object fs ih =>
    have hfs : Fields.UniqueKeys fs := hs
    cases t with
    | leaf l => cases h
    | object gs =>
      refine metBy_object_iff.mpr fun f hf => ?_
      obtain ⟨u, hu, hfu⟩ := below_object_iff.mp h f.1 f.2 (hfs.get?_of_mem hf)
      exact ⟨(f.1, u), Fields.mem_of_get? hu, rfl, id, ih f hf (hfs.of_mem hf) hfu⟩

theorem nil (t : Shape) : (object []).MetBy t := metBy_object_iff.mpr nofun

end MetBy

theorem Answers.refl (f : Key × Shape) : Answers f f := ⟨rfl, id, .refl _⟩

theorem Answers.trans {f g k : Key × Shape} (h : Answers g f) (h' : Answers k g) : Answers k f :=
  ⟨h'.name.trans h.name, fun ho => h.optional (h'.optional ho), h.shape.trans h'.shape⟩

end Shape

/-! ### Settling meets what was asked for -/

namespace Fields

open Shape

variable {path : List String} {fs settled folded out : Fields} {f g both : Key × Shape}

theorem metBy_merge {s t m : Shape} (hs : s.UniqueKeys) (ht : t.UniqueKeys)
    (h : s.merge path t = .ok m) : s.MetBy m ∧ t.MetBy m :=
  ⟨.of_below hs (merge_above hs ht h).left, .of_below ht (merge_above hs ht h).right⟩

theorem metBy_fill {items plain s : Shape} (hi : items.UniqueKeys) (hp : plain.UniqueKeys)
    (h : fill path items plain = .ok s) : items.MetBy s ∧ plain.MetBy s := by
  rcases fill_eq_ok.mp h with ⟨rfl, rfl⟩ | ⟨_, h⟩
  · exact ⟨.refl _, trivial⟩
  · exact metBy_merge hi hp h

theorem answers_combine (hf : f.2.UniqueKeys) (hg : g.2.UniqueKeys) (hn : f.1.name = g.1.name)
    (h : combine path f g = .ok both) : Answers both f ∧ Answers both g := by
  obtain ⟨hk, h⟩ := (combine_eq_ok hn).mp h
  have hname : both.1.name = f.1.name := by rw [hk]; rfl
  have hopt : both.1.optional = true → f.1.optional = true ∧ g.1.optional = true := by
    rw [hk]; exact Bool.and_eq_true_iff.mp
  have hshape : f.2.MetBy both.2 ∧ g.2.MetBy both.2 := by
    unfold together at h
    split at h
    · exact metBy_merge hf hg h
    · split at h
      · exact metBy_fill hf hg h
      · exact (metBy_fill hg hf h).symm
  exact ⟨⟨hname, fun ho => (hopt ho).1, hshape.1⟩,
    ⟨hname.trans hn, fun ho => (hopt ho).2, hshape.2⟩⟩

theorem answers_absorb {field : Key × Shape} (hs : ∀ f ∈ settled, f.2.UniqueKeys)
    (hfield : field.2.UniqueKeys) (h : absorb path field settled = .ok out) :
    ∀ f, f ∈ settled ∨ f = field → ∃ g ∈ out, Answers g f := by
  rcases absorb_eq_ok h with ⟨before, first, after, both, rfl, _, hn, hb, rfl⟩ | ⟨_, rfl⟩
  · obtain ⟨hfirst, hnew⟩ := answers_combine (hs first (by simp)) hfield hn hb
    rintro f (hf | rfl)
    · rcases List.mem_append.mp hf with hf | hf
      · exact ⟨f, by simp [hf], .refl f⟩
      · rcases List.mem_cons.mp hf with rfl | hf
        · exact ⟨both, by simp, hfirst⟩
        · exact ⟨f, by simp [hf], .refl f⟩
    · exact ⟨both, by simp, hnew⟩
  · rintro f (hf | rfl)
    · exact ⟨f, by simp [hf], .refl f⟩
    · exact ⟨f, by simp, .refl f⟩

theorem metBy_fold (hfs : ∀ f ∈ fs, f.2.UniqueKeys) (h : fold path fs = .ok folded) :
    (object fs).MetBy (object folded) := by
  have hinv : (∀ f ∈ folded, f.2.UniqueKeys) ∧ ∀ f ∈ fs, ∃ g ∈ folded, Answers g f := by
    refine foldlM_invariant (motive := fun seen settled =>
      (∀ f ∈ settled, f.2.UniqueKeys) ∧ ∀ f ∈ seen, ∃ g ∈ settled, Answers g f) h
      ⟨nofun, nofun⟩ fun seen field settled out ⟨hu, hseen⟩ hmem ha => ?_
    have hout := answers_absorb hu (hfs field hmem) ha
    refine ⟨absorb_keeps merge_unique hu (hfs field hmem) ha, fun f hf => ?_⟩
    rcases List.mem_append.mp hf with hf | hf
    · obtain ⟨g, hg, hgf⟩ := hseen f hf
      obtain ⟨k, hk, hkg⟩ := hout g (.inl hg)
      exact ⟨k, hk, hgf.trans hkg⟩
    · exact hout f (.inr (List.mem_singleton.mp hf))
  exact metBy_object_iff.mpr hinv.2

theorem metBy_settleLevels {levels : Nat} (hfs : ∀ f ∈ fs, f.2.UniqueKeys)
    (h : settleLevels levels path fs = .ok out) : (object fs).MetBy (object out) := by
  induction levels generalizing path fs out with
  | zero => cases h; exact .refl _
  | succ levels ih =>
    obtain ⟨folded, hfold, hout⟩ := settleLevels_succ_eq_ok.mp h
    have hu := fold_keeps merge_unique hfs hfold
    refine (metBy_fold hfs hfold).trans (metBy_object_iff.mpr fun f hf => ?_)
    obtain ⟨g, hg, hfg⟩ := exists_of_mem_left hout hf
    refine ⟨g, hg, ?_⟩
    cases hfg with
    | leaf => exact .refl _
    | @object key inner settled hs =>
      have hinner : Fields.UniqueKeys inner := hu _ hf
      exact ⟨rfl, id, ih (fun f hf => hinner.of_mem hf) hs⟩

theorem metBy_settle (hfs : fs.UniqueKeys) (h : fs.settle = .ok out) :
    (object fs).MetBy (object out) :=
  metBy_settleLevels (fun _ hf => hfs.of_mem hf) h

end Fields

/-! ### Paths through a shape -/

/-- The path leads from one shape to another by the names of fields, none of which reads as an index
into a list. All fields on the way are required; the last one may be optional if `optional`. -/
inductive Shape.Tracks (optional : Bool) : Shape → List String → Shape → Prop
  | last {s : Shape} {g : Key × Shape} (mem : g ∈ s.fields)
      (name : Value.index? g.1.name = none) (key : g.1.optional = true → optional = true) :
      Tracks optional s [g.1.name] g.2
  | step {s t : Shape} {g : Key × Shape} {rest : List String} (mem : g ∈ s.fields)
      (name : Value.index? g.1.name = none) (key : g.1.optional = false)
      (inner : Tracks optional g.2 rest t) : Tracks optional s (g.1.name :: rest) t

/-- A word that does not read as a field index is no index into a list either. -/
theorem Value.index?_eq_none {s : String} (hw : Parser.IsWord s)
    (hi : Fields.looksLikeIndex s = false) : Value.index? s = none := by
  have hall : s.toList.all Char.isDigit = false := by
    have hne : s.isEmpty = false := by simpa using hw.1
    simpa [Fields.looksLikeIndex, hne] using hi
  unfold Value.index?
  split
  · rename_i cs hs
    have := hw.2 '+' (by rw [hs]; exact List.mem_cons_self ..)
    exact absurd this (by decide)
  · exact if_neg fun h => by rw [hall] at h; exact absurd h.2 (by decide)

theorem Shape.tracks_of_wrap {optional array : Bool} {shape t : Shape} :
    ∀ {segments : List String}, segments ≠ [] → (∀ s ∈ segments, Value.index? s = none) →
      (object (Fields.wrap optional array shape segments)).MetBy t →
      ∃ u, t.Tracks optional segments u ∧ shape.MetBy u
  | [], hne, _, _ => absurd rfl hne
  | [last], _, hi, h => by
    obtain ⟨g, hg, hgl⟩ := metBy_object_iff.mp h _ (List.mem_singleton.mpr rfl)
    obtain ⟨hname, hopt, hshape⟩ := hgl
    cases hname
    exact ⟨g.2, .last hg (hi _ (List.mem_cons_self ..)) hopt, hshape⟩
  | first :: second :: rest, _, hi, h => by
    obtain ⟨g, hg, hgf⟩ := metBy_object_iff.mp h _ (List.mem_singleton.mpr rfl)
    obtain ⟨hname, hopt, hshape⟩ := hgf
    obtain ⟨u, hu, hsu⟩ := tracks_of_wrap (by simp) (fun s hs => hi s (List.mem_cons_of_mem _ hs))
      hshape
    cases hname
    exact ⟨u, .step hg (hi _ (List.mem_cons_self ..)) (by simpa using hopt) hu, hsu⟩

mutual

/-- The tags of the node, and of the nodes inside it, find their fields in the shape of the root and
in `here`, the shape of the data around the node. The content of an inverted block is left out. -/
def Node.Covered (root here : Shape) : Node → Prop
  | .text _ | .dot _ | .comment _ | .reference _ => True
  | .var name _ type .context =>
    ∃ t, here.Tracks (type.elim false ValueType.optional) name.segments t
  | .var name _ type .root =>
    ∃ t, root.Tracks (type.elim false ValueType.optional) name.segments t
  | .block name content optional =>
    ∃ inner, here.Tracks optional name.segments inner ∧ AllCovered root inner content
  | .inverted name _ => ∃ t, here.Tracks false name.segments t

def AllCovered (root here : Shape) : List Node → Prop
  | [] => True
  | n :: ns => n.Covered root here ∧ AllCovered root here ns

end

theorem allCovered_iff {root here : Shape} {ns : List Node} :
    AllCovered root here ns ↔ ∀ n ∈ ns, n.Covered root here := by
  induction ns with
  | nil => simp [AllCovered]
  | cons n ns ih => rw [AllCovered, ih, List.forall_mem_cons]

theorem Node.eachOf_iff {P : Node → Prop} {ns : List Node} :
    Node.EachOf P ns ↔ ∀ n ∈ ns, n.Each P := by
  induction ns with
  | nil => simp [EachOf]
  | cons n ns ih => rw [EachOf, ih, List.forall_mem_cons]

section
variable {root here : Shape} {r q : Requirements} {n : Node} {ns : List Node}

theorem tracks_of_chain {name : Path} {optional array : Bool} {shape t : Shape} {fs : Fields}
    (hw : Parser.PathInWords name) (h : Fields.chain name.segments optional array shape = .ok fs)
    (ht : (Shape.object fs).MetBy t) :
    ∃ u, t.Tracks optional name.segments u ∧ shape.MetBy u := by
  obtain ⟨hi, rfl⟩ := Fields.chain_eq_ok.mp h
  exact Shape.tracks_of_wrap name.segments_ne_nil
    (fun s hs => Value.index?_eq_none (hw s hs) (hi s hs)) ht

theorem Requirements.metBy_of_blockShape {t : Shape} (h : r.blockShape.1.MetBy t) :
    (Shape.object r.here).MetBy t := by
  unfold blockShape at h
  split at h
  · rename_i hh; rw [hh]; exact .nil t
  · rename_i hh; rw [hh]; exact .nil t
  · exact h

theorem covered_of_fragment (hw : n.Each Parser.TagInWords) (h : n.fragment = .ok q)
    (hh : (Shape.object q.here).MetBy here) (hr : (Shape.object q.root).MetBy root) :
    n.Covered root here := by
  induction n using Node.contentInduction generalizing q here with
  | text | comment | reference | dot => trivial
  | var name raw type scope =>
    cases scope with
    | context =>
      obtain ⟨fs, hfs, h⟩ := bind_eq_ok.mp h
      cases h
      obtain ⟨l, hl, _⟩ := Fields.ofVariable_eq_ok.mp hfs
      obtain ⟨u, hu, _⟩ := tracks_of_chain hw.1 hl hh
      exact ⟨u, hu⟩
    | root =>
      obtain ⟨fs, hfs, h⟩ := bind_eq_ok.mp h
      cases h
      obtain ⟨l, hl, _⟩ := Fields.ofVariable_eq_ok.mp hfs
      obtain ⟨u, hu, _⟩ := tracks_of_chain hw.1 hl hr
      exact ⟨u, hu⟩
  | block name content optional ih =>
    obtain ⟨inner, hi, h⟩ := bind_eq_ok.mp h
    obtain ⟨fs, hfs, h⟩ := bind_eq_ok.mp h
    cases h
    obtain ⟨u, hu, hshape⟩ := tracks_of_chain hw.1 hfs hh
    have hinner := Requirements.metBy_of_blockShape hshape
    refine ⟨u, hu, allCovered_iff.mpr fun n hn => ?_⟩
    obtain ⟨_, _, hb⟩ := bounds_of_requireAll .empty hi
    obtain ⟨q, hq, hqi⟩ := hb n hn
    have huq := uniqueKeys_fragment hq
    exact ih n hn (Node.eachOf_iff.mp hw.2 n hn) hq
      ((Shape.MetBy.of_below huq.here hqi.here).trans hinner)
      ((Shape.MetBy.of_below huq.root hqi.root).trans hr)
  | inverted name content =>
    obtain ⟨fs, hfs, h⟩ := bind_eq_ok.mp h
    cases h
    obtain ⟨u, hu, _⟩ := tracks_of_chain hw.1 hfs hh
    exact ⟨u, hu⟩

end

/-- Every tag of a parsed template finds its path among the inferred fields. -/
theorem Template.covered {source : String} {t : Template} {fs : Fields}
    (h : Template.parse source = .ok t) (hf : t.fields = .ok fs) :
    AllCovered (.object fs) (.object fs) t.nodes := by
  obtain ⟨r, merged, hr, hm, hs⟩ := infer_eq_ok.mp hf
  obtain ⟨hu, _, hb⟩ := bounds_of_requireAll .empty hr
  have hmerge := Fields.least_merge hu.here hu.root
  have hmet := Fields.metBy_settle (hmerge.unique _ hm) hs
  obtain ⟨hhere, hroot⟩ := hmerge.holds _ hm
  refine allCovered_iff.mpr fun n hn => ?_
  obtain ⟨q, hq, hqr⟩ := hb n hn
  have huq := uniqueKeys_fragment hq
  exact covered_of_fragment (Node.eachOf_iff.mp (Template.inWords_of_parse h) n hn) hq
    ((Shape.MetBy.of_below huq.here (hqr.here.trans hhere)).trans hmet)
    ((Shape.MetBy.of_below huq.root (hqr.root.trans hroot)).trans hmet)

end Stencil
