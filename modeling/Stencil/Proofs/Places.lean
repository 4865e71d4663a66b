import Stencil.Proofs.Coverage
import Stencil.Proofs.Uniting

/-!
# Fields and their places

A field of a shape has a place: the names that lead to it from the outermost field down. What can be
said of a place without a look at the fields inside are its `Marks`. Some properties of marks `Sum`:
two uses taken together have them exactly if one of the uses has them. Merging and settling neither
lose such a property at any place nor bring it to a new one (`Shape.has_merge`,
`Fields.has_settle`).
-/

namespace Stencil

open Outcome Fields

/-- What a field is without its name and the fields inside; an object has no leaf. -/
structure Marks where
  optional : Bool
  array : Bool
  leaf : Option Leaf

def Shape.leaf? : Shape → Option Leaf
  | leaf l => some l
  | object _ => none

def Fields.marks (f : Key × Shape) : Marks := ⟨f.1.optional, f.1.array, f.2.leaf?⟩

namespace Shape

/-- The field `g` stands at the end of the path, which leads to it by the names of fields. -/
inductive At : Shape → List String → Key × Shape → Prop
  | last {s : Shape} {g : Key × Shape} (mem : g ∈ s.fields) : At s [g.1.name] g
  | step {s : Shape} {f g : Key × Shape} {path : List String} (mem : f ∈ s.fields)
      (inner : At f.2 path g) : At s (f.1.name :: path) g

/-- A field at the place has marks with the property `Q`. -/
def Has (s : Shape) (Q : Marks → Prop) (path : List String) : Prop :=
  ∃ g, s.At path g ∧ Q (marks g)

section
variable {Q : Marks → Prop} {s t m : Shape} {f g g' : Key × Shape} {fs gs : Fields}
variable {name : String} {path rest : List String}

theorem not_at_nil : ¬ s.At [] g := nofun

/-- A path ends with the name of the field that it leads to. -/
theorem At.name_eq (h : s.At path g) : ∃ parents, path = parents ++ [g.1.name] := by
  induction h with
  | last => exact ⟨[], rfl⟩
  | @step s f g path _ _ ih =>
    obtain ⟨parents, rfl⟩ := ih
    exact ⟨f.1.name :: parents, rfl⟩

theorem at_cons_iff : s.At (name :: rest) g ↔
    ∃ f ∈ s.fields, f.1.name = name ∧ (rest = [] ∧ g = f ∨ f.2.At rest g) := by
  constructor
  · rintro (⟨hm⟩ | ⟨hm, hi⟩)
    · exact ⟨g, hm, rfl, .inl ⟨rfl, rfl⟩⟩
    · exact ⟨_, hm, rfl, .inr hi⟩
  · rintro ⟨f, hm, rfl, ⟨rfl, rfl⟩ | hi⟩
    · exact .last hm
    · exact .step hm hi

theorem not_has_nil : ¬ s.Has Q [] := fun ⟨_, h, _⟩ => not_at_nil h

/-- The field itself, or one inside it, has marks with the property `Q`. -/
def HasBelow (Q : Marks → Prop) (rest : List String) (f : Key × Shape) : Prop :=
  rest = [] ∧ Q (marks f) ∨ f.2.Has Q rest

theorem hasBelow_or {h : Key × Shape} (hm : Q (marks h) ↔ Q (marks f) ∨ Q (marks g))
    (hi : h.2.Has Q rest ↔ f.2.Has Q rest ∨ g.2.Has Q rest) :
    HasBelow Q rest h ↔ HasBelow Q rest f ∨ HasBelow Q rest g := by
  unfold HasBelow
  rw [hm, hi, and_or_left]
  exact or_or_or_comm

theorem has_cons_iff :
    s.Has Q (name :: rest) ↔ ∃ f ∈ s.fields, f.1.name = name ∧ HasBelow Q rest f := by
  constructor
  · rintro ⟨g, hg, hQ⟩
    obtain ⟨f, hm, hn, ⟨hr, rfl⟩ | hi⟩ := at_cons_iff.mp hg
    · exact ⟨_, hm, hn, .inl ⟨hr, hQ⟩⟩
    · exact ⟨f, hm, hn, .inr ⟨g, hi, hQ⟩⟩
  · rintro ⟨f, hm, hn, ⟨hr, hQ⟩ | ⟨g, hi, hQ⟩⟩
    · exact ⟨f, at_cons_iff.mpr ⟨f, hm, hn, .inl ⟨hr, rfl⟩⟩, hQ⟩
    · exact ⟨g, at_cons_iff.mpr ⟨f, hm, hn, .inr hi⟩, hQ⟩

theorem has_object_append :
    (object (fs ++ gs)).Has Q path ↔ (object fs).Has Q path ∨ (object gs).Has Q path := by
  cases path with
  | nil => simp [not_has_nil]
  | cons name rest =>
    rw [has_cons_iff, has_cons_iff, has_cons_iff]
    simp [fields, or_and_right, exists_or]

theorem has_object_cons :
    (object (f :: fs)).Has Q path ↔ (object [f]).Has Q path ∨ (object fs).Has Q path := by
  rw [← List.singleton_append, has_object_append]

theorem has_object_middle : (object (fs ++ f :: gs)).Has Q path ↔
    (object (fs ++ gs)).Has Q path ∨ (object [f]).Has Q path := by
  rw [has_object_append, has_object_cons, has_object_append, or_left_comm, or_comm]

theorem has_object_congr {R : Key × Shape → Key × Shape → Prop} (h : List.Forall₂ R fs gs)
    (hR : ∀ f ∈ fs, ∀ g, R f g → ((object [g]).Has Q path ↔ (object [f]).Has Q path)) :
    (object gs).Has Q path ↔ (object fs).Has Q path := by
  induction h with
  | nil => exact Iff.rfl
  | @cons f g fs gs hfg _ ih =>
    obtain ⟨hf, hfs⟩ := List.forall_mem_cons.mp hR
    rw [has_object_cons, has_object_cons (f := f)]
    exact or_congr (hf g hfg) (ih hfs)

theorem has_singleton_cons :
    (object [f]).Has Q (name :: rest) ↔ f.1.name = name ∧ HasBelow Q rest f := by
  rw [has_cons_iff]
  simp [fields]

theorem UniqueKeys.fields (hs : s.UniqueKeys) : s.fields.UniqueKeys := by
  cases s with
  | leaf l => exact .nil
  | object fs => exact hs

theorem has_cons_iff_get? (hs : s.UniqueKeys) : s.Has Q (name :: rest) ↔
    ∃ key : Key, key.name = name ∧ ∃ u, s.fields.get? key = some u ∧ HasBelow Q rest (key, u) := by
  rw [has_cons_iff]
  constructor
  · rintro ⟨⟨key, u⟩, hm, hn, h⟩
    exact ⟨key, hn, u, hs.fields.get?_of_mem hm, h⟩
  · rintro ⟨key, hn, u, hu, h⟩
    exact ⟨(key, u), mem_of_get? hu, hn, h⟩

theorem not_has_leaf {l : Leaf} : ¬ (leaf l).Has Q path := by
  rintro ⟨g, h, _⟩
  cases h with
  | last hm => cases hm
  | step hm => cases hm

/-! ### Shapes with distinct names -/

theorem At.of_append (h : s.At (path ++ rest) g) (hp : path ≠ []) (hr : rest ≠ []) :
    ∃ f, s.At path f ∧ f.2.At rest g := by
  induction path generalizing s with
  | nil => exact absurd rfl hp
  | cons name path ih =>
    obtain ⟨f, hm, hn, ⟨hnil, -⟩ | hi⟩ := at_cons_iff.mp h
    · simp [hr] at hnil
    · cases path with
      | nil => exact ⟨f, hn ▸ .last hm, hi⟩
      | cons name' path =>
        obtain ⟨k, hk, hg⟩ := ih hi (List.cons_ne_nil _ _)
        exact ⟨k, hn ▸ .step hm hk, hg⟩

theorem At.append (h : s.At path f) (h' : f.2.At rest g) : s.At (path ++ rest) g := by
  induction h with
  | last hm => exact .step hm h'
  | step hm _ ih => exact .step hm (ih h')

theorem eq_of_name_eq (hs : s.Distinct Key.name) (hf : f ∈ s.fields) (hg : g ∈ s.fields)
    (hn : f.1.name = g.1.name) : f = g := by
  cases hs with
  | leaf => cases hf
  | object hk _ =>
    rw [← names_eq] at hk
    exact List.inj_on_of_nodup_map hk hf hg hn

theorem At.unique (hs : s.Distinct Key.name) (h : s.At path g) (h' : s.At path g') : g = g' := by
  induction path generalizing s with
  | nil => exact absurd h not_at_nil
  | cons name rest ih =>
    obtain ⟨f, hf, hfn, hg⟩ := at_cons_iff.mp h
    obtain ⟨f', hf', hfn', hg'⟩ := at_cons_iff.mp h'
    cases eq_of_name_eq hs hf hf' (hfn.trans hfn'.symm)
    rcases hg with ⟨rfl, rfl⟩ | hg
    · rcases hg' with ⟨-, rfl⟩ | hg'
      · rfl
      · exact absurd hg' not_at_nil
    · rcases hg' with ⟨rfl, -⟩ | hg'
      · exact absurd hg not_at_nil
      · cases hs with
        | leaf => cases hf
        | object _ hin => exact ih (hin f hf) hg hg'

theorem At.has_iff (hs : s.Distinct Key.name) (h : s.At path g) : s.Has Q path ↔ Q (marks g) :=
  ⟨fun ⟨_, h', hQ⟩ => h.unique hs h' ▸ hQ, fun hQ => ⟨g, h, hQ⟩⟩

end

/-! ### Merging, field by field -/

/-- What two shapes with a field of one key, or one of them, come to under that key. -/
inductive Joins : Option Shape → Option Shape → Option Shape → Prop
  | neither : Joins none none none
  | left (s : Shape) : Joins (some s) none (some s)
  | right (t : Shape) : Joins none (some t) (some t)
  | both {s t m : Shape} {path : List String} (h : s.merge path t = .ok m) :
      Joins (some s) (some t) (some m)

theorem Joins.to_right : ∀ t : Option Shape, Joins none t t
  | none => .neither
  | some t => .right t

/-- If the merge of two shapes sums up a property, so does what they come to under a key. -/
theorem Joins.exists_iff {P : Shape → Prop} {a b c : Option Shape} (h : Joins a b c)
    (hP : ∀ {path s t m}, a = some s → b = some t → Shape.merge path s t = .ok m →
      (P m ↔ P s ∨ P t)) :
    (∃ u, c = some u ∧ P u) ↔ (∃ u, a = some u ∧ P u) ∨ ∃ u, b = some u ∧ P u := by
  cases h with
  | neither => simp
  | left s => simp
  | right t => simp
  | both h => simpa using hP rfl rfl h

theorem Joins.to_left : ∀ s : Option Shape, Joins s none s
  | none => .neither
  | some s => .left s

section
variable {path : List String} {s t m : Shape} {into : Fields} {f g : Key × Shape}

theorem joins_mergeInto {rest : List (Key × Shape)} {m : Fields}
    (hr : (rest.map Prod.fst).Nodup) (h : mergeInto path into rest = .ok m) (key : Key) :
    Joins (into.get? key) (get? rest key) (m.get? key) := by
  induction rest generalizing into with
  | nil => cases h; exact .to_left _
  | cons f rest ih =>
    obtain ⟨hf, hr⟩ := List.nodup_cons.mp hr
    obtain ⟨u, hu, h⟩ := mergeInto_cons_eq_ok.mp h
    have hjoin := ih hr h
    rw [get?_set] at hjoin
    rw [get?_cons]
    by_cases hk : key = f.1
    · -- no later field has this key
      have hnone : get? rest key = none := by
        cases hg : get? rest key with
        | none => rfl
        | some v => exact absurd (mem_keys_iff.mpr ⟨v, hg⟩) (hk ▸ hf)
      rw [if_pos hk, hnone] at hjoin
      rw [if_pos hk, hk]
      rw [hk] at hjoin
      generalize m.get? f.1 = r at hjoin
      cases hjoin
      rcases hu with ⟨p, hp, hu⟩ | ⟨hp, rfl⟩
      · rw [hp]; exact .both hu
      · rw [hp]; exact .right _
    · rwa [if_neg hk] at hjoin ⊢

theorem joins_merge (ht : t.UniqueKeys) (h : s.merge path t = .ok m) (key : Key) :
    Joins (s.fields.get? key) (t.fields.get? key) (m.fields.get? key) := by
  cases t with
  | leaf l =>
    cases l with
    | any => rw [merge_any] at h; cases h; exact .to_left _
    | oneOf b =>
      cases s with
      | object fs => cases h
      | leaf l =>
        cases l with
        | any => cases h; exact .neither
        | oneOf a =>
          rw [merge] at h
          split at h
          · cases h; exact .neither
          · cases h
  | object gs =>
    cases s with
    | leaf l =>
      cases l with
      | any => cases h; exact .to_right _
      | oneOf a => cases h
    | object fs =>
      obtain ⟨ms, hms, rfl⟩ := merge_object_eq_ok.mp h
      have hg : Fields.UniqueKeys gs := ht
      exact joins_mergeInto hg.nodup hms key

/-- Apart from an open leaf, a leaf or an object comes out of a merge just if it went in. -/
theorem leaf?_merge {x : Option Leaf} (hx : x ≠ some .any) (h : s.merge path t = .ok m) :
    m.leaf? = x ↔ s.leaf? = x ∨ t.leaf? = x := by
  cases t with
  | leaf l =>
    cases l with
    | any =>
      rw [merge_any] at h
      cases h
      simp [leaf?, hx.symm]
    | oneOf b =>
      cases s with
      | object fs => cases h
      | leaf l =>
        cases l with
        | any => cases h; simp [leaf?, hx.symm]
        | oneOf a =>
          rw [merge] at h
          split at h
          · rename_i hab; cases h; simp [leaf?, hab]
          · cases h
  | object gs =>
    cases s with
    | leaf l =>
      cases l with
      | any => cases h; simp [leaf?, hx.symm]
      | oneOf a => cases h
    | object fs =>
      obtain ⟨ms, hms, rfl⟩ := merge_object_eq_ok.mp h
      simp [leaf?]

theorem leaf?_fill {items plain : Shape} (h : fill path items plain = .ok m) :
    (m.leaf? = none ↔ items.leaf? = none ∨ plain.leaf? = none) ∧
      ∀ types, m.leaf? = some (.oneOf types) ↔ items.leaf? = some (.oneOf types) := by
  rcases fill_eq_ok.mp h with ⟨rfl, rfl⟩ | ⟨hp, h⟩
  · exact ⟨by simp [leaf?], fun types => Iff.rfl⟩
  · refine ⟨leaf?_merge (by simp) h, fun types => ?_⟩
    rw [leaf?_merge (x := some (.oneOf types)) (by simp) h, or_iff_left]
    rcases hp with rfl | ⟨fs, rfl⟩ <;> simp [leaf?]

end

end Shape

/-! ### Properties that sum up -/

theorem together_eq_ok {path : List String} {f g : Key × Shape} {s : Shape}
    (h : together path f g = .ok s) :
    (f.1.array = g.1.array ∧ f.2.merge path g.2 = .ok s) ∨
      (f.1.array = true ∧ g.1.array = false ∧ fill path f.2 g.2 = .ok s) ∨
      (f.1.array = false ∧ g.1.array = true ∧ fill path g.2 f.2 = .ok s) := by
  cases hf : f.1.array <;> cases hg : g.1.array
  · exact .inl ⟨rfl, (together_of_same (hf.trans hg.symm)).symm.trans h⟩
  · exact .inr (.inr ⟨rfl, rfl, (together_of_right hf hg).symm.trans h⟩)
  · exact .inr (.inl ⟨rfl, rfl, (together_of_left hf hg).symm.trans h⟩)
  · exact .inl ⟨rfl, (together_of_same (hf.trans hg.symm)).symm.trans h⟩

/-- Two uses of one name taken together have the property exactly if one of them has it. -/
structure Sums (Q : Marks → Prop) : Prop where
  together_iff {path : List String} {f g : Key × Shape} {s : Shape}
    (h : together path f g = .ok s) : Q (marks (f.1.join g.1, s)) ↔ Q (marks f) ∨ Q (marks g)

namespace Sums

variable {Q : Marks → Prop}

theorem present : Sums fun _ => True := ⟨fun _ => by simp⟩

theorem required : Sums fun m => m.optional = false := ⟨fun _ => Bool.and_eq_false_iff⟩

theorem list : Sums fun m => m.array = true := ⟨fun _ => Bool.or_eq_true_iff⟩

theorem object : Sums fun m => m.leaf = none := by
  refine ⟨fun h => ?_⟩
  rcases together_eq_ok h with ⟨-, h⟩ | ⟨-, -, h⟩ | ⟨-, -, h⟩
  · exact Shape.leaf?_merge nofun h
  · exact (Shape.leaf?_fill h).1
  · exact (Shape.leaf?_fill h).1.trans or_comm

/-- A list of a set of types. -/
theorem typedList (types : NameSet) :
    Sums fun m => m.array = true ∧ m.leaf = some (.oneOf types) := by
  refine ⟨fun {path f g s} h => ?_⟩
  show (f.1.array || g.1.array) = true ∧ s.leaf? = some (.oneOf types) ↔
    (f.1.array = true ∧ f.2.leaf? = some (.oneOf types)) ∨
      (g.1.array = true ∧ g.2.leaf? = some (.oneOf types))
  rcases together_eq_ok h with ⟨ha, h⟩ | ⟨hf, hg, h⟩ | ⟨hf, hg, h⟩
  · have hm := Shape.leaf?_merge (x := some (.oneOf types)) (by simp) h
    rw [hm, ha, Bool.or_self, and_or_left]
  · simp [hf, hg, (Shape.leaf?_fill h).2]
  · simp [hf, hg, (Shape.leaf?_fill h).2]

/-- A set of types, unless a list takes its place. -/
theorem typed (types : NameSet) :
    Sums fun m => m.array = true ∨ m.leaf = some (.oneOf types) := by
  refine ⟨fun {path f g s} h => ?_⟩
  show (f.1.array || g.1.array) = true ∨ s.leaf? = some (.oneOf types) ↔
    (f.1.array = true ∨ f.2.leaf? = some (.oneOf types)) ∨
      (g.1.array = true ∨ g.2.leaf? = some (.oneOf types))
  rcases together_eq_ok h with ⟨ha, h⟩ | ⟨hf, hg, h⟩ | ⟨hf, hg, h⟩
  · have hm := Shape.leaf?_merge (x := some (.oneOf types)) (by simp) h
    rw [hm, ha, Bool.or_self, or_or_distrib_left]
  · simp [hf]
  · simp [hg]

/-- A set of types other than the one of what is only tested. -/
theorem plain {types : NameSet} (hne : Leaf.oneOf types ≠ .boolean) :
    Sums fun m => m.array = false ∧ m.leaf = some (.oneOf types) := by
  -- beside a list, no value of such a type is accepted
  have hfill : ∀ {path items plain s}, fill path items plain = .ok s →
      plain.leaf? ≠ some (.oneOf types) := by
    intro path items plain s h heq
    rcases fill_eq_ok.mp h with ⟨rfl, -⟩ | ⟨rfl | ⟨fs, rfl⟩, -⟩
    · exact hne (Option.some.inj heq).symm
    · cases heq
    · cases heq
  refine ⟨fun {path f g s} h => ?_⟩
  show (f.1.array || g.1.array) = false ∧ s.leaf? = some (.oneOf types) ↔
    (f.1.array = false ∧ f.2.leaf? = some (.oneOf types)) ∨
      (g.1.array = false ∧ g.2.leaf? = some (.oneOf types))
  rcases together_eq_ok h with ⟨ha, h⟩ | ⟨hf, hg, h⟩ | ⟨hf, hg, h⟩
  · have hm := Shape.leaf?_merge (x := some (.oneOf types)) (by simp) h
    rw [hm, ha, Bool.or_self, and_or_left]
  · simp [hf, hfill h]
  · simp [hg, hfill h]

theorem merge (hQ : Sums Q) {path : List String} {key : Key} {s t m : Shape}
    (h : s.merge path t = .ok m) :
    Q (marks (key, m)) ↔ Q (marks (key, s)) ∨ Q (marks (key, t)) := by
  have hj : key.join key = key := by simp [Key.join]
  have hsum := hQ.together_iff ((together_of_same (f := (key, s)) (g := (key, t)) rfl).trans h)
  rwa [hj] at hsum

end Sums

/-! ### Places through merging and settling -/

section
variable {Q : Marks → Prop} (hQ : Sums Q)
include hQ

theorem Shape.has_merge {path names : List String} {s t m : Shape} (hs : s.UniqueKeys)
    (ht : t.UniqueKeys) (h : s.merge path t = .ok m) :
    m.Has Q names ↔ s.Has Q names ∨ t.Has Q names := by
  induction names generalizing s t m path with
  | nil => simp [not_has_nil]
  | cons name rest ih =>
    rw [has_cons_iff_get? (merge_above hs ht h).unique, has_cons_iff_get? hs,
      has_cons_iff_get? ht, ← exists_or]
    refine exists_congr fun key => (and_congr_right fun _ => ?_).trans and_or_left
    refine (joins_merge ht h key).exists_iff fun hu hv hm => ?_
    exact hasBelow_or (hQ.merge hm) (ih (hs.fields.of_get? hu) (ht.fields.of_get? hv) hm)

theorem Shape.has_fill {path names : List String} {items plain m : Shape} (hi : items.UniqueKeys)
    (hp : plain.UniqueKeys) (h : fill path items plain = .ok m) :
    m.Has Q names ↔ items.Has Q names ∨ plain.Has Q names := by
  rcases fill_eq_ok.mp h with ⟨rfl, rfl⟩ | ⟨-, h⟩
  · simp [not_has_leaf]
  · exact has_merge hQ hi hp h

namespace Fields

variable {path names : List String} {fs settled folded out : Fields} {f g both : Key × Shape}

theorem has_combine (hf : f.2.UniqueKeys) (hg : g.2.UniqueKeys) (hn : f.1.name = g.1.name)
    (h : combine path f g = .ok both) : (Shape.object [both]).Has Q names ↔
      (Shape.object [f]).Has Q names ∨ (Shape.object [g]).Has Q names := by
  obtain ⟨hk, h⟩ := (combine_eq_ok hn).mp h
  have hname : both.1.name = f.1.name := by rw [hk]; rfl
  have hmarks : Q (marks both) ↔ Q (marks f) ∨ Q (marks g) := by
    rw [← hQ.together_iff h, ← hk]
  have hbelow : ∀ rest, both.2.Has Q rest ↔ f.2.Has Q rest ∨ g.2.Has Q rest := fun rest => by
    rcases together_eq_ok h with ⟨-, h⟩ | ⟨-, -, h⟩ | ⟨-, -, h⟩
    · exact Shape.has_merge hQ hf hg h
    · exact Shape.has_fill hQ hf hg h
    · exact (Shape.has_fill hQ hg hf h).trans or_comm
  cases names with
  | nil => simp [Shape.not_has_nil]
  | cons name rest =>
    rw [Shape.has_singleton_cons, Shape.has_singleton_cons, Shape.has_singleton_cons, hname, ← hn,
      ← and_or_left]
    exact and_congr_right fun _ => Shape.hasBelow_or hmarks (hbelow rest)

theorem has_absorb {field : Key × Shape} (hs : ∀ f ∈ settled, f.2.UniqueKeys)
    (hfield : field.2.UniqueKeys) (h : absorb path field settled = .ok out) :
    (Shape.object out).Has Q names ↔
      (Shape.object settled).Has Q names ∨ (Shape.object [field]).Has Q names := by
  rcases absorb_eq_ok h with ⟨before, first, after, both, rfl, _, hn, hb, rfl⟩ | ⟨_, rfl⟩
  · rw [Shape.has_object_middle, Shape.has_object_middle, or_assoc,
      has_combine hQ (hs first (by simp)) hfield hn hb]
  · exact Shape.has_object_append

theorem has_fold (hfs : ∀ f ∈ fs, f.2.UniqueKeys) (h : fold path fs = .ok folded) :
    (Shape.object folded).Has Q names ↔ (Shape.object fs).Has Q names := by
  have hinv : (∀ f ∈ folded, f.2.UniqueKeys) ∧
      ((Shape.object folded).Has Q names ↔ (Shape.object fs).Has Q names) := by
    refine foldlM_invariant (motive := fun seen settled => (∀ f ∈ settled, f.2.UniqueKeys) ∧
      ((Shape.object settled).Has Q names ↔ (Shape.object seen).Has Q names)) h
      ⟨nofun, Iff.rfl⟩ fun seen field settled out ⟨hu, hseen⟩ hmem ha => ?_
    refine ⟨absorb_keeps merge_unique hu (hfs field hmem) ha, ?_⟩
    rw [has_absorb hQ hu (hfs field hmem) ha, hseen, Shape.has_object_append]
  exact hinv.2

theorem has_settleLevels {levels : Nat} (hfs : ∀ f ∈ fs, f.2.UniqueKeys)
    (h : settleLevels levels path fs = .ok out) :
    (Shape.object out).Has Q names ↔ (Shape.object fs).Has Q names := by
  induction levels generalizing path fs out names with
  | zero => cases h; exact Iff.rfl
  | succ levels ih =>
    obtain ⟨folded, hfold, hout⟩ := settleLevels_succ_eq_ok.mp h
    have hu := fold_keeps merge_unique hfs hfold
    rw [← has_fold hQ hfs hfold]
    refine Shape.has_object_congr hout fun f hf g hfg => ?_
    cases hfg with
    | leaf => exact Iff.rfl
    | @object key inner settled hs =>
      have hinner : Fields.UniqueKeys inner := hu _ hf
      cases names with
      | nil => simp [Shape.not_has_nil]
      | cons name rest =>
        rw [Shape.has_singleton_cons, Shape.has_singleton_cons]
        unfold Shape.HasBelow
        rw [ih (fun f hf => hinner.of_mem hf) hs]
        exact Iff.rfl

/-- Settling neither loses a property that sums up at any place nor brings it to a new one. -/
theorem has_settle (hfs : fs.UniqueKeys) (h : fs.settle = .ok out) :
    (Shape.object out).Has Q names ↔ (Shape.object fs).Has Q names :=
  has_settleLevels hQ (fun _ hf => hfs.of_mem hf) h

end Fields

end

end Stencil
