import Stencil.Proofs.Folding

/-!
# What the uses of one name come to

`Unites uses g` says, without regard to any order, what a field for all uses of a name has to be. A
fold can only reach such fields (`Fields.reaches_of_fold`). In whatever order it meets the uses, it
reaches them, or it stops at a plain test next to a plain object of a name that is a list
(`Fields.fold_cases`).
-/

namespace Stencil

open Outcome

namespace Shape

/-- A plain use of this shape can stand beside a list of the same name. -/
def Yields (s : Shape) : Prop := s = .leaf .any ∨ s = .leaf .boolean ∨ ∃ fs : Fields, s = .object fs

theorem Below.eq_any {s : Shape} (h : s.Below (.leaf .any)) : s = .leaf .any := by cases h; rfl

theorem Below.of_oneOf {s : Shape} {types : NameSet} (h : s.Below (.leaf (.oneOf types))) :
    s = .leaf .any ∨ s = .leaf (.oneOf types) := by
  cases h with
  | any => exact .inl rfl
  | oneOf => exact .inr rfl

theorem exists_boolean_eq : ∃ types, Leaf.boolean = .oneOf types := ⟨_, rfl⟩

theorem Below.of_boolean {s : Shape} (h : s.Below (.leaf .boolean)) :
    s = .leaf .any ∨ s = .leaf .boolean := by
  obtain ⟨types, ht⟩ := exists_boolean_eq
  rw [ht] at h ⊢
  exact h.of_oneOf

theorem Yields.of_below {s t : Shape} (ht : t.Yields) (h : s.Below t) : s.Yields := by
  rcases ht with rfl | rfl | ⟨fs, rfl⟩
  · exact .inl h.eq_any
  · exact h.of_boolean.imp_right .inl
  · exact h.of_object.imp_right .inr

/-- A test and an object, in either order. -/
inductive Clash : Shape → Shape → Prop
  | test (fs : Fields) : Clash (.leaf .boolean) (.object fs)
  | fields (fs : Fields) : Clash (.object fs) (.leaf .boolean)

theorem object_ne_boolean (fs : Fields) : Shape.object fs ≠ .leaf .boolean := by
  intro h
  cases h

theorem not_test_and_object {fs : Fields} {u : Shape} (h : (leaf .boolean).Below u)
    (h' : (object fs).Below u) : False := by
  cases h' with
  | object => rcases h.of_object with h | ⟨_, h⟩ <;> cases h

theorem ne_boolean_of_below {s t : Shape} (h : s.Below t) (hy : t.Yields)
    (ht : t ≠ .leaf .boolean) : s ≠ .leaf .boolean := by
  rintro rfl
  rcases hy with rfl | rfl | ⟨fs, rfl⟩
  · cases h.eq_any
  · exact ht rfl
  · rcases h.of_object with h | ⟨_, h⟩ <;> cases h

end Shape

/-- The conflict of a name that is tested here and has fields there. -/
def Conflict.IsTestClash (path : List String) (c : Conflict) : Prop :=
  ∃ s t, Shape.Clash s t ∧ c = .shape path s.describe t.describe

namespace Fields

open Shape

variable {path : List String} {fs gs uses all seen settled folded out : Fields}
variable {f g first field : Key × Shape}

/-- Whether a use has a say in the shape of its name: beside a list, a plain test has none. -/
def Counts (list : Bool) (f : Key × Shape) : Prop :=
  list = true → f.1.array = false → f.2 ≠ .leaf .boolean

theorem Counts.of_array {list : Bool} (h : f.1.array = true) : Counts list f :=
  fun _ hp => absurd (h.symm.trans hp) (by decide)

theorem Counts.of_plain {list : Bool} (h : list = false) : Counts list f :=
  fun hl => absurd (hl.symm.trans h) (by decide)

theorem Counts.of_ne {list : Bool} (h : f.2 ≠ .leaf .boolean) : Counts list f := fun _ _ => h

/-- The field `g` is what the uses come to, all of one name. -/
structure Unites (uses : Fields) (g : Key × Shape) : Prop where
  nonempty : ∃ f, f ∈ uses
  unique : g.2.UniqueKeys
  optional : g.1.optional = true ↔ ∀ f ∈ uses, f.1.optional = true
  array : g.1.array = true ↔ ∃ f ∈ uses, f.1.array = true
  yields : g.1.array = true → ∀ f ∈ uses, f.1.array = false → f.2.Yields
  above : ∀ f ∈ uses, Counts g.1.array f → f.2.Below g.2
  least : ∀ u, (∀ f ∈ uses, Counts g.1.array f → f.2.Below u) → g.2.Below u

namespace Unites

theorem singleton (h : f.2.UniqueKeys) : Unites [f] f := by
  refine ⟨⟨f, List.mem_singleton.mpr rfl⟩, h, by simp, by simp, ?_, ?_, ?_⟩
  · rintro ha _ hf hp
    cases List.mem_singleton.mp hf
    exact absurd (ha.symm.trans hp) (by decide)
  · rintro _ hf -
    exact List.mem_singleton.mp hf ▸ .refl _
  · intro u hu
    cases ha : f.1.array with
    | true => exact hu f (List.mem_singleton.mpr rfl) (.of_array ha)
    | false => exact hu f (List.mem_singleton.mpr rfl) (.of_plain ha)

theorem plain_of_not_array (h : Unites uses g) (ha : g.1.array = false) (hf : f ∈ uses) :
    f.1.array = false := by
  cases hfa : f.1.array with
  | false => rfl
  | true => exact (h.array.mpr ⟨f, hf, hfa⟩).symm.trans ha

theorem above_of_plain (h : Unites uses g) (ha : g.1.array = false) (hf : f ∈ uses) :
    f.2.Below g.2 :=
  h.above f hf (.of_plain ha)

theorem least_of_plain (h : Unites uses g) {u : Shape} (hu : ∀ f ∈ uses, f.2.Below u) :
    g.2.Below u :=
  h.least u fun f hf _ => hu f hf

end Unites

/-! ### Two uses -/

/-- What a filled list is: above its items, and above the plain use unless that is a test. -/
structure Fills (s items plain : Shape) : Prop where
  unique : s.UniqueKeys
  yields : plain.Yields
  left : items.Below s
  right : plain ≠ .leaf .boolean → plain.Below s
  least : ∀ u, items.Below u → (plain ≠ .leaf .boolean → plain.Below u) → s.Below u

theorem fills_of_fill {items plain s : Shape} (hi : items.UniqueKeys) (hp : plain.UniqueKeys)
    (h : fill path items plain = .ok s) : Fills s items plain := by
  rcases fill_eq_ok.mp h with ⟨rfl, rfl⟩ | ⟨hplain, hm⟩
  · exact ⟨hi, .inr (.inl rfl), .refl _, fun hne => absurd rfl hne, fun u hu _ => hu⟩
  · have habove := merge_above hi hp hm
    have hne : plain ≠ .leaf .boolean := by
      rcases hplain with rfl | ⟨fs, rfl⟩ <;> nofun
    refine ⟨habove.unique, hplain.imp_right .inr, habove.left, fun _ => habove.right, ?_⟩
    intro u hu hpu
    obtain ⟨m, hm', hmu⟩ := merge_least path hp hu (hpu hne)
    cases hm.symm.trans hm'
    exact hmu

theorem unites_of_fills {items plain : Key × Shape} {key : Key} {s : Shape}
    (hi : items.1.array = true) (hp : plain.1.array = false) (hk : key.array = true)
    (ho : key.optional = true ↔ items.1.optional = true ∧ plain.1.optional = true)
    (huses : ∀ f, f ∈ uses ↔ f = items ∨ f = plain) (h : Fills s items.2 plain.2) :
    Unites uses (key, s) := by
  have hitems : items ∈ uses := (huses _).mpr (.inl rfl)
  have hplain : plain ∈ uses := (huses _).mpr (.inr rfl)
  have hall : ∀ P : Key × Shape → Prop, P items → P plain → ∀ f ∈ uses, P f := by
    intro P hPi hPp f hf
    rcases (huses f).mp hf with rfl | rfl
    · exact hPi
    · exact hPp
  refine ⟨⟨items, hitems⟩, h.unique, ho.trans ⟨?_, ?_⟩, ?_, fun _ => ?_, ?_, fun u hu => ?_⟩
  · exact fun ⟨hio, hpo⟩ => hall (fun f => f.1.optional = true) hio hpo
  · exact fun hopt => ⟨hopt items hitems, hopt plain hplain⟩
  · exact ⟨fun _ => ⟨items, hitems, hi⟩, fun _ => hk⟩
  · exact hall _ (fun ha => absurd (hi.symm.trans ha) (by decide)) fun _ => h.yields
  · exact hall _ (fun _ => h.left) fun hc => h.right (hc hk hp)
  · exact h.least u (hu items hitems (.of_array hi)) fun hne => hu plain hplain (.of_ne hne)

theorem unites_of_merge {s : Shape} (hf : f.2.UniqueKeys) (hg : g.2.UniqueKeys)
    (hsame : f.1.array = g.1.array) (h : f.2.merge path g.2 = .ok s) :
    Unites [f, g] (f.1.join g.1, s) := by
  have habove := merge_above hf hg h
  have ha : (f.1.join g.1).array = f.1.array := by simp [Key.join, ← hsame]
  -- with equal marks no plain use stands beside a list
  have hmark : ∀ k ∈ [f, g], k.1.array = (f.1.join g.1).array := by simp [ha, hsame]
  have hcounts : ∀ k ∈ [f, g], Counts (f.1.join g.1).array k := by
    intro k hk hl hp
    exact absurd (hl.symm.trans ((hmark k hk).symm.trans hp)) (by decide)
  have hmem : f ∈ [f, g] := List.mem_cons_self ..
  refine ⟨⟨f, hmem⟩, habove.unique, ?_, ?_, fun hl k hk hp => ?_, ?_, fun u hu => ?_⟩
  · simp [Key.join]
  · simp [Key.join]
  · exact absurd (hl.symm.trans ((hmark k hk).symm.trans hp)) (by decide)
  · simpa using ⟨fun _ => habove.left, fun _ => habove.right⟩
  · have hall : ∀ k ∈ [f, g], k.2.Below u := fun k hk => hu k hk (hcounts k hk)
    obtain ⟨m, hm, hmu⟩ := merge_least path hg (hall f (by simp)) (hall g (by simp))
    cases h.symm.trans hm
    exact hmu

theorem together_of_same (h : f.1.array = g.1.array) :
    together path f g = f.2.merge path g.2 := if_pos h

theorem together_of_left (hf : f.1.array = true) (hg : g.1.array = false) :
    together path f g = fill path f.2 g.2 := by
  rw [together, hf, hg]
  rfl

theorem together_of_right (hf : f.1.array = false) (hg : g.1.array = true) :
    together path f g = fill path g.2 f.2 := by
  rw [together, hf, hg]
  rfl

theorem unites_pair {s : Shape} (hf : f.2.UniqueKeys) (hg : g.2.UniqueKeys)
    (h : together path f g = .ok s) : Unites [f, g] (f.1.join g.1, s) := by
  have ho : (f.1.join g.1).optional = true ↔ f.1.optional = true ∧ g.1.optional = true :=
    Bool.and_eq_true_iff
  cases hfa : f.1.array with
  | false =>
    cases hga : g.1.array with
    | false =>
      rw [together_of_same (hfa.trans hga.symm)] at h
      exact unites_of_merge hf hg (hfa.trans hga.symm) h
    | true =>
      rw [together_of_right hfa hga] at h
      exact unites_of_fills hga hfa (by simp [Key.join, hga]) (ho.trans and_comm)
        (by simp [or_comm]) (fills_of_fill hg hf h)
  | true =>
    cases hga : g.1.array with
    | false =>
      rw [together_of_left hfa hga] at h
      exact unites_of_fills hfa hga (by simp [Key.join, hfa]) ho (by simp) (fills_of_fill hf hg h)
    | true =>
      rw [together_of_same (hfa.trans hga.symm)] at h
      exact unites_of_merge hf hg (hfa.trans hga.symm) h

/-! ### One more use -/

namespace Unites

theorem extend (h : Unites uses first) (hg : Unites [first, field] g) :
    Unites (uses ++ [field]) g := by
  have hfirst : first ∈ [first, field] := List.mem_cons_self ..
  have hfield : field ∈ [first, field] := List.mem_cons_of_mem _ (List.mem_cons_self ..)
  have hlist : first.1.array = true → g.1.array = true := fun ha => hg.array.mpr ⟨first, hfirst, ha⟩
  have hne : ∃ f, f ∈ uses ++ [field] := ⟨field, by simp⟩
  refine ⟨hne, hg.unique, ?_, ?_, fun hl f hf hp => ?_, fun f hf hc => ?_, fun u hu => ?_⟩
  · rw [hg.optional]
    simp [h.optional, or_imp, forall_and]
  · rw [hg.array]
    simp [h.array, or_and_right, exists_or]
  · rcases List.mem_append.mp hf with hf | hf
    · cases ha : first.1.array with
      | true => exact h.yields ha f hf hp
      | false => exact (hg.yields hl first hfirst ha).of_below (h.above_of_plain ha hf)
    · exact hg.yields hl f (List.mem_singleton.mp hf ▸ hfield) hp
  · rcases List.mem_append.mp hf with hf | hf
    · cases ha : first.1.array with
      | true =>
        have hfirstg := hg.above first hfirst (.of_array ha)
        exact (h.above f hf fun _ => hc (hlist ha)).trans hfirstg
      | false =>
        have hbelow := h.above_of_plain ha hf
        have hp := h.plain_of_not_array ha hf
        by_cases hb : first.2 = .leaf .boolean ∧ g.1.array = true
        · rw [hb.1] at hbelow
          rcases hbelow.of_boolean with hany | hbool
          · exact hany ▸ .any _
          · exact absurd hbool (hc hb.2 hp)
        · exact hbelow.trans (hg.above first hfirst fun hl _ hbool => hb ⟨hbool, hl⟩)
    · exact hg.above f (List.mem_singleton.mp hf ▸ hfield) hc
  · have huses : ∀ f ∈ uses, Counts g.1.array f → f.2.Below u :=
      fun f hf => hu f (List.mem_append_left _ hf)
    refine hg.least u fun f hf hc => ?_
    rcases List.mem_cons.mp hf with rfl | hf
    · cases ha : f.1.array with
      | true => exact h.least u fun k hk hck => huses k hk fun _ => hck ha
      | false =>
        refine h.least_of_plain fun k hk => huses k hk fun hl _ => ?_
        exact ne_boolean_of_below (h.above_of_plain ha hk) (hg.yields hl f hfirst ha) (hc hl ha)
    · exact hu f (List.mem_append_right _ hf) hc

theorem exists_ne_any (h : Unites uses g) (hne : g.2 ≠ .leaf .any) :
    ∃ f ∈ uses, f.2 ≠ .leaf .any := by
  by_contra hn
  refine hne (Below.eq_any (h.least_of_plain fun f hf => ?_))
  have hf : f.2 = .leaf .any := by
    by_contra hf'
    exact hn ⟨f, hf, hf'⟩
  exact hf ▸ .refl _

theorem exists_of_clash {s t : Shape} (h : Unites uses first) (ha : first.1.array = false)
    (hs : first.2 = s) (ht : field.2 = t) (hc : Clash s t) :
    (∃ f ∈ uses ++ [field], f.2 = .leaf .boolean) ∧
      ∃ f ∈ uses ++ [field], ∃ inner : Fields, f.2 = .object inner := by
  have hfield : field ∈ uses ++ [field] := by simp
  have hne : first.2 ≠ .leaf .any := by
    rw [hs]
    cases hc <;> nofun
  obtain ⟨f, hf, hfany⟩ := h.exists_ne_any hne
  have hmem : f ∈ uses ++ [field] := List.mem_append_left _ hf
  have hbelow := h.above_of_plain ha hf
  rw [hs] at hbelow
  cases hc with
  | test fs => exact ⟨⟨f, hmem, hbelow.of_boolean.resolve_left hfany⟩, field, hfield, fs, ht⟩
  | fields fs => exact ⟨⟨field, hfield, ht⟩, f, hmem, hbelow.of_object.resolve_left hfany⟩

theorem yields_of_plain (h : Unites uses g) (ha : g.1.array = false)
    (hy : ∀ f ∈ uses, f.2.Yields) : g.2.Yields := by
  obtain ⟨key, s⟩ := g
  cases s with
  | object fs => exact .inr (.inr ⟨fs, rfl⟩)
  | leaf l =>
    by_cases hb : l = .boolean
    · exact .inr (.inl (congrArg Shape.leaf hb))
    · -- no other set of types is below a use that yields, so all uses are open
      refine .inl (Below.eq_any (h.least_of_plain fun f hf => ?_))
      rcases hy f hf with hf' | hf' | ⟨fs, hf'⟩
      · exact hf' ▸ .refl _
      · have hbelow := h.above_of_plain ha hf
        rw [hf'] at hbelow
        obtain ⟨types, ht⟩ := exists_boolean_eq
        rw [ht] at hbelow
        cases hbelow
        exact absurd ht.symm hb
      · have hbelow := h.above_of_plain ha hf
        rw [hf'] at hbelow
        cases hbelow

theorem below_of_subset (h : Unites uses first) (hall : Unites all g) (hsub : ∀ f ∈ uses, f ∈ all)
    (hc : Counts g.1.array first) : first.2.Below g.2 := by
  cases ha : first.1.array with
  | true =>
    have hl : g.1.array = true := by
      obtain ⟨f, hf, hfa⟩ := h.array.mp ha
      exact hall.array.mpr ⟨f, hsub f hf, hfa⟩
    exact h.least _ fun f hf hcf => hall.above f (hsub f hf) fun _ => hcf ha
  | false =>
    refine h.least_of_plain fun f hf => hall.above f (hsub f hf) fun hl _ => ?_
    have hy := h.yields_of_plain ha fun k hk =>
      hall.yields hl k (hsub k hk) (h.plain_of_not_array ha hk)
    exact ne_boolean_of_below (h.above_of_plain ha hf) hy (hc hl ha)

end Unites

/-! ### Uses that cannot be taken together -/

theorem exists_fill {items plain u : Shape} (hy : plain.Yields) (hp : plain.UniqueKeys)
    (hi : items.Below u) (hpu : plain ≠ .leaf .boolean → plain.Below u) :
    ∃ s, fill path items plain = .ok s := by
  rcases hy with rfl | rfl | ⟨fs, rfl⟩
  · exact ⟨items, fill_eq_ok.mpr (.inr ⟨.inl rfl, merge_any _ _⟩)⟩
  · exact ⟨items, fill_eq_ok.mpr (.inl ⟨rfl, rfl⟩)⟩
  · obtain ⟨s, hs, _⟩ := merge_least path hp hi (hpu (object_ne_boolean fs))
    exact ⟨s, fill_eq_ok.mpr (.inr ⟨.inr ⟨fs, rfl⟩, hs⟩)⟩

theorem merge_cases {s t u : Shape} (hs : s.Yields) (ht : t.Yields) (hu : t.UniqueKeys)
    (hsu : s ≠ .leaf .boolean → s.Below u) (htu : t ≠ .leaf .boolean → t.Below u) :
    (∃ m, s.merge path t = .ok m) ∨
      Clash s t ∧ s.merge path t = .error (.shape path s.describe t.describe) := by
  rcases hs with rfl | rfl | ⟨fs, rfl⟩
  · exact .inl ⟨t, by rw [Shape.merge]⟩
  · rcases ht with rfl | rfl | ⟨gs, rfl⟩
    · exact .inl ⟨_, merge_any _ _⟩
    · exact .inl ⟨_, rfl⟩
    · exact .inr ⟨.test gs, rfl⟩
  · rcases ht with rfl | rfl | ⟨gs, rfl⟩
    · exact .inl ⟨_, merge_any _ _⟩
    · exact .inr ⟨.fields fs, rfl⟩
    · have hfs := hsu (object_ne_boolean fs)
      have hgs := htu (object_ne_boolean gs)
      obtain ⟨m, hm, _⟩ := merge_least path hu hfs hgs
      exact .inl ⟨m, hm⟩

/-- Some of the uses of a name and one more of them can be taken together, unless a plain test meets
a plain object of a list. -/
theorem together_cases (path : List String) (h : Unites uses first) (hall : Unites all g)
    (hsub : ∀ f ∈ uses, f ∈ all) (hfield : field ∈ all) (hu : field.2.UniqueKeys) :
    (∃ s, together path first field = .ok s) ∨
      (g.1.array = true ∧ first.1.array = false ∧ field.1.array = false) ∧
        Clash first.2 field.2 ∧
        together path first field = .error (.shape path first.2.describe field.2.describe) := by
  have hfirstg := h.below_of_subset hall hsub
  have hfieldg := hall.above field hfield
  cases hl : g.1.array with
  | false =>
    have ha : first.1.array = false := by
      cases ha : first.1.array with
      | false => rfl
      | true =>
        obtain ⟨f, hf, hfa⟩ := h.array.mp ha
        exact (hall.array.mpr ⟨f, hsub f hf, hfa⟩).symm.trans hl
    have hb := hall.plain_of_not_array hl hfield
    obtain ⟨s, hs, _⟩ := merge_least path hu (hfirstg (.of_plain hl)) (hfieldg (.of_plain hl))
    exact .inl ⟨s, (together_of_same (ha.trans hb.symm)).trans hs⟩
  | true =>
    have hyfirst : first.1.array = false → first.2.Yields := fun ha =>
      h.yields_of_plain ha fun f hf => hall.yields hl f (hsub f hf) (h.plain_of_not_array ha hf)
    have hyfield : field.1.array = false → field.2.Yields := hall.yields hl field hfield
    cases ha : first.1.array with
    | false =>
      cases hb : field.1.array with
      | false =>
        rw [together_of_same (ha.trans hb.symm)]
        exact (merge_cases (hyfirst ha) (hyfield hb) hu (fun hne => hfirstg (.of_ne hne))
          fun hne => hfieldg (.of_ne hne)).imp_right fun hc => ⟨⟨rfl, rfl, rfl⟩, hc⟩
      | true =>
        rw [together_of_right ha hb]
        exact .inl (exists_fill (hyfirst ha) h.unique (hfieldg (.of_array hb))
          fun hne => hfirstg (.of_ne hne))
    | true =>
      cases hb : field.1.array with
      | false =>
        rw [together_of_left ha hb]
        exact .inl (exists_fill (hyfield hb) hu (hfirstg (.of_array ha))
          fun hne => hfieldg (.of_ne hne))
      | true =>
        rw [together_of_same (ha.trans hb.symm)]
        obtain ⟨s, hs, _⟩ := merge_least path hu (hfirstg (.of_array ha)) (hfieldg (.of_array hb))
        exact .inl ⟨s, hs⟩

/-! ### All uses of all names -/

def usesOf (fs : Fields) (name : String) : Fields := fs.filter fun f => f.1.name = name

theorem mem_usesOf {name : String} : f ∈ fs.usesOf name ↔ f ∈ fs ∧ f.1.name = name := by
  rw [usesOf, List.mem_filter, decide_eq_true_iff]

theorem usesOf_append_same : (seen ++ [field]).usesOf field.1.name =
    seen.usesOf field.1.name ++ [field] := by
  simp [usesOf]

theorem usesOf_append_other {name : String} (h : name ≠ field.1.name) :
    (seen ++ [field]).usesOf name = seen.usesOf name := by
  simp [usesOf, h.symm]

/-- Where a fold has got to: one field for each name behind it, which is what its uses come to. -/
structure Reaches (seen settled : Fields) : Prop where
  nodup : (names settled).Nodup
  covers : ∀ f ∈ seen, f.1.name ∈ names settled
  unites : ∀ g ∈ settled, Unites (seen.usesOf g.1.name) g

theorem Reaches.nil : Reaches [] [] := ⟨List.nodup_nil, nofun, nofun⟩

theorem Reaches.absorb (h : Reaches seen settled) (hu : field.2.UniqueKeys)
    (ha : absorb path field settled = .ok out) : Reaches (seen ++ [field]) out := by
  have hnames := names_absorb ha
  have hother : ∀ g ∈ settled, g.1.name ≠ field.1.name →
      Unites ((seen ++ [field]).usesOf g.1.name) g := by
    intro g hg hne
    rw [usesOf_append_other hne]
    exact h.unites g hg
  refine ⟨nodup_names_absorb h.nodup ha, fun f hf => ?_, fun g hg => ?_⟩
  · rw [hnames]
    rcases List.mem_append.mp hf with hf | hf
    · have := h.covers f hf
      split <;> simp [this]
    · cases List.mem_singleton.mp hf
      split
      · assumption
      · simp
  · rcases absorb_eq_ok ha with ⟨before, first, after, both, rfl, hb, hn, hboth, rfl⟩ | ⟨hne, rfl⟩
    · obtain ⟨hkey, hboth⟩ := (combine_eq_ok hn).mp hboth
      have hafter : ∀ g ∈ after, g.1.name ≠ field.1.name := fun g hg hgn => by
        have hd := h.nodup
        rw [names, List.map_append] at hd
        have hd := hd.of_append_right
        exact (List.nodup_cons.mp hd).1 (mem_names_iff.mpr ⟨g, hg, hgn.trans hn.symm⟩)
      rcases List.mem_append.mp hg with hg | hg
      · exact hother g (by simp [hg]) (hb g hg)
      · rcases List.mem_cons.mp hg with rfl | hg
        · have hfirst := h.unites first (by simp)
          have hname : g.1.name = field.1.name := by rw [hkey]; exact hn
          rw [hname, usesOf_append_same]
          rw [hn] at hfirst
          have hpair := unites_pair hfirst.unique hu hboth
          rw [← hkey] at hpair
          exact hfirst.extend hpair
        · exact hother g (by simp [hg]) (hafter g hg)
    · rcases List.mem_append.mp hg with hg | hg
      · exact hother g hg (hne g hg)
      · cases List.mem_singleton.mp hg
        have hnone : seen.usesOf field.1.name = [] := by
          refine List.eq_nil_iff_forall_not_mem.mpr fun f hf => ?_
          obtain ⟨hf, hfn⟩ := mem_usesOf.mp hf
          obtain ⟨g, hg, hgn⟩ := mem_names_iff.mp (h.covers f hf)
          exact hne g hg (hgn.trans hfn)
        rw [usesOf_append_same, hnone]
        exact .singleton hu

theorem reaches_of_fold (hu : ∀ f ∈ fs, f.2.UniqueKeys) (h : fold path fs = .ok folded) :
    Reaches fs folded :=
  foldlM_invariant h .nil fun _ _ _ _ hr hmem ha => hr.absorb (hu _ hmem) ha

/-- The uses of a name in `before` are plain, with a test and an object; a list comes after. -/
structure TestedFirst (before after : Fields) (name : String) : Prop where
  plain : ∀ f ∈ before.usesOf name, f.1.array = false
  test : ∃ f ∈ before.usesOf name, f.2 = .leaf .boolean
  object : ∃ f ∈ before.usesOf name, ∃ inner : Fields, f.2 = .object inner
  list : ∃ f ∈ after.usesOf name, f.1.array = true

theorem TestedFirst.fold_ne_ok {before after : Fields} {name : String}
    (h : TestedFirst before after name) (hu : ∀ f ∈ before, f.2.UniqueKeys) :
    fold path (before ++ after) ≠ .ok folded := by
  intro hf
  rw [fold, List.foldlM_append] at hf
  obtain ⟨mid, hmid, _⟩ := bind_eq_ok.mp hf
  have hr : Reaches before mid := reaches_of_fold hu hmid
  obtain ⟨f, hfm, htest⟩ := h.test
  obtain ⟨f', hfm', inner, hobject⟩ := h.object
  obtain ⟨g, hg, hgn⟩ := mem_names_iff.mp (hr.covers f (mem_usesOf.mp hfm).1)
  have hname : g.1.name = name := hgn.trans (mem_usesOf.mp hfm).2
  have hunites := hname ▸ hr.unites g hg
  have ha : g.1.array = false := by
    cases ha : g.1.array with
    | false => rfl
    | true =>
      obtain ⟨k, hk, hka⟩ := hunites.array.mp ha
      exact hka.symm.trans (h.plain k hk)
  have hbool := hunites.above_of_plain ha hfm
  have hobj := hunites.above_of_plain ha hfm'
  rw [htest] at hbool
  rw [hobject] at hobj
  exact not_test_and_object hbool hobj

/-- In any order, the uses of each name are taken together, unless a plain test and a plain object
of a name come before its list. -/
theorem fold_cases (hu : ∀ f ∈ fs, f.2.UniqueKeys)
    (hall : ∀ f ∈ fs, ∃ g, g.1.name = f.1.name ∧ Unites (fs.usesOf f.1.name) g) :
    (∃ folded, fold path fs = .ok folded ∧ Reaches fs folded) ∨
      ∃ c, fold path fs = .error c ∧ ∃ g, Unites (fs.usesOf g.1.name) g ∧ g.1.array = true ∧
        c.IsTestClash (path ++ [g.1.name]) ∧
        ∃ before after, fs = before ++ after ∧ TestedFirst before after g.1.name := by
  refine foldlM_cases .nil fun seen field rest settled hfs hr => ?_
  have hfield : field ∈ fs := by simp [hfs]
  have hkeep : ∀ out, absorb path field settled = .ok out → Reaches (seen ++ [field]) out :=
    fun out ha => hr.absorb (hu field hfield) ha
  rcases absorb_cases path field settled with ⟨before, first, after, hs, _, hn, heq⟩ | ⟨_, heq⟩
  · obtain ⟨g, hgn, hg⟩ := hall field hfield
    have hfirst := hr.unites first (by simp [hs])
    rw [hn] at hfirst
    have hsub : ∀ f ∈ usesOf seen field.1.name, f ∈ fs.usesOf field.1.name := fun f hf => by
      obtain ⟨hf, hfn⟩ := mem_usesOf.mp hf
      exact mem_usesOf.mpr ⟨by simp [hfs, hf], hfn⟩
    rw [combine_eq hn] at heq
    rcases together_cases (path ++ [field.1.name]) hfirst hg hsub (mem_usesOf.mpr ⟨hfield, rfl⟩)
      (hu field hfield) with ⟨s, hs⟩ | ⟨⟨hl, ha, hb⟩, hclash, hc⟩
    · rw [hs] at heq
      exact .inl ⟨_, heq, hkeep _ heq⟩
    · rw [hc] at heq
      obtain ⟨htest, hobject⟩ := hfirst.exists_of_clash ha rfl rfl hclash
      rw [← usesOf_append_same] at htest hobject
      have hplain : ∀ f ∈ usesOf (seen ++ [field]) field.1.name, f.1.array = false := fun f hf => by
        rw [usesOf_append_same] at hf
        rcases List.mem_append.mp hf with hf | hf
        · exact hfirst.plain_of_not_array ha hf
        · exact List.mem_singleton.mp hf ▸ hb
      have hlist : ∃ f ∈ usesOf rest field.1.name, f.1.array = true := by
        obtain ⟨f, hf, hfa⟩ := hg.array.mp hl
        obtain ⟨hf, hfn⟩ := mem_usesOf.mp hf
        rw [hfs, List.append_cons] at hf
        rcases List.mem_append.mp hf with hf | hf
        · exact absurd (hfa.symm.trans (hplain f (mem_usesOf.mpr ⟨hf, hfn⟩))) (by decide)
        · exact ⟨f, mem_usesOf.mpr ⟨hf, hfn⟩, hfa⟩
      exact .inr ⟨_, heq, g, hgn ▸ hg, hl, hgn ▸ ⟨_, _, hclash, rfl⟩, seen ++ [field], rest,
        hfs.trans (List.append_cons ..), hgn ▸ ⟨hplain, htest, hobject, hlist⟩⟩
  · exact .inl ⟨_, heq, hkeep _ heq⟩

end Fields

end Stencil
