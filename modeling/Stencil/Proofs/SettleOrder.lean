import Stencil.Proofs.Uniting

/-!
# Settling fields in another order

Fields that differ in their order only settle to such fields again, or one order settles and the
other one stops at a plain test next to a plain object, of a name that is a list in what the first
one settles to (`Fields.settle_cases`).
-/

namespace Stencil

open Outcome

theorem Shape.Distinct.uniqueKeys {α : Type} {key : Key → α} {s : Shape} (h : s.Distinct key) :
    s.UniqueKeys := by
  induction h with
  | leaf l => exact .leaf l
  | object hk _ ih => exact Fields.UniqueKeys.mk hk.of_map ih

theorem Shape.depth_le_of_below {s t : Shape} (hs : s.UniqueKeys) (h : s.Below t) :
    s.depth ≤ t.depth := by
  induction s using fieldsInduction generalizing t with
  | leaf l => exact Nat.zero_le _
  | object fs ih =>
    have hf : Fields.UniqueKeys fs := hs
    cases t with
    | leaf l => cases h
    | object gs =>
      refine Nat.succ_le_succ (Fields.depthList_le_iff.mpr fun f hff => ?_)
      obtain ⟨t, ht, hft⟩ := below_object_iff.mp h f.1 f.2 (hf.get?_of_mem hff)
      exact Nat.le_trans (ih f hff (hf.of_mem hff) hft)
        (Fields.depthList_le_iff.mp (Nat.le_refl _) _ (Fields.mem_of_get? ht))

namespace Fields

open Shape

variable {path names : List String} {fs gs uses uses' folded folded' out out' : Fields}
variable {f g g' : Key × Shape}

/-- Every field of the first has its match among the second: under the same key, with a shape of the
same fields. -/
def Matches (fs gs : Fields) : Prop :=
  ∀ f ∈ fs, ∃ g ∈ gs, g.1 = f.1 ∧ f.2.Below g.2 ∧ g.2.Below f.2

theorem matches_of_below (hf : fs.UniqueKeys) (h : fs.Below gs) (h' : gs.Below fs) :
    fs.Matches gs := by
  intro f hff
  have hget := hf.get?_of_mem hff
  obtain ⟨t, ht, hft⟩ := below_object_iff.mp h f.1 f.2 hget
  obtain ⟨s, hs, hts⟩ := below_object_iff.mp h' f.1 t ht
  cases hget.symm.trans hs
  exact ⟨(f.1, t), mem_of_get? ht, rfl, hft, hts⟩

theorem below_of_matches (hg : gs.keys.Nodup) (h : fs.Matches gs) : fs.Below gs := by
  refine below_object_iff.mpr fun k s hk => ?_
  obtain ⟨g, hgg, rfl, hsg, _⟩ := h _ (mem_of_get? hk)
  exact ⟨g.2, Entries.lookup_of_mem hg hgg, hsg⟩

theorem Matches.symm_of_keys (h : fs.Matches gs) (hg : gs.keys.Nodup)
    (hk : ∀ k ∈ gs.keys, k ∈ fs.keys) : gs.Matches fs := by
  intro g hgg
  obtain ⟨f, hff, hfg⟩ := List.mem_map.mp (hk g.1 (List.mem_map_of_mem hgg))
  obtain ⟨g', hgg', hgf, hb, hb'⟩ := h f hff
  have hget : gs.get? g.1 = some g.2 := Entries.lookup_of_mem hg hgg
  have hget' : gs.get? g'.1 = some g'.2 := Entries.lookup_of_mem hg hgg'
  rw [hgf.trans hfg, hget] at hget'
  have hs : g.2 = g'.2 := Option.some.inj hget'
  exact ⟨f, hff, hfg, hs ▸ hb', hs ▸ hb⟩

theorem Matches.mem_keys (h : fs.Matches gs) {k : Key} (hk : k ∈ fs.keys) : k ∈ gs.keys := by
  obtain ⟨f, hf, rfl⟩ := List.mem_map.mp hk
  obtain ⟨g, hg, hgf, _⟩ := h f hf
  exact hgf ▸ List.mem_map_of_mem hg

theorem Matches.usesOf (h : fs.Matches gs) (name : String) :
    (fs.usesOf name).Matches (gs.usesOf name) := by
  intro f hf
  obtain ⟨hf, hn⟩ := mem_usesOf.mp hf
  obtain ⟨g, hg, hgf, hb⟩ := h f hf
  exact ⟨g, mem_usesOf.mpr ⟨hg, hgf ▸ hn⟩, hgf, hb⟩

/-! ### Folding in another order -/

theorem Counts.of_match {list : Bool} (hk : g.1 = f.1) (h : f.2.Below g.2) (h' : g.2.Below f.2)
    (hc : Counts list f) : Counts list g := by
  intro hl hp hb
  rw [hb] at h h'
  rcases h.of_boolean with hf | hf
  · rw [hf] at h'
    cases h'.eq_any
  · exact hc hl (hk ▸ hp) hf

theorem Unites.of_matches (h : Unites uses g) (hm : uses.Matches uses') (hm' : uses'.Matches uses) :
    Unites uses' g := by
  refine ⟨?_, h.unique, ?_, ?_, fun hl f hf hp => ?_, fun f hf hc => ?_, fun u hu => ?_⟩
  · obtain ⟨f, hf⟩ := h.nonempty
    obtain ⟨f', hf', _⟩ := hm f hf
    exact ⟨f', hf'⟩
  · rw [h.optional]
    constructor
    · intro ho f hf
      obtain ⟨k, hk, hkf, _⟩ := hm' f hf
      exact hkf ▸ ho k hk
    · intro ho f hf
      obtain ⟨k, hk, hkf, _⟩ := hm f hf
      exact hkf ▸ ho k hk
  · rw [h.array]
    constructor
    · rintro ⟨f, hf, ha⟩
      obtain ⟨k, hk, hkf, _⟩ := hm f hf
      exact ⟨k, hk, hkf ▸ ha⟩
    · rintro ⟨f, hf, ha⟩
      obtain ⟨k, hk, hkf, _⟩ := hm' f hf
      exact ⟨k, hk, hkf ▸ ha⟩
  · obtain ⟨k, hk, hkf, hb, _⟩ := hm' f hf
    exact (h.yields hl k hk (hkf ▸ hp)).of_below hb
  · obtain ⟨k, hk, hkf, hb, hb'⟩ := hm' f hf
    exact hb.trans (h.above k hk (hc.of_match hkf hb hb'))
  · refine h.least u fun f hf hc => ?_
    obtain ⟨k, hk, hkf, hb, hb'⟩ := hm f hf
    exact hb.trans (hu k hk (hc.of_match hkf hb hb'))

theorem Unites.determined (h : Unites uses g) (h' : Unites uses g') (hn : g.1.name = g'.1.name) :
    g.1 = g'.1 ∧ g.2.Below g'.2 := by
  have ha : g.1.array = g'.1.array := Bool.eq_iff_iff.mpr (h.array.trans h'.array.symm)
  have ho : g.1.optional = g'.1.optional := Bool.eq_iff_iff.mpr (h.optional.trans h'.optional.symm)
  refine ⟨?_, h.least _ fun f hf hc => h'.above f hf (ha ▸ hc)⟩
  obtain ⟨⟨_, _, _⟩, _⟩ := g
  obtain ⟨⟨_, _, _⟩, _⟩ := g'
  cases hn; cases ha; cases ho
  rfl

theorem Reaches.exists_of_use (h : Reaches fs folded) {name : String} (hf : f ∈ fs.usesOf name) :
    ∃ g ∈ folded, g.1.name = name ∧ Unites (fs.usesOf name) g := by
  obtain ⟨hmem, rfl⟩ := mem_usesOf.mp hf
  obtain ⟨g, hg, hgn⟩ := mem_names_iff.mp (h.covers f hmem)
  exact ⟨g, hg, hgn, hgn ▸ h.unites g hg⟩

theorem Reaches.matches (h : Reaches fs folded) (h' : Reaches gs folded') (hm : fs.Matches gs)
    (hm' : gs.Matches fs) : folded.Matches folded' := by
  intro g hg
  have hu := (h.unites g hg).of_matches (hm.usesOf _) (hm'.usesOf _)
  obtain ⟨f, hf⟩ := hu.nonempty
  obtain ⟨g', hg', hn, hu'⟩ := h'.exists_of_use hf
  obtain ⟨hk, hb⟩ := hu.determined hu' hn.symm
  exact ⟨g', hg', hk.symm, hb, (hu'.determined hu hn).2⟩

/-! ### Settling in another order -/

inductive ListAt : Fields → List String → Prop
  | here {fs : Fields} {g : Key × Shape} (mem : g ∈ fs) (list : g.1.array = true) :
      ListAt fs [g.1.name]
  | inside {fs inner : Fields} {key : Key} {names : List String} (mem : (key, .object inner) ∈ fs)
      (inside : ListAt inner names) : ListAt fs (key.name :: names)

/-- Settling gets to a level on which a test and an object of a name come before its list. -/
inductive LateList : List String → Fields → Prop
  | here {path : List String} {before after : Fields} {name : String}
      (h : TestedFirst before after name) : LateList path (before ++ after)
  | inside {path : List String} {fs folded inner : Fields} {key : Key}
      (fold : fold path fs = .ok folded) (mem : (key, .object inner) ∈ folded)
      (h : LateList (path ++ [key.name]) inner) : LateList path fs

theorem LateList.settleLevels_ne_ok {levels : Nat} (h : LateList path fs) (hf : fs.UniqueKeys)
    (hd : fs.depth < levels) : settleLevels levels path fs ≠ .ok out := by
  induction h generalizing levels out with
  | here h =>
    cases levels with
    | zero => omega
    | succ levels =>
      intro hs
      obtain ⟨folded, hfold, _⟩ := settleLevels_succ_eq_ok.mp hs
      exact h.fold_ne_ok (fun f hff => hf.of_mem (List.mem_append_left _ hff)) hfold
  | inside hfold hmem _ ih =>
    cases levels with
    | zero => omega
    | succ levels =>
      intro hs
      obtain ⟨folded, hfold', hout⟩ := settleLevels_succ_eq_ok.mp hs
      cases hfold.symm.trans hfold'
      obtain ⟨o, _, ho⟩ := exists_of_mem_left hout hmem
      have hdepth := depthList_le_iff.mp (depth_fold_le hfold (Nat.le_of_lt_succ hd)) _ hmem
      have hinner := fold_keeps merge_unique (fun _ => hf.of_mem) hfold _ hmem
      cases ho with
      | object hs => exact ih hinner (Nat.lt_of_succ_le hdepth) hs

/-- The conflict of a name below `path` that is tested, has fields, and is a list in `out`. -/
def ListClash (path : List String) (out : Fields) (c : Conflict) : Prop :=
  ∃ names, out.ListAt names ∧ c.IsTestClash (path ++ names)

theorem ListClash.inside {key : Key} {inner : Fields} {c : Conflict}
    (hmem : (key, .object inner) ∈ out) (h : ListClash (path ++ [key.name]) inner c) :
    ListClash path out c := by
  obtain ⟨names, hl, hc⟩ := h
  rw [List.append_assoc] at hc
  exact ⟨key.name :: names, .inside hmem hl, hc⟩

/-- One order settles to `out`. The other order `gs` settles to the same fields, or its list comes
too late, with a conflict. -/
def SettlesLike (path : List String) (out gs : Fields) (r : Except Conflict Fields) : Prop :=
  (∃ out', r = .ok out' ∧ out.Below out' ∧ out'.Below out) ∨
    ∃ c, r = .error c ∧ ListClash path out c ∧ LateList path gs

theorem settleField_cases {levels : Nat} {o : Key × Shape} (ho : o ∈ out)
    (h : SettledAs levels path g o) (hk : g.1 = f.1) (hb : f.2.Below g.2) (hb' : g.2.Below f.2)
    (ih : ∀ inner inner' settled : Fields, g.2 = .object inner → f.2 = .object inner' →
      settleLevels levels (path ++ [f.1.name]) inner = .ok settled →
      SettlesLike (path ++ [f.1.name]) settled inner'
        (settleLevels levels (path ++ [f.1.name]) inner')) :
    (∃ o', settleField levels path f = .ok o' ∧ o'.1 = f.1 ∧ o'.2.Below o.2 ∧ o.2.Below o'.2) ∨
      ∃ c, settleField levels path f = .error c ∧ ListClash path out c ∧
        ∃ inner' : Fields, f.2 = .object inner' ∧ LateList (path ++ [f.1.name]) inner' := by
  obtain ⟨key, s⟩ := f
  cases h with
  | leaf key' l =>
    have hs : s = .leaf l := by
      cases hb <;> cases hb' <;> rfl
    exact .inl ⟨(key, s), hs ▸ rfl, rfl, hb, hb'⟩
  | object h =>
    cases hk
    rcases hb.of_object with hs | ⟨inner', hs⟩
    · rw [hs] at hb'
      cases hb'
    · cases hs
      rcases ih _ _ _ rfl rfl h with ⟨settled', hs', hso, hso'⟩ | ⟨c, hc, hclash, hlate⟩
      · exact .inl ⟨_, bind_eq_ok.mpr ⟨settled', hs', rfl⟩, rfl, hso', hso⟩
      · refine .inr ⟨c, ?_, hclash.inside ho, inner', rfl, hlate⟩
        rw [settleField_object, hc]
        rfl

/-- Folding matching fields yields matching fields, or stops where the first order has a list. -/
theorem fold_matches (hf : ∀ f ∈ fs, f.2.UniqueKeys) (hg : ∀ g ∈ gs, g.2.UniqueKeys)
    (hm : fs.Matches gs) (hm' : gs.Matches fs) (h : fold path fs = .ok folded) :
    (∃ folded', fold path gs = .ok folded' ∧ folded.Matches folded' ∧ folded'.Matches folded) ∨
      ∃ c, fold path gs = .error c ∧ LateList path gs ∧
        ∃ g ∈ folded, g.1.array = true ∧ c.IsTestClash (path ++ [g.1.name]) := by
  have hr := reaches_of_fold hf h
  have hall : ∀ f ∈ gs, ∃ g, g.1.name = f.1.name ∧ Unites (gs.usesOf f.1.name) g := by
    intro f hff
    obtain ⟨f', hf', _⟩ := hm'.usesOf f.1.name f (mem_usesOf.mpr ⟨hff, rfl⟩)
    obtain ⟨g, _, hgn, hu⟩ := hr.exists_of_use hf'
    exact ⟨g, hgn, hu.of_matches (hm.usesOf _) (hm'.usesOf _)⟩
  rcases fold_cases hg hall with
    ⟨folded', hfold', hr'⟩ | ⟨c, hc, g', hu', hl, hclash, before, after, hgs, hfirst⟩
  · exact .inl ⟨folded', hfold', hr.matches hr' hm hm', hr'.matches hr hm' hm⟩
  · -- the fold of the first order reaches a field for the same uses, so there it is a list
    have hu := hu'.of_matches (hm'.usesOf _) (hm.usesOf _)
    obtain ⟨f, hff⟩ := hu.nonempty
    obtain ⟨g, hgm, hgn, hug⟩ := hr.exists_of_use hff
    have hk : g.1 = g'.1 := (hug.determined hu hgn).1
    exact .inr ⟨c, hc, hgs ▸ .here hfirst, g, hgm, hk ▸ hl, hk ▸ hclash⟩

theorem below_of_settled (hd : folded.keys.Nodup) (hd' : folded'.keys.Nodup)
    (hm : folded.Matches folded') (hk : out.keys = folded.keys) (hk' : out'.keys = folded'.keys)
    (hmo : out'.Matches out) : out.Below out' ∧ out'.Below out := by
  have hkeys : ∀ k ∈ out.keys, k ∈ out'.keys := by
    rw [hk, hk']
    exact fun k => hm.mem_keys
  exact ⟨below_of_matches (hk' ▸ hd') (hmo.symm_of_keys (hk ▸ hd) hkeys),
    below_of_matches (hk ▸ hd) hmo⟩

theorem settleLevels_cases {levels : Nat} (hf : fs.UniqueKeys) (hg : gs.UniqueKeys)
    (hfg : fs.Below gs) (hgf : gs.Below fs) (h : settleLevels levels path fs = .ok out) :
    SettlesLike path out gs (settleLevels levels path gs) := by
  induction levels generalizing path fs gs out with
  | zero =>
    cases h
    exact .inl ⟨gs, rfl, hfg, hgf⟩
  | succ levels ih =>
    obtain ⟨folded, hfold, hout⟩ := settleLevels_succ_eq_ok.mp h
    have huf : ∀ f ∈ fs, f.2.UniqueKeys := fun _ => hf.of_mem
    have hug : ∀ g ∈ gs, g.2.UniqueKeys := fun _ => hg.of_mem
    rw [settleLevels_succ]
    rcases fold_matches huf hug (matches_of_below hf hfg hgf) (matches_of_below hg hgf hfg) hfold
      with ⟨folded', hfold', hm, hm'⟩ | ⟨c, hc, hlate, g, hgm, hl, hclash⟩
    · rw [hfold']
      have hfield : ∀ f ∈ folded', (∃ o', settleField levels path f = .ok o' ∧ o'.1 = f.1 ∧
          ∃ o ∈ out, o.1 = o'.1 ∧ o'.2.Below o.2 ∧ o.2.Below o'.2) ∨
          ∃ c, settleField levels path f = .error c ∧ ListClash path out c ∧ LateList path gs := by
        intro f hff
        obtain ⟨g, hgm, hgk, hb, hb'⟩ := hm' f hff
        obtain ⟨o, ho, hgo⟩ := exists_of_mem_left hout hgm
        have hugm : g.2.UniqueKeys := fold_keeps merge_unique huf hfold g hgm
        have hufm : f.2.UniqueKeys := fold_keeps merge_unique hug hfold' f hff
        refine (settleField_cases ho hgo hgk hb hb' fun inner inner' settled hi hi' hs => ?_).imp
          ?_ ?_
        · rw [hi] at hugm hb hb'
          rw [hi'] at hufm hb hb'
          exact ih hugm hufm hb' hb hs
        · rintro ⟨o', ho', hk, hbo, hbo'⟩
          exact ⟨o', ho', hk, o, ho, (hgo.key.trans hgk).trans hk.symm, hbo, hbo'⟩
        · rintro ⟨c, hc, hclash, inner', hi, hlate⟩
          exact ⟨c, hc, hclash, .inside hfold' (hi ▸ hff) hlate⟩
      rcases mapM_cases hfield with ⟨out', hout', hR⟩ | ⟨c, hc, hclash⟩
      · have hmo : Matches out' out := fun o' ho' => by
          obtain ⟨f, _, _, h⟩ := exists_of_mem_right hR ho'
          exact h
        exact .inl ⟨out', hout', below_of_settled (nodup_keys_fold hfold) (nodup_keys_fold hfold')
          hm (keys_of_forall₂ SettledAs.key hout) (keys_of_forall₂ And.left hR) hmo⟩
      · exact .inr ⟨c, hc, hclash⟩
    · rw [hc]
      obtain ⟨o, ho, hgo⟩ := exists_of_mem_left hout hgm
      exact .inr ⟨c, rfl, ⟨[g.1.name], hgo.key ▸ .here ho (hgo.key ▸ hl), hclash⟩, hlate⟩

/-- Settling does not depend on the order of fields, unless a list comes too late in the other. -/
theorem settle_cases (hf : fs.UniqueKeys) (hg : gs.UniqueKeys) (hfg : fs.Below gs)
    (hgf : gs.Below fs) (h : fs.settle = .ok out) :
    (∃ out', gs.settle = .ok out' ∧ out.same out' = true) ∨
      ∃ c, gs.settle = .error c ∧ ListClash [] out c ∧ LateList [] gs := by
  have hdepth : fs.depth = gs.depth := Nat.le_antisymm
    (Nat.le_of_succ_le_succ (depth_le_of_below hf hfg))
    (Nat.le_of_succ_le_succ (depth_le_of_below hg hgf))
  have h' := h
  rw [settle, hdepth] at h'
  rcases settleLevels_cases hf hg hfg hgf h' with ⟨out', hout', hb, hb'⟩ | hc
  · exact .inl ⟨out', hout', (same_iff_below (distinct_settle h).uniqueKeys
      (distinct_settle hout').uniqueKeys).mpr ⟨hb, hb'⟩⟩
  · exact .inr hc

theorem LateList.settle_ne_ok (h : LateList [] fs) (hf : fs.UniqueKeys) : fs.settle ≠ .ok out :=
  h.settleLevels_ne_ok hf (Nat.lt_succ_self _)

end Fields

end Stencil
