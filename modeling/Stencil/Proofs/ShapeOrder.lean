import Stencil.Shape
import Mathlib.Data.List.Nodup
import Mathlib.Data.List.Perm.Subperm

/-!
# Shapes ordered by what they ask for

`s.Below t`: whoever serves `t` serves `s`. An open leaf is below everything, a set of types only
below itself, and an object below the objects that have all its keys with shapes above its own. The
order does not see the order of fields: for shapes that hold every key once, being below each other
is being the same.
-/

namespace Stencil

namespace Shape

/-- A principle of induction: a property of all fields of an object passes on to the object. -/
@[elab_as_elim]
theorem fieldsInduction {motive : Shape → Prop} (leaf : ∀ l, motive (.leaf l))
    (object : ∀ fields : Fields, (∀ f ∈ fields, motive f.2) → motive (.object fields)) :
    ∀ s, motive s :=
  Shape.rec (motive_2 := fun fields => ∀ f ∈ fields, motive f.2) (motive_3 := fun f => motive f.2)
    leaf object (fun _ h => nomatch h) (fun _ _ hf hfs => List.forall_mem_cons.mpr ⟨hf, hfs⟩)
    fun _ _ h => h

inductive Below : Shape → Shape → Prop
  | any (t : Shape) : Below (.leaf .any) t
  | oneOf (types : NameSet) : Below (.leaf (.oneOf types)) (.leaf (.oneOf types))
  | object {fs gs : Fields} (keys : ∀ k ∈ fs.keys, k ∈ gs.keys)
      (fields : ∀ k s t, fs.get? k = some s → gs.get? k = some t → Below s t) :
      Below (.object fs) (.object gs)

/-- No object of the shape has two keys that agree under `f`. -/
inductive Distinct {α : Type} (f : Key → α) : Shape → Prop
  | leaf (l : Leaf) : Distinct f (.leaf l)
  | object {fs : Fields} (keys : (fs.keys.map f).Nodup) (fields : ∀ g ∈ fs, Distinct f g.2) :
      Distinct f (.object fs)

/-- Every object of the shape holds each key once. -/
abbrev UniqueKeys (s : Shape) : Prop := s.Distinct id

end Shape

namespace Fields

variable {fs gs hs : Fields} {k : Key} {s t : Shape}

protected def Below (fs gs : Fields) : Prop := (Shape.object fs).Below (.object gs)

protected def UniqueKeys (fs : Fields) : Prop := (Shape.object fs).UniqueKeys

theorem get?_cons (k : Key) (f : Key × Shape) (fs : Fields) :
    get? (f :: fs) k = if k = f.1 then some f.2 else get? fs k :=
  Entries.lookup_cons_eq ..

theorem get?_set (fs : Fields) (key k : Key) (s : Shape) :
    (fs.set key s).get? k = if k = key then some s else fs.get? k :=
  Entries.lookup_put ..

theorem mem_keys_iff : k ∈ fs.keys ↔ ∃ s, fs.get? k = some s := Entries.mem_keys_iff

theorem mem_of_get? (h : fs.get? k = some s) : (k, s) ∈ fs := Entries.mem_of_lookup h

namespace UniqueKeys

theorem nodup (h : fs.UniqueKeys) : fs.keys.Nodup := by
  cases h with
  | object hk _ => rwa [List.map_id] at hk

theorem of_mem (h : fs.UniqueKeys) {f : Key × Shape} (hf : f ∈ fs) : f.2.UniqueKeys := by
  cases h with
  | object _ hs => exact hs f hf

theorem of_get? (h : fs.UniqueKeys) (hk : fs.get? k = some s) : s.UniqueKeys :=
  h.of_mem (mem_of_get? hk)

theorem get?_of_mem (h : fs.UniqueKeys) (hf : (k, s) ∈ fs) : fs.get? k = some s :=
  Entries.lookup_of_mem h.nodup hf

theorem mk (hk : fs.keys.Nodup) (hs : ∀ f ∈ fs, f.2.UniqueKeys) : fs.UniqueKeys :=
  .object (by rwa [List.map_id]) hs

theorem nil : Fields.UniqueKeys [] := mk List.nodup_nil fun _ h => nomatch h

theorem set (h : fs.UniqueKeys) (hs : s.UniqueKeys) : (fs.set k s).UniqueKeys := by
  have hk : (fs.set k s).keys.Nodup := by
    show ((Entries.put k s fs).map Prod.fst).Nodup
    rw [Entries.keys_put]
    split
    · exact h.nodup
    · rename_i hm
      exact List.nodup_append.mpr ⟨h.nodup, List.nodup_singleton k, by
        rintro a ha b hb rfl
        exact hm (List.mem_singleton.mp hb ▸ ha)⟩
  refine mk hk fun f hf => ?_
  have hget : (fs.set k s).get? f.1 = some f.2 := Entries.lookup_of_mem hk hf
  rw [get?_set] at hget
  split at hget
  · cases hget; exact hs
  · exact h.of_get? hget

end UniqueKeys

end Fields

namespace Shape

open Fields

theorem below_object_iff {fs gs : Fields} :
    (object fs).Below (.object gs) ↔
      ∀ k s, fs.get? k = some s → ∃ t, gs.get? k = some t ∧ s.Below t := by
  constructor
  · intro h k s hk
    cases h with
    | object keys fields =>
      obtain ⟨t, ht⟩ := mem_keys_iff.mp (keys k (mem_keys_iff.mpr ⟨s, hk⟩))
      exact ⟨t, ht, fields k s t hk ht⟩
  · intro h
    refine .object (fun k hk => ?_) fun k s t hs ht => ?_
    · obtain ⟨s, hs⟩ := mem_keys_iff.mp hk
      obtain ⟨t, ht, _⟩ := h k s hs
      exact mem_keys_iff.mpr ⟨t, ht⟩
    · obtain ⟨t', ht', hst⟩ := h k s hs
      cases ht.symm.trans ht'
      exact hst

theorem Below.of_object {s : Shape} {gs : Fields} (h : s.Below (.object gs)) :
    s = .leaf .any ∨ ∃ fs : Fields, s = .object fs := by
  cases h with
  | any => exact .inl rfl
  | object => exact .inr ⟨_, rfl⟩

namespace Below

theorem refl (s : Shape) : s.Below s := by
  induction s using fieldsInduction with
  | leaf l =>
    cases l with
    | any => exact .any _
    | oneOf types => exact .oneOf types
  | object fields ih =>
    exact below_object_iff.mpr fun k s hk => ⟨s, hk, ih _ (mem_of_get? hk)⟩

theorem trans {s t u : Shape} (h : s.Below t) (h' : t.Below u) : s.Below u := by
  induction h generalizing u with
  | any => exact .any u
  | oneOf => exact h'
  | object keys _ ih =>
    cases h' with
    | object keys' fields' =>
      refine .object (fun k hk => keys' k (keys k hk)) fun k a c ha hc => ?_
      obtain ⟨b, hb⟩ := mem_keys_iff.mp (keys k (mem_keys_iff.mpr ⟨a, ha⟩))
      exact ih k a b ha hb (fields' k b c hb hc)

end Below

/-! ### Shapes that differ in the order of fields -/

theorem allIn_iff {gs : Fields} {fs : List (Key × Shape)} :
    allIn gs fs = true ↔ ∀ f ∈ fs, ∃ t, gs.get? f.1 = some t ∧ f.2.same t = true := by
  induction fs with
  | nil => simp [allIn]
  | cons f fs ih =>
    obtain ⟨k, s⟩ := f
    rw [allIn, Bool.and_eq_true, ih, List.forall_mem_cons]
    refine and_congr ?_ Iff.rfl
    cases gs.get? k <;> simp

/-- For shapes that hold every key once, to be the same is to be below each other. -/
theorem same_iff {s t : Shape} (hs : s.UniqueKeys) (ht : t.UniqueKeys) :
    s.same t = true ↔ s.Below t ∧ t.Below s := by
  induction s using fieldsInduction generalizing t with
  | leaf l =>
    constructor
    · intro h
      cases t with
      | leaf l' =>
        have hl : l = l' := by simpa [same] using h
        rw [hl]
        exact ⟨.refl _, .refl _⟩
      | object gs => simp [same] at h
    · rintro ⟨h, h'⟩
      cases h <;> cases h' <;> simp [same]
  | object fs ih =>
    cases t with
    | leaf l =>
      constructor
      · intro h; simp [same] at h
      · rintro ⟨h, _⟩; cases h
    | object gs =>
      have hf : Fields.UniqueKeys fs := hs
      have hg : Fields.UniqueKeys gs := ht
      rw [same, Bool.and_eq_true, beq_iff_eq, allIn_iff]
      have hlen : ∀ fs : Fields, fs.keys.length = fs.length := fun fs => List.length_map _
      constructor
      · rintro ⟨hl, hall⟩
        have hsub : keys fs ⊆ keys gs := by
          intro k hk
          obtain ⟨s, hs⟩ := mem_keys_iff.mp hk
          obtain ⟨t, ht, _⟩ := hall _ (mem_of_get? hs)
          exact mem_keys_iff.mpr ⟨t, ht⟩
        have hle : (keys gs).length ≤ (keys fs).length := by
          rw [hlen, hlen]
          exact Nat.le_of_eq hl.symm
        have hperm : (keys fs).Perm (keys gs) :=
          (List.subperm_of_subset hf.nodup hsub).perm_of_length_le hle
        have heach : ∀ k s t, get? fs k = some s → get? gs k = some t → s.Below t ∧ t.Below s := by
          intro k s t hs ht
          obtain ⟨t', ht', hst⟩ := hall _ (mem_of_get? hs)
          cases ht.symm.trans ht'
          exact (ih _ (mem_of_get? hs) (hf.of_get? hs) (hg.of_get? ht)).mp hst
        exact ⟨.object (fun k hk => hperm.mem_iff.mp hk) fun k s t hs ht => (heach k s t hs ht).1,
          .object (fun k hk => hperm.mem_iff.mpr hk) fun k t s ht hs => (heach k s t hs ht).2⟩
      · rintro ⟨h, h'⟩
        cases h with
        | object keys fields =>
        cases h' with
        | object keys' fields' =>
          refine ⟨?_, fun f hff => ?_⟩
          · rw [← hlen, ← hlen]
            exact Nat.le_antisymm (hf.nodup.length_le_of_subset keys)
              (hg.nodup.length_le_of_subset keys')
          · have hs := hf.get?_of_mem hff
            obtain ⟨t, ht⟩ := mem_keys_iff.mp (keys f.1 (mem_keys_iff.mpr ⟨_, hs⟩))
            exact ⟨t, ht, (ih f hff (hf.of_mem hff) (hg.of_get? ht)).mpr
              ⟨fields _ _ _ hs ht, fields' _ _ _ ht hs⟩⟩

end Shape

end Stencil
