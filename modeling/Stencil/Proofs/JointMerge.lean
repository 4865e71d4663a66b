import Stencil.Proofs.FirstClash
import Stencil.Proofs.Places

/-!
# Shapes that agree two by two

Shapes of which any two agree, wherever a chain of keys leads through both, have an upper bound in
common (`Shape.exists_above`): a merge brings no shape to the end of a chain that neither side had
there, so what clashes with many shapes clashes with one of them. The single field that lies along a
chain of keys is below a shape if the chain leads to something above the field's own shape
(`Shape.along_below_iff`).
-/

namespace Stencil.Shape

open Fields

variable {s t m u v : Shape} {path names : List String} {key : Key} {chain keys : List Key}
variable {c : Conflict}

/-! ### Following a chain of keys -/

@[simp] theorem follow_nil (s : Shape) : s.follow [] = some s := by cases s <;> rfl

theorem follow_cons (s : Shape) (key : Key) (chain : List Key) :
    s.follow (key :: chain) = (s.fields.get? key).bind fun t => t.follow chain := by
  cases s <;> rfl

theorem follow_object_fields (h : chain ≠ []) : (object s.fields).follow chain = s.follow chain := by
  obtain ⟨key, rest, rfl⟩ := List.exists_cons_of_ne_nil h
  rw [follow_cons, follow_cons]
  rfl

theorem follow_append (s : Shape) (chain rest : List Key) :
    s.follow (chain ++ rest) = (s.follow chain).bind fun t => t.follow rest := by
  induction chain generalizing s with
  | nil => rw [List.nil_append, follow_nil, Option.bind_some]
  | cons key chain ih =>
    rw [List.cons_append, follow_cons, follow_cons, Option.bind_assoc]
    simp only [ih]

/-- Nothing is inside a leaf or an object without fields. -/
theorem follow_of_fields_eq_nil (hs : s.fields = []) (h : s.follow chain = some u) :
    chain = [] ∧ u = s := by
  cases chain with
  | nil => exact ⟨rfl, Option.some.inj (h.symm.trans (follow_nil s))⟩
  | cons key chain =>
    rw [follow_cons, hs] at h
    cases h

/-- What a merge has at the end of a chain, if it asks for anything there, one side has too. -/
theorem follow_merge (ht : t.UniqueKeys) (h : s.merge path t = .ok m)
    (hm : m.follow chain = some u) (hu : u.leaf? ≠ some .any) :
    ∃ v, (s.follow chain = some v ∨ t.follow chain = some v) ∧ v.leaf? = u.leaf? := by
  induction chain generalizing s t m path with
  | nil =>
    cases (follow_nil m).symm.trans hm
    rcases (leaf?_merge hu h).mp rfl with hs | ht
    · exact ⟨s, .inl (follow_nil s), hs⟩
    · exact ⟨t, .inr (follow_nil t), ht⟩
  | cons key chain ih =>
    simp only [follow_cons] at hm ⊢
    obtain ⟨p, hp, hm⟩ := Option.bind_eq_some_iff.mp hm
    have hjoin := joins_merge ht h key
    rw [hp] at hjoin
    generalize hps : s.fields.get? key = ps at hjoin
    generalize hpt : t.fields.get? key = pt at hjoin
    cases hjoin with
    | left => exact ⟨u, .inl hm, rfl⟩
    | right => exact ⟨u, .inr hm, rfl⟩
    | both h => exact ih (ht.fields.of_get? hpt) h hm

/-! ### Agreement -/

/-- Wherever a chain of keys leads through both shapes, there are leaves of the same types, two
objects, or an open leaf on one side. -/
def Agrees (s t : Shape) : Prop :=
  ∀ chain u v, s.follow chain = some u → t.follow chain = some v →
    u.leaf? = some .any ∨ v.leaf? = some .any ∨ u.leaf? = v.leaf?

theorem Incompatible.leaf?_ne (h : Incompatible names s t c) :
    s.leaf? ≠ some .any ∧ t.leaf? ≠ some .any ∧ s.leaf? ≠ t.leaf? := by
  cases h with
  | types h => simpa [leaf?] using h
  | objectLeaf | leafObject => simp [leaf?]

theorem Agrees.exists_merge (ht : t.UniqueKeys) (h : s.Agrees t) (path : List String) :
    ∃ m, s.merge path t = .ok m := by
  have hfails := failsFirst_merge path s ht
  cases hm : s.merge path t with
  | ok m => exact ⟨m, rfl⟩
  | error c =>
    rw [hm] at hfails
    obtain ⟨_, chain, _, _, ⟨u, v, hu, hv, hc⟩, _⟩ := hfails
    obtain ⟨hu', hv', hne⟩ := hc.leaf?_ne
    rcases h chain u v hu hv with h | h | h
    · exact absurd h hu'
    · exact absurd h hv'
    · exact absurd h hne

/-- Shapes that agree two by two have an upper bound that asks for nothing else: what it has at the
end of a chain is there in one of them. -/
theorem exists_above {ss : List Shape} (hu : ∀ s ∈ ss, s.UniqueKeys)
    (h : ∀ s ∈ ss, ∀ t ∈ ss, s.Agrees t) :
    ∃ m : Shape, m.UniqueKeys ∧ (∀ s ∈ ss, s.Below m) ∧
      ∀ chain u, m.follow chain = some u → u.leaf? ≠ some .any →
        ∃ s ∈ ss, ∃ v, s.follow chain = some v ∧ v.leaf? = u.leaf? := by
  induction ss with
  | nil =>
    refine ⟨.leaf .any, .leaf _, nofun, fun chain u hm hne => ?_⟩
    obtain ⟨-, rfl⟩ := follow_of_fields_eq_nil rfl hm
    exact absurd rfl hne
  | cons s ss ih =>
    obtain ⟨hs, hss⟩ := List.forall_mem_cons.mp hu
    obtain ⟨m, hmu, habove, hfrom⟩ := ih hss fun a ha b hb =>
      h a (List.mem_cons_of_mem _ ha) b (List.mem_cons_of_mem _ hb)
    have hagrees : m.Agrees s := by
      intro chain u v hmc hsc
      by_cases hopen : u.leaf? = some .any
      · exact .inl hopen
      · obtain ⟨t, ht, w, hw, heq⟩ := hfrom chain u hmc hopen
        rw [← heq]
        exact h t (List.mem_cons_of_mem _ ht) s (List.mem_cons_self ..) chain w v hw hsc
    obtain ⟨n, hn⟩ := hagrees.exists_merge hs []
    obtain ⟨hnu, hmn, hsn⟩ := merge_above hmu hs hn
    refine ⟨n, hnu, List.forall_mem_cons.mpr ⟨hsn, fun t ht => (habove t ht).trans hmn⟩,
      fun chain u hnc hne => ?_⟩
    obtain ⟨v, hv | hv, heq⟩ := follow_merge hs hn hnc hne
    · obtain ⟨t, ht, w, hw, hwv⟩ := hfrom chain v hv (heq ▸ hne)
      exact ⟨t, List.mem_cons_of_mem _ ht, w, hw, hwv.trans heq⟩
    · exact ⟨s, List.mem_cons_self .., v, hv, heq⟩

/-! ### One field along a chain of keys -/

/-- Objects of one field inside each other, the innermost one around `s`. -/
def along (s : Shape) : List Key → Shape
  | [] => s
  | key :: keys => .object [(key, s.along keys)]

theorem uniqueKeys_along (hs : s.UniqueKeys) (keys : List Key) : (s.along keys).UniqueKeys := by
  induction keys with
  | nil => exact hs
  | cons key keys ih => exact Fields.UniqueKeys.singleton ih

theorem get?_singleton_self (key : Key) (s : Shape) : get? [(key, s)] key = some s := by
  rw [get?_cons, if_pos rfl]

theorem along_below_iff : (s.along keys).Below t ↔ ∃ u, t.follow keys = some u ∧ s.Below u := by
  induction keys generalizing t with
  | nil => simp [along]
  | cons key keys ih =>
    rw [along, follow_cons]
    cases t with
    | leaf l => exact ⟨nofun, fun ⟨u, hu, _⟩ => nomatch hu⟩
    | object gs =>
      rw [below_object_iff]
      constructor
      · intro h
        obtain ⟨p, hp, hbelow⟩ := h key _ (get?_singleton_self key _)
        obtain ⟨u, hu, hsu⟩ := ih.mp hbelow
        exact ⟨u, Option.bind_eq_some_iff.mpr ⟨p, hp, hu⟩, hsu⟩
      · rintro ⟨u, hu, hsu⟩ k p hk
        obtain ⟨q, hq, hu⟩ := Option.bind_eq_some_iff.mp hu
        rw [get?_cons] at hk
        split at hk
        · rename_i heq
          cases hk
          exact ⟨q, heq ▸ hq, ih.mpr ⟨u, hu, hsu⟩⟩
        · cases hk

/-- A chain stays on the one that the field lies along. -/
theorem follow_along (hs : s.fields = []) (h : (s.along keys).follow chain = some u) :
    ∃ rest, keys = chain ++ rest ∧ u = s.along rest := by
  induction chain generalizing keys with
  | nil => exact ⟨keys, rfl, Option.some.inj (h.symm.trans (follow_nil _))⟩
  | cons key chain ih =>
    cases keys with
    | nil => exact nomatch (follow_of_fields_eq_nil hs h).1
    | cons key' keys =>
      rw [along, follow_cons] at h
      obtain ⟨p, hp, h⟩ := Option.bind_eq_some_iff.mp h
      rw [fields, get?_cons] at hp
      split at hp
      · rename_i heq
        cases hp
        obtain ⟨rest, rfl, hu⟩ := ih h
        exact ⟨rest, by rw [heq]; rfl, hu⟩
      · cases hp

end Stencil.Shape
