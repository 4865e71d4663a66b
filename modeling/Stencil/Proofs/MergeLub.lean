import Stencil.Proofs.Outcome
import Stencil.Proofs.ShapeOrder
import Stencil.Shape.Merge

/-!
# Merging is the least upper bound

Two shapes have a merge exactly if some shape is above both, and the merge is then the least one
above both (`Fields.merge_isLub`). So the order and the grouping of merges do not matter, up to the
order of fields, and neither does merging twice.
-/

namespace Stencil

open Outcome

namespace Shape

open Fields

theorem mergeInto_cons_eq_ok {path : List String} {into : Fields} {f : Key × Shape}
    {rest : List (Key × Shape)} {m : Fields} :
    mergeInto path into (f :: rest) = .ok m ↔
      ∃ s, ((∃ p, into.get? f.1 = some p ∧ p.merge (path ++ [f.1.toString]) f.2 = .ok s) ∨
          (into.get? f.1 = none ∧ s = f.2)) ∧
        mergeInto path (into.set f.1 s) rest = .ok m := by
  obtain ⟨k, t⟩ := f
  rw [mergeInto]
  cases into.get? k with
  | none => simp [bind, Except.bind]
  | some p => simp [bind_eq_ok]

theorem merge_object_eq_ok {path : List String} {fs gs : Fields} {m : Shape} :
    (object fs).merge path (.object gs) = .ok m ↔
      ∃ hs, mergeInto path fs gs = .ok hs ∧ m = .object hs := by
  rw [merge, bind_eq_ok]
  exact exists_congr fun hs => and_congr Iff.rfl ⟨fun h => by cases h; rfl, fun h => h ▸ rfl⟩

/-! ### The merge is above both -/

structure IsAbove (m s t : Shape) : Prop where
  unique : m.UniqueKeys
  left : s.Below m
  right : t.Below m

theorem mergeInto_above {rest : List (Key × Shape)}
    (ih : ∀ f ∈ rest, ∀ path (p m : Shape), p.UniqueKeys → f.2.UniqueKeys →
      p.merge path f.2 = .ok m → m.IsAbove p f.2) {path : List String} {into m : Fields}
    (hi : into.UniqueKeys) (hr : ∀ f ∈ rest, f.2.UniqueKeys)
    (h : mergeInto path into rest = .ok m) :
    m.UniqueKeys ∧ into.Below m ∧ ∀ f ∈ rest, ∃ t, m.get? f.1 = some t ∧ f.2.Below t := by
  induction rest generalizing into with
  | nil =>
    cases h
    exact ⟨hi, .refl _, fun _ hf => nomatch hf⟩
  | cons f rest ihr =>
    obtain ⟨s, hs, h⟩ := mergeInto_cons_eq_ok.mp h
    have hf := hr f (List.mem_cons_self ..)
    -- the shape now under the key is above the one of the field, and above the one it replaces
    have habove : s.UniqueKeys ∧ f.2.Below s ∧ ∀ p, into.get? f.1 = some p → p.Below s := by
      rcases hs with ⟨p, hp, hs⟩ | ⟨hp, rfl⟩
      · have := ih f (List.mem_cons_self ..) _ p s (hi.of_get? hp) hf hs
        exact ⟨this.unique, this.right, fun q hq => by cases hp.symm.trans hq; exact this.left⟩
      · exact ⟨hf, .refl _, fun q hq => by cases hp.symm.trans hq⟩
    obtain ⟨hs, hfs, hps⟩ := habove
    have hset : into.Below (into.set f.1 s) := by
      refine below_object_iff.mpr fun k p hp => ?_
      rw [get?_set]
      split
      · rename_i hk; exact ⟨s, rfl, hps p (hk ▸ hp)⟩
      · exact ⟨p, hp, .refl _⟩
    obtain ⟨hm, hinto, hrest⟩ := ihr (fun g hg => ih g (List.mem_cons_of_mem _ hg)) (hi.set hs)
      (fun g hg => hr g (List.mem_cons_of_mem _ hg)) h
    refine ⟨hm, hset.trans hinto, List.forall_mem_cons.mpr ⟨?_, hrest⟩⟩
    obtain ⟨t, ht, hst⟩ := below_object_iff.mp hinto f.1 s (by rw [get?_set, if_pos rfl])
    exact ⟨t, ht, hfs.trans hst⟩

theorem merge_above {path : List String} {s t m : Shape} (hs : s.UniqueKeys) (ht : t.UniqueKeys)
    (h : s.merge path t = .ok m) : m.IsAbove s t := by
  induction t using fieldsInduction generalizing s m path with
  | leaf l =>
    cases s with
    | leaf l' =>
      cases l' with
      | any => cases h; exact ⟨ht, .any _, .refl _⟩
      | oneOf a =>
        cases l with
        | any => cases h; exact ⟨hs, .refl _, .any _⟩
        | oneOf b =>
          rw [merge] at h
          split at h
          · rename_i hab
            cases h
            exact ⟨hs, .refl _, hab ▸ .refl _⟩
          · cases h
    | object fs =>
      cases l with
      | any => cases h; exact ⟨hs, .refl _, .any _⟩
      | oneOf b => cases h
  | object gs ih =>
    cases s with
    | leaf l =>
      cases l with
      | any => cases h; exact ⟨ht, .any _, .refl _⟩
      | oneOf a => cases h
    | object fs =>
      obtain ⟨ms, hms, rfl⟩ := merge_object_eq_ok.mp h
      have hg : Fields.UniqueKeys gs := ht
      obtain ⟨hm, hl, hr⟩ := mergeInto_above
        (fun f hf path p m hp hf' h => ih f hf hp hf' h) hs (fun f hf => hg.of_mem hf) hms
      exact ⟨hm, hl, below_object_iff.mpr fun k t hk => hr (k, t) (mem_of_get? hk)⟩

/-! ### The merge is below everything above both -/

theorem mergeInto_least {rest : List (Key × Shape)}
    (ih : ∀ f ∈ rest, ∀ path (p u : Shape), f.2.UniqueKeys → p.Below u → f.2.Below u →
      ∃ m, p.merge path f.2 = .ok m ∧ m.Below u) (path : List String) {into u : Fields}
    (hr : ∀ f ∈ rest, f.2.UniqueKeys) (hi : into.Below u)
    (hu : ∀ f ∈ rest, ∃ t, u.get? f.1 = some t ∧ f.2.Below t) :
    ∃ m, mergeInto path into rest = .ok m ∧ m.Below u := by
  induction rest generalizing into with
  | nil => exact ⟨into, rfl, hi⟩
  | cons f rest ihr =>
    obtain ⟨t, ht, hft⟩ := hu f (List.mem_cons_self ..)
    have hstep : ∃ s, ((∃ p, into.get? f.1 = some p ∧
        p.merge (path ++ [f.1.toString]) f.2 = .ok s) ∨ (into.get? f.1 = none ∧ s = f.2)) ∧
        s.Below t := by
      cases hp : into.get? f.1 with
      | none => exact ⟨f.2, .inr ⟨rfl, rfl⟩, hft⟩
      | some p =>
        obtain ⟨t', ht', hpt⟩ := below_object_iff.mp hi f.1 p hp
        cases ht.symm.trans ht'
        obtain ⟨s, hs, hst⟩ := ih f (List.mem_cons_self ..) (path ++ [f.1.toString]) p t
          (hr f (List.mem_cons_self ..)) hpt hft
        exact ⟨s, .inl ⟨p, rfl, hs⟩, hst⟩
    obtain ⟨s, hs, hst⟩ := hstep
    have hset : (into.set f.1 s).Below u := by
      refine below_object_iff.mpr fun k p hp => ?_
      rw [get?_set] at hp
      split at hp
      · rename_i hk; cases hp; exact ⟨t, hk ▸ ht, hst⟩
      · exact below_object_iff.mp hi k p hp
    obtain ⟨m, hm, hmu⟩ := ihr (fun g hg => ih g (List.mem_cons_of_mem _ hg))
      (fun g hg => hr g (List.mem_cons_of_mem _ hg)) hset
      fun g hg => hu g (List.mem_cons_of_mem _ hg)
    exact ⟨m, mergeInto_cons_eq_ok.mpr ⟨s, hs, hm⟩, hmu⟩

theorem merge_least (path : List String) {s t u : Shape} (ht : t.UniqueKeys) (hsu : s.Below u)
    (htu : t.Below u) : ∃ m, s.merge path t = .ok m ∧ m.Below u := by
  induction t using fieldsInduction generalizing s u path with
  | leaf l =>
    cases hsu with
    | any => exact ⟨_, by rw [merge], htu⟩
    | oneOf a =>
      cases l with
      | any => exact ⟨_, by rw [merge]; nofun, .refl _⟩
      | oneOf b =>
        cases htu
        exact ⟨_, by rw [merge, if_pos rfl], .refl _⟩
    | object keys fields =>
      cases l with
      | any => exact ⟨_, by rw [merge]; nofun, .object keys fields⟩
      | oneOf b => cases htu
  | object gs ih =>
    have hg : Fields.UniqueKeys gs := ht
    cases htu with
    | object keys fields =>
      cases hsu with
      | any => exact ⟨_, by rw [merge], .object keys fields⟩
      | object keys' fields' =>
        obtain ⟨m, hm, hmu⟩ := mergeInto_least
          (fun f hf path p u hf' hp hfu => ih f hf path hf' hp hfu) path (fun f hf => hg.of_mem hf)
          (.object keys' fields') fun f hf =>
            below_object_iff.mp (.object keys fields) f.1 f.2 (hg.get?_of_mem hf)
        exact ⟨_, merge_object_eq_ok.mpr ⟨m, hm, rfl⟩, hmu⟩

end Shape

namespace Fields

variable {a b c u m : Fields}

theorem merge_eq_ok :
    a.merge b = .ok m ↔ (Shape.object a).merge [] (.object b) = .ok (.object m) := by
  rw [Shape.merge_object_eq_ok]
  constructor
  · intro h; exact ⟨m, h, rfl⟩
  · rintro ⟨_, h, ⟨⟩⟩; exact h

/-- Two outcomes agree if both are failures, or fields that differ in their order only. -/
def Agree : Except Conflict Fields → Except Conflict Fields → Prop
  | .ok fs, .ok gs => fs.same gs = true
  | .error _, .error _ => True
  | _, _ => False

theorem Agree.exists_ok_iff {r r' : Except Conflict Fields} (h : Agree r r') :
    (∃ fs, r = .ok fs) ↔ ∃ gs, r' = .ok gs := by
  cases r with
  | ok fs =>
    cases r' with
    | ok gs => exact ⟨fun _ => ⟨gs, rfl⟩, fun _ => ⟨fs, rfl⟩⟩
    | error c => exact h.elim
  | error c =>
    cases r' with
    | ok gs => exact h.elim
    | error c' => exact ⟨nofun, nofun⟩

theorem same_iff_below (ha : a.UniqueKeys) (hb : b.UniqueKeys) :
    a.same b = true ↔ a.Below b ∧ b.Below a :=
  Shape.same_iff ha hb

/-! ### Least fields -/

/-- `r` is the least of the fields that have the property `P`, a failure only if there are none. -/
structure Least (P : Fields → Prop) (r : Except Conflict Fields) : Prop where
  unique : ∀ m, r = .ok m → m.UniqueKeys
  holds : ∀ m, r = .ok m → P m
  least : ∀ u, P u → ∃ m, r = .ok m ∧ m.Below u

namespace Least

variable {P Q : Fields → Prop} {r r' : Except Conflict Fields}

theorem congr (h : Least P r) (hPQ : ∀ u, P u ↔ Q u) : Least Q r :=
  ⟨h.unique, fun m hm => (hPQ m).mp (h.holds m hm), fun u hu => h.least u ((hPQ u).mpr hu)⟩

theorem agree (h : Least P r) (h' : Least P r') : Agree r r' := by
  cases r with
  | error e =>
    cases r' with
    | error e' => trivial
    | ok m' =>
      obtain ⟨m, hm, _⟩ := h.least m' (h'.holds m' rfl)
      cases hm
  | ok m =>
    obtain ⟨m', rfl, hm'⟩ := h'.least m (h.holds m rfl)
    obtain ⟨_, ⟨⟩, hm⟩ := h.least m' (h'.holds m' rfl)
    exact (same_iff_below (h.unique m rfl) (h'.unique m' rfl)).mpr ⟨hm, hm'⟩

theorem bind {f : Fields → Except Conflict Fields} (hP : ∀ u v, P u → u.Below v → P v)
    (h : Least P r) (hf : ∀ m, r = .ok m → Least (fun u => m.Below u ∧ Q u) (f m)) :
    Least (fun u => P u ∧ Q u) (r >>= f) := by
  refine ⟨fun n hn => ?_, fun n hn => ?_, fun u hu => ?_⟩
  · obtain ⟨m, hm, hn⟩ := bind_eq_ok.mp hn
    exact (hf m hm).unique n hn
  · obtain ⟨m, hm, hn⟩ := bind_eq_ok.mp hn
    obtain ⟨hmn, hq⟩ := (hf m hm).holds n hn
    exact ⟨hP m n (h.holds m hm) hmn, hq⟩
  · obtain ⟨m, hm, hmu⟩ := h.least u hu.1
    obtain ⟨n, hn, hnu⟩ := (hf m hm).least u ⟨hmu, hu.2⟩
    exact ⟨n, bind_eq_ok.mpr ⟨m, hm, hn⟩, hnu⟩

end Least

theorem least_merge (ha : a.UniqueKeys) (hb : b.UniqueKeys) :
    Least (fun u => a.Below u ∧ b.Below u) (a.merge b) := by
  have habove : ∀ m, a.merge b = .ok m → (Shape.object m).IsAbove (.object a) (.object b) :=
    fun m hm => Shape.merge_above ha hb (merge_eq_ok.mp hm)
  refine ⟨fun m hm => (habove m hm).unique,
    fun m hm => ⟨(habove m hm).left, (habove m hm).right⟩, fun u hu => ?_⟩
  obtain ⟨m, hm, hmu⟩ := Shape.merge_least [] hb hu.1 hu.2
  obtain ⟨n, _, rfl⟩ := Shape.merge_object_eq_ok.mp hm
  exact ⟨n, merge_eq_ok.mpr hm, hmu⟩

theorem agree_merge_comm (ha : a.UniqueKeys) (hb : b.UniqueKeys) :
    Agree (a.merge b) (b.merge a) :=
  (least_merge ha hb).agree ((least_merge hb ha).congr fun _ => and_comm)

theorem agree_merge_assoc (ha : a.UniqueKeys) (hb : b.UniqueKeys) (hc : c.UniqueKeys) :
    Agree (a.merge b >>= fun m => m.merge c) (b.merge c >>= fun m => a.merge m) := by
  have hleft : Least (fun u => (a.Below u ∧ b.Below u) ∧ c.Below u)
      (a.merge b >>= fun m => m.merge c) :=
    (least_merge ha hb).bind (fun _ _ h huv => ⟨h.1.trans huv, h.2.trans huv⟩)
      fun m hm => least_merge ((least_merge ha hb).unique m hm) hc
  have hright : Least (fun u => (b.Below u ∧ c.Below u) ∧ a.Below u)
      (b.merge c >>= fun m => a.merge m) :=
    (least_merge hb hc).bind (fun _ _ h huv => ⟨h.1.trans huv, h.2.trans huv⟩)
      fun m hm => (least_merge ha ((least_merge hb hc).unique m hm)).congr fun _ => and_comm
  exact hleft.agree (hright.congr fun _ => by rw [and_comm, and_assoc])

theorem agree_merge_self (ha : a.UniqueKeys) : Agree (a.merge a) (.ok a) := by
  refine (least_merge ha ha).agree ⟨?_, ?_, ?_⟩
  · rintro _ ⟨⟩; exact ha
  · rintro _ ⟨⟩; exact ⟨.refl _, .refl _⟩
  · exact fun u hu => ⟨a, rfl, hu.1⟩

/-- Two trees have a merge exactly if some tree is above both, and it is then the least one above
both. So neither the order nor the grouping of merges matters, nor merging twice. -/
theorem merge_isLub (ha : a.UniqueKeys) (hb : b.UniqueKeys) :
    ((∃ m, a.merge b = .ok m) ↔ ∃ u : Fields, u.UniqueKeys ∧ a.Below u ∧ b.Below u) ∧
    (∀ m, a.merge b = .ok m →
      m.UniqueKeys ∧ a.Below m ∧ b.Below m ∧ ∀ u, a.Below u → b.Below u → m.Below u) ∧
    Agree (a.merge b) (b.merge a) ∧ Agree (a.merge a) (.ok a) ∧
    ∀ c : Fields, c.UniqueKeys →
      Agree (a.merge b >>= fun m => m.merge c) (b.merge c >>= fun m => a.merge m) := by
  have h := least_merge ha hb
  refine ⟨⟨?_, ?_⟩, fun m hm => ?_, agree_merge_comm ha hb, agree_merge_self ha,
    fun c hc => agree_merge_assoc ha hb hc⟩
  · rintro ⟨m, hm⟩
    exact ⟨m, h.unique m hm, h.holds m hm⟩
  · rintro ⟨u, _, hu⟩
    obtain ⟨m, hm, _⟩ := h.least u hu
    exact ⟨m, hm⟩
  · refine ⟨h.unique m hm, (h.holds m hm).1, (h.holds m hm).2, fun u hau hbu => ?_⟩
    obtain ⟨m', hm', hmu⟩ := h.least u ⟨hau, hbu⟩
    cases hm.symm.trans hm'
    exact hmu

/-- An open leaf yields to an object, and keys with different marks stay apart. -/
theorem merge_isLub_user :
    let a : Fields :=
      [({ name := "user" }, .leaf .any), ({ name := "tags", array := true }, .leaf .any)]
    let b : Fields := [({ name := "tags", optional := true }, .leaf .boolean),
      ({ name := "user" }, .object [({ name := "age" }, .leaf .any)])]
    let m : Fields := [({ name := "user" }, .object [({ name := "age" }, .leaf .any)]),
      ({ name := "tags", array := true }, .leaf .any),
      ({ name := "tags", optional := true }, .leaf .boolean)]
    a.UniqueKeys ∧ b.UniqueKeys ∧ a.merge b = .ok m ∧ a.Below m ∧ b.Below m ∧
      ∀ u, a.Below u → b.Below u → m.Below u := by
  intro a b m
  have ha : a.UniqueKeys := .mk (by decide) (by simp [a, Shape.Distinct.leaf])
  have hage : (Shape.object [({ name := "age" }, .leaf .any)]).UniqueKeys :=
    .object (by decide) (by simp [Shape.Distinct.leaf])
  have hb : b.UniqueKeys := .mk (by decide) (by simp [b, hage, Shape.Distinct.leaf])
  have hm : a.merge b = .ok m := rfl
  obtain ⟨-, h, -⟩ := merge_isLub ha hb
  exact ⟨ha, hb, hm, (h m hm).2⟩

end Fields

end Stencil
