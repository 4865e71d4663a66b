import Mathlib.Algebra.GroupWithZero.Nat
import Stencil.Proofs.Coverage

/-!
# Ways through unsettled fields

Before fields are settled, a chain of names can be followed in several ways, since a name may stand
under several keys. Merging and settling never make more ways than they are given, and where they
fail at least two of them lead (`Fields.counted_merge`, `Fields.counted_settle`).
-/

namespace Stencil

open Outcome

/-- The number of ways to follow the names from the shape inward. -/
def Shape.ways : Shape → List String → Nat
  | _, [] => 1
  | s, name :: rest => (s.fields.map fun f => if f.1.name = name then f.2.ways rest else 0).sum

/-- The number of ways to follow the names, at least one, from the fields inward. -/
def Fields.ways (fs : Fields) : List String → Nat
  | [] => 0
  | name :: rest => (Shape.object fs).ways (name :: rest)

/-- Either the result has no more ways than those that were `given`, by its `size`, or the conflict
is at a place inside `path` that two of them lead to. -/
def Counted {α : Type} (path : List String) (given : List String → Nat)
    (size : α → List String → Nat) : Except Conflict α → Prop
  | .ok a => ∀ names, size a names ≤ given names
  | .error c => ∃ keys : List Key, c.names = path ++ keys.map Key.toString ∧
      2 ≤ given (keys.map Key.name)

theorem Key.toString_name (name : String) : Key.toString { name := name } = name := by
  simp [Key.toString]

section
variable {α β : Type} {path : List String} {given given' : List String → Nat}
variable {size : α → List String → Nat} {size' : β → List String → Nat} {x : Except Conflict α}

namespace Counted

theorem mono (h : Counted path given size x) (hle : ∀ names, given names ≤ given' names) :
    Counted path given' size x := by
  cases x with
  | ok a => exact fun names => Nat.le_trans (h names) (hle names)
  | error c =>
    obtain ⟨keys, hc, hk⟩ := h
    exact ⟨keys, hc, Nat.le_trans hk (hle _)⟩

theorem bind {f : α → Except Conflict β} (h : Counted path given size x)
    (hle : ∀ names, given names ≤ given' names)
    (hf : ∀ a, (∀ names, size a names ≤ given names) → Counted path given' size' (f a)) :
    Counted path given' size' (x >>= f) := by
  cases x with
  | ok a => exact hf a h
  | error c => exact h.mono hle

/-- What happens inside a field, seen from around it. -/
theorem inside {f : α → Except Conflict β} {key : Key}
    (h : Counted (path ++ [key.toString]) given size x)
    (hle : ∀ names, given names ≤ given' (key.name :: names))
    (hf : ∀ a, (∀ names, size a names ≤ given names) → Counted path given' size' (f a)) :
    Counted path given' size' (x >>= f) := by
  cases x with
  | ok a => exact hf a h
  | error c =>
    obtain ⟨keys, hc, hk⟩ := h
    refine ⟨key :: keys, ?_, Nat.le_trans hk (hle _)⟩
    rw [hc, List.append_assoc]
    rfl

end Counted

end

/-! ### Counting -/

namespace Fields

variable {fs gs : Fields} {f g both : Key × Shape} {name : String} {names rest : List String}

theorem ways_append (fs gs : Fields) (names : List String) :
    ways (fs ++ gs) names = ways fs names + ways gs names := by
  cases names with
  | nil => rfl
  | cons name rest => simp [ways, Shape.ways, Shape.fields]

theorem ways_singleton :
    ways [f] (name :: rest) = if f.1.name = name then f.2.ways rest else 0 := by
  simp [ways, Shape.ways, Shape.fields]

theorem ways_empty (names : List String) : ways [] names = 0 := by
  cases names <;> rfl

theorem ways_cons (f : Key × Shape) (fs : Fields) (names : List String) :
    ways (f :: fs) names = ways [f] names + ways fs names := ways_append [f] fs names

/-- Putting a field in the place of another one adds no more than is put on it. -/
theorem ways_replace (before after : Fields)
    (h : ∀ names, ways [both] names ≤ ways [f] names + ways [g] names) (names : List String) :
    ways (before ++ both :: after) names ≤ ways (before ++ f :: after) names + ways [g] names := by
  have := h names
  rw [ways_append, ways_cons, ways_append before, ways_cons f]
  omega

theorem ways_le_of_mem (h : f ∈ fs) (names : List String) : ways [f] names ≤ ways fs names := by
  obtain ⟨before, after, rfl⟩ := List.append_of_mem h
  rw [ways_append, ways_cons f after]
  omega

theorem ways_le_object (fs : Fields) (names : List String) :
    ways fs names ≤ (Shape.object fs).ways names := by
  cases names with
  | nil => exact Nat.zero_le _
  | cons name rest => exact Nat.le_refl _

theorem object_ways_le (h : ∀ names, ways fs names ≤ ways gs names) (names : List String) :
    (Shape.object fs).ways names ≤ (Shape.object gs).ways names := by
  cases names with
  | nil => exact Nat.le_refl _
  | cons name rest => exact h (name :: rest)

theorem ways_singleton_le (hf : both.1.name = f.1.name) (hg : f.1.name = g.1.name)
    (h : ∀ rest, both.2.ways rest ≤ f.2.ways rest + g.2.ways rest) (names : List String) :
    ways [both] names ≤ ways [f] names + ways [g] names := by
  cases names with
  | nil => exact Nat.zero_le _
  | cons name rest =>
    rw [ways_singleton, ways_singleton, ways_singleton, hf, ← hg]
    split
    · exact h rest
    · exact Nat.zero_le _

end Fields

/-! ### Merging -/

namespace Shape

variable {path : List String} {s t : Shape}

/-- Both shapes are at the place of the conflict itself. -/
theorem counted_error {c : Conflict} (h : c.names = path) :
    Counted path (fun names => s.ways names + t.ways names) Shape.ways (.error c) :=
  ⟨[], by rw [h]; exact (List.append_nil path).symm, Nat.le_refl 2⟩

theorem counted_mergeInto {fs gs : Fields}
    (ih : ∀ f ∈ gs, ∀ path (p : Shape), Counted path (fun names => p.ways names + f.2.ways names)
      Shape.ways (p.merge path f.2)) :
    Counted path (fun names => fs.ways names + gs.ways names) Fields.ways
      (mergeInto path fs gs) := by
  induction gs generalizing fs with
  | nil => exact fun names => Nat.le_add_right _ _
  | cons f gs ihg =>
    obtain ⟨key, shape⟩ := f
    obtain ⟨hf, hgs⟩ := List.forall_mem_cons.mp ih
    rw [mergeInto]
    have hrest : ∀ merged, (∀ names, Fields.ways (fs.set key merged) names ≤
        fs.ways names + Fields.ways [(key, shape)] names) →
        Counted path (fun names => fs.ways names + Fields.ways ((key, shape) :: gs) names)
          Fields.ways (mergeInto path (fs.set key merged) gs) := fun merged hset =>
      (ihg hgs).mono fun names => by
        have := hset names
        rw [Fields.ways_cons]
        omega
    cases hget : fs.get? key with
    | none =>
      refine hrest shape fun names => ?_
      have hnew : key ∉ fs.keys := fun hk => by
        obtain ⟨s, hs⟩ := Fields.mem_keys_iff.mp hk
        cases hget.symm.trans hs
      rw [Fields.set, Entries.put_of_notMem hnew]
      exact Nat.le_of_eq (Fields.ways_append ..)
    | some p =>
      obtain ⟨before, after, rfl, hput⟩ := Entries.exists_put_eq hget
      refine (hf (path ++ [key.toString]) p).inside (fun names => ?_) fun merged hmerged => ?_
      · have hmem : (key, p) ∈ before ++ (key, p) :: after := by simp
        have hp := Fields.ways_le_of_mem hmem (key.name :: names)
        rw [Fields.ways_singleton, if_pos rfl] at hp
        rw [Fields.ways_cons, Fields.ways_singleton, if_pos rfl]
        simp only at hp ⊢
        omega
      · refine hrest merged fun names => ?_
        rw [Fields.set, hput]
        have hone : ∀ names, Fields.ways [(key, merged)] names ≤
            Fields.ways [(key, p)] names + Fields.ways [(key, shape)] names :=
          Fields.ways_singleton_le rfl rfl hmerged
        exact Fields.ways_replace before after hone names

theorem counted_merge (path : List String) (s t : Shape) :
    Counted path (fun names => s.ways names + t.ways names) Shape.ways
      (s.merge path t) := by
  induction t using fieldsInduction generalizing s path with
  | leaf l =>
    cases l with
    | any =>
      rw [Fields.merge_any]
      exact fun names => Nat.le_add_right _ _
    | oneOf b =>
      cases s with
      | object fs => exact counted_error rfl
      | leaf l =>
        cases l with
        | any => exact fun names => Nat.le_add_left _ _
        | oneOf a =>
          rw [merge]
          split
          · exact fun names => Nat.le_add_right _ _
          · exact counted_error rfl
  | object gs ih =>
    cases s with
    | leaf l =>
      cases l with
      | any => exact fun names => Nat.le_add_left _ _
      | oneOf a => exact counted_error rfl
    | object fs =>
      rw [merge]
      have h : Counted path (fun names => Fields.ways fs names + gs.ways names) Fields.ways
          (mergeInto path fs gs) := counted_mergeInto ih
      cases hm : mergeInto path fs gs with
      | ok m =>
        rw [hm] at h
        intro names
        cases names with
        | nil => exact Nat.le_add_right 1 1
        | cons name rest => exact h (name :: rest)
      | error c =>
        rw [hm] at h
        obtain ⟨keys, hc, hk⟩ := h
        cases keys with
        | nil => cases hk
        | cons key keys => exact ⟨key :: keys, hc, hk⟩

end Shape

namespace Fields

variable {path : List String} {fs : Fields} {f g : Key × Shape}

theorem counted_merge (fs gs : Fields) :
    Counted [] (fun names => fs.ways names + gs.ways names) ways (fs.merge gs) :=
  Shape.counted_mergeInto fun f _ path p => Shape.counted_merge path p f.2

/-! ### Settling -/

theorem counted_fill (path : List String) (items plain : Shape) :
    Counted path (fun names => items.ways names + plain.ways names) Shape.ways
      (fill path items plain) := by
  cases plain with
  | object fs => exact Shape.counted_merge path items (.object fs)
  | leaf l =>
    rw [fill]
    split
    · exact fun names => Nat.le_add_right _ _
    · exact Shape.counted_error rfl

theorem counted_together (path : List String) (f g : Key × Shape) :
    Counted path (fun names => f.2.ways names + g.2.ways names) Shape.ways
      (together path f g) := by
  unfold together
  split
  · exact Shape.counted_merge path f.2 g.2
  · split
    · exact counted_fill path f.2 g.2
    · exact (counted_fill path g.2 f.2).mono fun names => Nat.le_of_eq (Nat.add_comm _ _)

theorem counted_absorb (path : List String) (field : Key × Shape) (settled : Fields) :
    Counted path (fun names => settled.ways names + ways [field] names) ways
      (absorb path field settled) := by
  rcases absorb_cases path field settled with ⟨before, first, after, rfl, _, hn, h⟩ | ⟨_, h⟩
  · rw [h, combine_eq hn, ← Key.toString_name field.1.name, bind_assoc]
    refine (counted_together _ first field).inside (fun names => ?_) fun shape hshape => ?_
    · have hmem : first ∈ before ++ first :: after := by simp
      have hfirst := ways_le_of_mem hmem (field.1.name :: names)
      rw [ways_singleton, if_pos hn] at hfirst
      rw [ways_singleton, if_pos rfl]
      simp only at hfirst ⊢
      omega
    · exact ways_replace before after (ways_singleton_le rfl hn hshape)
  · rw [h]
    exact fun names => Nat.le_of_eq (ways_append settled [field] names)

theorem counted_foldlM (path : List String) (fs settled : Fields) :
    Counted path (fun names => settled.ways names + fs.ways names) ways
      (fs.foldlM (fun settled field => absorb path field settled) settled) := by
  induction fs generalizing settled with
  | nil => exact fun names => Nat.le_add_right _ _
  | cons f fs ih =>
    rw [List.foldlM_cons]
    refine (counted_absorb path f settled).bind (fun names => ?_) fun out hle => ?_
    · rw [ways_cons f fs]
      omega
    · refine (ih out).mono fun names => ?_
      have := hle names
      rw [ways_cons f fs]
      omega

theorem counted_fold (path : List String) (fs : Fields) :
    Counted path fs.ways ways (fold path fs) :=
  (counted_foldlM path fs []).mono fun names =>
    Nat.le_of_eq (by rw [ways_empty, Nat.zero_add])

theorem counted_mapM {settle : Key × Shape → Except Conflict (Key × Shape)}
    (h : ∀ f ∈ fs, Counted path (ways [f]) (fun g => ways [g]) (settle f)) :
    Counted path fs.ways ways (fs.mapM settle) := by
  induction fs with
  | nil => exact fun names => Nat.le_refl _
  | cons f fs ih =>
    obtain ⟨hf, hfs⟩ := List.forall_mem_cons.mp h
    rw [List.mapM_cons]
    refine hf.bind (ways_le_of_mem (List.mem_cons_self ..)) fun g hg => ?_
    refine (ih hfs).bind (fun names => ?_) fun gs hgs names => ?_
    · rw [ways_cons]
      exact Nat.le_add_left _ _
    · rw [ways_cons, ways_cons f]
      exact Nat.add_le_add (hg names) (hgs names)

theorem counted_settleLevels (levels : Nat) (path : List String) (fs : Fields) :
    Counted path fs.ways ways (settleLevels levels path fs) := by
  induction levels generalizing path fs with
  | zero => exact fun names => Nat.le_refl _
  | succ levels ih =>
    rw [settleLevels_succ]
    refine (counted_fold path fs).bind (fun names => Nat.le_refl _) fun folded hle => ?_
    refine (counted_mapM ?_).mono hle
    rintro ⟨key, shape⟩ -
    cases shape with
    | leaf l => exact fun names => Nat.le_refl _
    | object inner =>
      rw [settleField_object, ← Key.toString_name key.name]
      refine (ih _ inner).inside (fun names => ?_) fun settled hsettled names => ?_
      · rw [ways_singleton, if_pos rfl]
        exact ways_le_object inner names
      · cases names with
        | nil => exact Nat.le_refl _
        | cons name rest =>
          rw [ways_singleton, ways_singleton]
          split
          · exact object_ways_le hsettled rest
          · exact Nat.le_refl _

theorem counted_settle (fs : Fields) : Counted [] fs.ways ways fs.settle :=
  counted_settleLevels _ [] fs

end Fields

end Stencil
