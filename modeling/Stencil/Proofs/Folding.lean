import Stencil.Proofs.MergeLub
import Stencil.Shape.Settle

/-!
# What folding and settling can do

Inversion lemmas for the steps that settle fields: two keys of one name become one
(`combine_eq_ok`), a field joins the one of its name or goes to the end (`absorb_eq_ok`), a level is
folded before the levels inside it (`settleLevels_succ_eq_ok`). Settled fields have distinct names
at every level (`distinct_settle`).
-/

namespace Stencil

open Outcome

namespace Key

/-- The key for two uses of one name: optional if both are, a list if one is. -/
def join (k l : Key) : Key :=
  { name := k.name, optional := k.optional && l.optional, array := k.array || l.array }

end Key

namespace Fields

variable {path : List String} {fs settled folded out : Fields} {f g both : Key × Shape}

def names (fs : Fields) : List String := fs.map fun f => f.1.name

theorem mem_names_iff {name : String} : name ∈ names fs ↔ ∃ f ∈ fs, f.1.name = name :=
  List.mem_map

/-- The items of a list that has a plain use too: an object describes them, a test adds nothing. -/
def fill (path : List String) (items plain : Shape) : Except Conflict Shape :=
  match plain with
  | .object fs => items.merge path (.object fs)
  | .leaf l =>
    if l.isAny || l.isBoolean then .ok items
    else .error (.shape path ("(" ++ items.describe ++ ")[]") (Shape.leaf l).describe)

/-- The shape for two uses of one name. -/
def together (path : List String) (f g : Key × Shape) : Except Conflict Shape :=
  if f.1.array = g.1.array then f.2.merge path g.2
  else if f.1.array then fill path f.2 g.2 else fill path g.2 f.2

theorem combine_eq (hn : f.1.name = g.1.name) :
    combine path f g = (do
      let s ← together path f g
      .ok (f.1.join g.1, s)) := by
  obtain ⟨⟨name, o, a⟩, s⟩ := f
  obtain ⟨⟨name', o', a'⟩, t⟩ := g
  cases hn
  cases a <;> cases a'
  · rfl
  · cases s with
    | object fs => rfl
    | leaf l =>
      show (if (l.isAny || l.isBoolean) = true then _ else _) =
        (if (l.isAny || l.isBoolean) = true then _ else _) >>= _
      split <;> rfl
  · cases t with
    | object fs => rfl
    | leaf l =>
      show (if (l.isAny || l.isBoolean) = true then _ else _) =
        (if (l.isAny || l.isBoolean) = true then _ else _) >>= _
      split <;> rfl
  · rfl

theorem combine_eq_ok (hn : f.1.name = g.1.name) :
    combine path f g = .ok both ↔ both.1 = f.1.join g.1 ∧ together path f g = .ok both.2 := by
  rw [combine_eq hn, bind_eq_ok]
  constructor
  · rintro ⟨s, hs, h⟩; cases h; exact ⟨rfl, hs⟩
  · rintro ⟨hk, hs⟩; exact ⟨both.2, hs, by rw [← hk]⟩

theorem merge_any (path : List String) (s : Shape) : s.merge path (.leaf .any) = .ok s := by
  cases s with
  | leaf l => cases l <;> rfl
  | object fs => rfl

theorem fill_eq_ok {items plain s : Shape} :
    fill path items plain = .ok s ↔
      (plain = .leaf .boolean ∧ s = items) ∨
      ((plain = .leaf .any ∨ ∃ fs, plain = .object fs) ∧ items.merge path plain = .ok s) := by
  have hany := merge_any path items
  cases plain with
  | object fs => simp [fill]
  | leaf l =>
    rw [fill, ite_eq_iff]
    simp only [Leaf.isAny, Leaf.isBoolean, Bool.or_eq_true, decide_eq_true_eq]
    constructor
    · rintro (⟨rfl | rfl, h⟩ | ⟨_, h⟩)
      · exact .inr ⟨.inl rfl, hany.trans h⟩
      · cases h; exact .inl ⟨rfl, rfl⟩
      · cases h
    · rintro (⟨h, rfl⟩ | ⟨h | ⟨_, h⟩, hs⟩)
      · cases h; exact .inl ⟨.inr rfl, rfl⟩
      · cases h; exact .inl ⟨.inl rfl, hany.symm.trans hs⟩
      · cases h

/-! ### One level -/

theorem absorb_cases (path : List String) (field : Key × Shape) (settled : Fields) :
    (∃ before first after, settled = before ++ first :: after ∧
      (∀ g ∈ before, g.1.name ≠ field.1.name) ∧ first.1.name = field.1.name ∧
      absorb path field settled = (do
        let both ← combine (path ++ [field.1.name]) first field
        .ok (before ++ both :: after))) ∨
    ((∀ g ∈ settled, g.1.name ≠ field.1.name) ∧
      absorb path field settled = .ok (settled ++ [field])) := by
  induction settled with
  | nil => exact .inr ⟨nofun, rfl⟩
  | cons first rest ih =>
    rw [absorb]
    split
    · rename_i hn
      exact .inl ⟨[], first, rest, rfl, nofun, hn, rfl⟩
    · rename_i hn
      rcases ih with ⟨before, first', after, rfl, hb, hf, h⟩ | ⟨hne, h⟩
      · refine .inl ⟨first :: before, first', after, rfl, List.forall_mem_cons.mpr ⟨hn, hb⟩, hf, ?_⟩
        rw [h]
        cases combine (path ++ [field.1.name]) first' field <;> rfl
      · exact .inr ⟨List.forall_mem_cons.mpr ⟨hn, hne⟩, by rw [h]; rfl⟩

theorem absorb_eq_ok {field : Key × Shape} (h : absorb path field settled = .ok out) :
    (∃ before first after both, settled = before ++ first :: after ∧
      (∀ g ∈ before, g.1.name ≠ field.1.name) ∧ first.1.name = field.1.name ∧
      combine (path ++ [field.1.name]) first field = .ok both ∧ out = before ++ both :: after) ∨
    ((∀ g ∈ settled, g.1.name ≠ field.1.name) ∧ out = settled ++ [field]) := by
  rcases absorb_cases path field settled with ⟨before, first, after, hs, hb, hf, heq⟩ | ⟨hne, heq⟩
  · obtain ⟨both, hboth, hout⟩ := bind_eq_ok.mp (heq.symm.trans h)
    cases hout
    exact .inl ⟨before, first, after, both, hs, hb, hf, hboth, rfl⟩
  · cases heq.symm.trans h
    exact .inr ⟨hne, rfl⟩

theorem names_absorb {field : Key × Shape} (h : absorb path field settled = .ok out) :
    names out = if field.1.name ∈ names settled then names settled
      else names settled ++ [field.1.name] := by
  rcases absorb_eq_ok h with ⟨before, first, after, both, rfl, _, hf, hb, rfl⟩ | ⟨hne, rfl⟩
  · have hboth : both.1.name = first.1.name := by rw [((combine_eq_ok hf).mp hb).1]; rfl
    have hmem : field.1.name ∈ names (before ++ first :: after) :=
      mem_names_iff.mpr ⟨first, by simp, hf⟩
    rw [if_pos hmem]
    simp [names, hboth]
  · have hmem : field.1.name ∉ names settled := fun hm => by
      obtain ⟨g, hg, hgn⟩ := mem_names_iff.mp hm
      exact hne g hg hgn
    rw [if_neg hmem]
    simp [names]

theorem nodup_names_absorb {field : Key × Shape} (hs : (names settled).Nodup)
    (h : absorb path field settled = .ok out) : (names out).Nodup := by
  rw [names_absorb h]
  split
  · exact hs
  · rename_i hm
    exact List.nodup_append.mpr ⟨hs, List.nodup_singleton _, by
      rintro a ha b hb rfl
      exact hm (List.mem_singleton.mp hb ▸ ha)⟩

theorem names_eq (fs : Fields) : names fs = fs.keys.map Key.name := List.map_map.symm

theorem nodup_names_fold (h : fold path fs = .ok folded) : (names folded).Nodup :=
  foldlM_invariant (motive := fun _ settled => (names settled).Nodup) h List.nodup_nil
    fun _ _ _ _ hs _ ha => nodup_names_absorb hs ha

theorem nodup_keys_fold (h : fold path fs = .ok folded) : folded.keys.Nodup := by
  have hnames := nodup_names_fold h
  rw [names_eq] at hnames
  exact hnames.of_map

section
variable {P : Shape → Prop} (hP : ∀ path s t m, P s → P t → Shape.merge path s t = .ok m → P m)
include hP

theorem together_keeps {s : Shape} (hf : P f.2) (hg : P g.2) (h : together path f g = .ok s) :
    P s := by
  unfold together at h
  split at h
  · exact hP _ _ _ _ hf hg h
  · split at h
    · rcases fill_eq_ok.mp h with ⟨_, rfl⟩ | ⟨_, h⟩
      · exact hf
      · exact hP _ _ _ _ hf hg h
    · rcases fill_eq_ok.mp h with ⟨_, rfl⟩ | ⟨_, h⟩
      · exact hg
      · exact hP _ _ _ _ hg hf h

theorem absorb_keeps {field : Key × Shape} (hs : ∀ f ∈ settled, P f.2) (hf : P field.2)
    (h : absorb path field settled = .ok out) : ∀ f ∈ out, P f.2 := by
  rcases absorb_eq_ok h with ⟨before, first, after, both, rfl, _, hn, hb, rfl⟩ | ⟨_, rfl⟩
  · have hboth := together_keeps hP (hs first (by simp)) hf ((combine_eq_ok hn).mp hb).2
    intro f hf
    rcases List.mem_append.mp hf with hf | hf
    · exact hs f (by simp [hf])
    · rcases List.mem_cons.mp hf with rfl | hf
      · exact hboth
      · exact hs f (by simp [hf])
  · intro g hg
    rcases List.mem_append.mp hg with hg | hg
    · exact hs g hg
    · exact List.mem_singleton.mp hg ▸ hf

theorem fold_keeps (hfs : ∀ f ∈ fs, P f.2) (h : fold path fs = .ok folded) :
    ∀ f ∈ folded, P f.2 :=
  foldlM_invariant (motive := fun _ settled => ∀ f ∈ settled, P f.2) h nofun
    fun _ _ _ _ hs hmem ha => absorb_keeps hP hs (hfs _ hmem) ha

end

theorem merge_unique : ∀ path (s t m : Shape), s.UniqueKeys → t.UniqueKeys →
    s.merge path t = .ok m → m.UniqueKeys :=
  fun _ _ _ _ hs ht h => (Shape.merge_above hs ht h).unique

/-! ### All levels -/

/-- A folded field and what becomes of it when `levels` levels inside it are settled. -/
inductive SettledAs (levels : Nat) (path : List String) : Key × Shape → Key × Shape → Prop
  | leaf (key : Key) (l : Leaf) : SettledAs levels path (key, .leaf l) (key, .leaf l)
  | object {key : Key} {inner settled : Fields}
      (h : settleLevels levels (path ++ [key.name]) inner = .ok settled) :
      SettledAs levels path (key, .object inner) (key, .object settled)

theorem SettledAs.key {levels : Nat} (h : SettledAs levels path f g) : g.1 = f.1 := by
  cases h <;> rfl

theorem keys_of_forall₂ {R : Key × Shape → Key × Shape → Prop} (hR : ∀ {f g}, R f g → g.1 = f.1)
    (h : List.Forall₂ R folded out) : out.keys = folded.keys := by
  induction h with
  | nil => rfl
  | cons hfg _ ih => exact congrArg₂ List.cons (hR hfg) ih

theorem names_of_settledAs {levels : Nat} (h : List.Forall₂ (SettledAs levels path) folded out) :
    names out = names folded := by
  rw [names_eq, names_eq, keys_of_forall₂ SettledAs.key h]

def settleField (levels : Nat) (path : List String) (f : Key × Shape) :
    Except Conflict (Key × Shape) :=
  match f.2 with
  | .leaf l => .ok (f.1, .leaf l)
  | .object inner => do
    let inner ← settleLevels levels (path ++ [f.1.name]) inner
    .ok (f.1, .object inner)

theorem settleLevels_succ (levels : Nat) (path : List String) (fs : Fields) :
    settleLevels (levels + 1) path fs = fold path fs >>= fun folded =>
      folded.mapM (settleField levels path) := rfl

theorem settleField_object (levels : Nat) (path : List String) (key : Key) (inner : Fields) :
    settleField levels path (key, .object inner) = (do
      let settled ← settleLevels levels (path ++ [key.name]) inner
      .ok (key, .object settled)) := rfl

theorem settleField_eq_ok {levels : Nat} :
    settleField levels path f = .ok g ↔ SettledAs levels path f g := by
  obtain ⟨key, shape⟩ := f
  cases shape with
  | leaf l =>
    constructor
    · intro h; cases h; exact .leaf key l
    · rintro ⟨⟩; rfl
  | object inner =>
    constructor
    · intro h
      obtain ⟨settled, hs, h⟩ := bind_eq_ok.mp h
      cases h
      exact .object hs
    · rintro ⟨⟩
      rename_i settled hs
      exact bind_eq_ok.mpr ⟨settled, hs, rfl⟩

theorem settleLevels_succ_eq_ok {levels : Nat} :
    settleLevels (levels + 1) path fs = .ok out ↔
      ∃ folded, fold path fs = .ok folded ∧ List.Forall₂ (SettledAs levels path) folded out := by
  rw [settleLevels_succ, bind_eq_ok]
  refine exists_congr fun folded => and_congr Iff.rfl ?_
  rw [mapM_eq_ok]
  exact ⟨fun h => h.imp fun _ _ => settleField_eq_ok.mp,
    fun h => h.imp fun _ _ => settleField_eq_ok.mpr⟩

/-! ### Every level is reached -/

theorem depthList_le_iff {n : Nat} : Shape.depthList fs ≤ n ↔ ∀ f ∈ fs, f.2.depth ≤ n := by
  induction fs with
  | nil => simp [Shape.depthList]
  | cons f fs ih => rw [Shape.depthList, Nat.max_le, ih, List.forall_mem_cons]

theorem mergeInto_keeps {P : Shape → Prop} {rest : List (Key × Shape)} {into m : Fields}
    (ih : ∀ f ∈ rest, ∀ path (p m : Shape), P p → P f.2 → p.merge path f.2 = .ok m → P m)
    (hi : ∀ f ∈ into, P f.2) (hr : ∀ f ∈ rest, P f.2)
    (h : Shape.mergeInto path into rest = .ok m) : ∀ f ∈ m, P f.2 := by
  induction rest generalizing into with
  | nil => cases h; exact hi
  | cons f rest ihr =>
    obtain ⟨s, hs, h⟩ := Shape.mergeInto_cons_eq_ok.mp h
    have hPs : P s := by
      rcases hs with ⟨p, hp, hs⟩ | ⟨_, rfl⟩
      · exact ih f (List.mem_cons_self ..) _ p s (hi _ (mem_of_get? hp))
          (hr f (List.mem_cons_self ..)) hs
      · exact hr f (List.mem_cons_self ..)
    refine ihr (fun g hg => ih g (List.mem_cons_of_mem _ hg)) ?_
      (fun g hg => hr g (List.mem_cons_of_mem _ hg)) h
    intro g hg
    rcases Entries.mem_put hg with rfl | hg
    · exact hPs
    · exact hi g hg

theorem depth_merge_le {n : Nat} {s t m : Shape} (hs : s.depth ≤ n) (ht : t.depth ≤ n)
    (h : s.merge path t = .ok m) : m.depth ≤ n := by
  induction t using Shape.fieldsInduction generalizing s m n path with
  | leaf l =>
    cases l with
    | any => rw [merge_any] at h; cases h; exact hs
    | oneOf b =>
      cases s with
      | object fs => cases h
      | leaf l =>
        cases l with
        | any => cases h; exact ht
        | oneOf a =>
          rw [Shape.merge] at h
          split at h
          · cases h; exact hs
          · cases h
  | object gs ih =>
    cases s with
    | leaf l =>
      cases l with
      | any => cases h; exact ht
      | oneOf a => cases h
    | object fs =>
      obtain ⟨ms, hms, rfl⟩ := Shape.merge_object_eq_ok.mp h
      cases n with
      | zero => simp [Shape.depth] at hs
      | succ n =>
        rw [Shape.depth, Nat.succ_le_succ_iff, depthList_le_iff] at hs ht ⊢
        exact mergeInto_keeps (fun f hf path p m hp hfn => ih f hf hp hfn) hs ht hms

theorem depth_fold_le {n : Nat} (h : fold path fs = .ok folded) (hfs : fs.depth ≤ n) :
    folded.depth ≤ n :=
  depthList_le_iff.mpr <|
    fold_keeps (fun _ _ _ _ hs ht => depth_merge_le hs ht) (depthList_le_iff.mp hfs) h

/-- With more levels than there are, no level is left with two keys of one name. -/
theorem distinct_settleLevels {levels : Nat} (hd : fs.depth < levels)
    (h : settleLevels levels path fs = .ok out) : (Shape.object out).Distinct Key.name := by
  induction levels generalizing path fs out with
  | zero => omega
  | succ levels ih =>
    obtain ⟨folded, hfold, hout⟩ := settleLevels_succ_eq_ok.mp h
    have hdepth := depthList_le_iff.mp (depth_fold_le hfold (Nat.le_of_lt_succ hd))
    refine .object ?_ fun g hg => ?_
    · rw [← names_eq, names_of_settledAs hout]
      exact nodup_names_fold hfold
    · obtain ⟨f, hf, hfg⟩ := exists_of_mem_right hout hg
      cases hfg with
      | leaf => exact .leaf _
      | object hs =>
        have hf : (Shape.object _).depth ≤ levels := hdepth _ hf
        rw [Shape.depth, Nat.add_one_le_iff] at hf
        exact ih hf hs

theorem distinct_settle (h : fs.settle = .ok out) : (Shape.object out).Distinct Key.name :=
  distinct_settleLevels (Nat.lt_succ_self _) h

end Fields

end Stencil
