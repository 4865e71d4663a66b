import Stencil.Proofs.Uses

/-!
# The inferred fields

The fields that inference finds are those that the tags name: they stand at the places that the
paths of the uses go through (`infer_paths`), and what each is marked with follows from the uses
that lead to its place, in whatever order and inside whatever blocks they come (`infer_marks`).
-/

namespace Stencil

open Outcome Fields

section
variable {Q : Marks → Prop} {around names path : List String} {n : Node} {ns : List Node} {u : Use}
variable {fs : Fields}

theorem distinct_infer (h : (infer ns).result = .ok fs) :
    (Shape.object fs).Distinct Key.name := by
  obtain ⟨_, _, -, -, hs⟩ := infer_eq_ok.mp h
  exact distinct_settle hs

/-! ### The places are those that the uses go through -/

theorem Use.asks_present (hne : names ≠ []) (ha : u.around = around)
    (hp : around ++ names <+: u.path) : u.Asks (fun _ => True) (around ++ names) := by
  subst ha
  exact asks_append_iff.mpr ⟨hne, (List.prefix_append_right_inj _).mp hp, trivial⟩

/-- A place on the way to a tag is passed by the tag or by a block around it. -/
theorem exists_asks_of_prefix (h : u ∈ n.uses around) (hr : u.tag.atRoot = false)
    (hne : names ≠ []) (hp : around ++ names <+: u.path) :
    ∃ v ∈ n.uses around, v.Asks (fun _ => True) (around ++ names) := by
  induction n using Node.contentInduction generalizing around names with
  | text | comment | reference | dot => cases h
  | var name raw type scope =>
    cases scope <;> cases List.mem_singleton.mp h
    · exact ⟨_, h, Use.asks_present hne rfl hp⟩
    · cases hr
  | inverted name content =>
    cases List.mem_singleton.mp h
    exact ⟨_, h, Use.asks_present hne rfl hp⟩
  | block name content optional ih =>
    rcases List.mem_cons.mp h with rfl | h
    · exact ⟨_, List.mem_cons_self .., Use.asks_present hne rfl hp⟩
    obtain ⟨m, hm, h⟩ := mem_usesAll_iff.mp h
    have hinner : around ++ name.segments <+: u.path := by
      rcases around_of_mem_uses h with ⟨hr', -⟩ | ⟨-, ha⟩
      · simp [hr] at hr'
      · exact ha.trans (List.prefix_append ..)
    by_cases hown : around ++ names <+: around ++ name.segments
    · exact ⟨_, List.mem_cons_self .., Use.asks_present hne rfl hown⟩
    · -- the place is inside the block
      obtain ⟨rest, hrest⟩ :=
        (List.prefix_or_prefix_of_prefix hp hinner).resolve_left hown
      rw [List.append_assoc] at hrest
      cases List.append_cancel_left hrest
      have hrest : rest ≠ [] := by
        rintro rfl
        simp at hown
      rw [← List.append_assoc] at hp ⊢
      obtain ⟨v, hv, hasks⟩ := ih m hm h hrest hp
      exact ⟨v, List.mem_cons_of_mem _ (mem_usesAll_iff.mpr ⟨m, hm, hv⟩), hasks⟩

/-- Paths of uses go through just the places that some use asks for. -/
theorem exists_asks_iff : (∃ u ∈ usesAll [] ns, u.Asks (fun _ => True) path) ↔
    path ≠ [] ∧ ∃ u ∈ usesAll [] ns, path <+: u.path := by
  constructor
  · rintro ⟨u, hu, names, ⟨hne, hp, rfl⟩, -⟩
    exact ⟨by simp [hne], u, hu, (List.prefix_append_right_inj _).mpr hp⟩
  · rintro ⟨hne, u, hu, hp⟩
    obtain ⟨n, hn, hun⟩ := mem_usesAll_iff.mp hu
    rcases around_of_mem_uses hun with ⟨-, ha⟩ | ⟨hr, -⟩
    · rw [Use.path, ha] at hp
      exact ⟨u, hu, path, ⟨hne, hp, by rw [ha]; rfl⟩, trivial⟩
    · obtain ⟨v, hv, hasks⟩ := exists_asks_of_prefix hun hr hne hp
      exact ⟨v, mem_usesAll_iff.mpr ⟨n, hn, hv⟩, hasks⟩

/-- Where an object is asked for, a path of a use goes on. -/
theorem exists_longer_of_asks_object (hu : u ∈ usesAll [] ns)
    (h : u.Asks (fun m => m.leaf = none) path) :
    ∃ v ∈ usesAll [] ns, path <+: v.path ∧ path ≠ v.path := by
  obtain ⟨names, ⟨-, hp, rfl⟩, hobject⟩ := h
  by_cases hown : names = u.name.segments
  · -- the tag ends here, so it is a block with fields of its own
    rw [if_pos hown] at hobject
    have hblock : ∃ content optional, u.tag = .block content optional ∧
        content.any Node.isLocal = true := by
      cases ht : u.tag with
      | var | inverted => rw [ht] at hobject; cases hobject
      | block content optional =>
        rw [ht] at hobject
        simp only [Tag.marks, Tag.leaf] at hobject
        split at hobject
        · rename_i hany
          exact ⟨content, optional, rfl, hany⟩
        · split at hobject <;> cases hobject
    obtain ⟨content, optional, ht, hany⟩ := hblock
    obtain ⟨v, hv, hr⟩ := (exists_local_use_iff u.path content).mpr hany
    obtain ⟨n, hn, hun⟩ := mem_usesAll_iff.mp hu
    have hlonger : u.path <+: v.around := by
      obtain ⟨m, -, hvm⟩ := mem_usesAll_iff.mp hv
      exact (around_of_mem_uses hvm).elim (fun hroot => by simp [hr] at hroot) And.right
    refine ⟨v, mem_usesAll_iff.mpr ⟨n, hn, mem_uses_of_mem_content hun ht hv⟩, ?_, ?_⟩
    · rw [hown]
      exact hlonger.trans (List.prefix_append ..)
    · obtain ⟨between, hbetween⟩ := hlonger
      rw [hown, Use.path, ← hbetween]
      simp [Use.path, v.name.segments_ne_nil]
  · exact ⟨u, hu, (List.prefix_append_right_inj _).mpr hp,
      fun heq => hown (List.append_cancel_left heq)⟩

/-- The inferred fields stand at the places that the paths of the uses go through. Those with places
behind them, and no others, are objects; none of the objects is empty. -/
theorem infer_paths (h : (infer ns).result = .ok fs) :
    (∀ path, (∃ g, (Shape.object fs).At path g) ↔
      path ≠ [] ∧ ∃ u ∈ usesAll [] ns, path <+: u.path) ∧
    ∀ path key shape, (Shape.object fs).At path (key, shape) →
      ((∃ inner, shape = .object inner) ↔
        ∃ longer, (∃ g, (Shape.object fs).At longer g) ∧ path <+: longer ∧ path ≠ longer) ∧
      shape ≠ .object [] := by
  have hpaths : ∀ path, (∃ g, (Shape.object fs).At path g) ↔
      path ≠ [] ∧ ∃ u ∈ usesAll [] ns, path <+: u.path := fun path => by
    rw [← exists_asks_iff, ← has_infer Sums.present h]
    simp [Shape.Has]
  refine ⟨hpaths, fun path key shape hat => ?_⟩
  have hdistinct := distinct_infer h
  have hlonger : shape.leaf? = none →
      ∃ longer, (∃ g, (Shape.object fs).At longer g) ∧ path <+: longer ∧ path ≠ longer := by
    intro hobject
    have hhas : (Shape.object fs).Has (fun m => m.leaf = none) path := ⟨_, hat, hobject⟩
    obtain ⟨u, hu, hasks⟩ := (has_infer Sums.object h).mp hhas
    obtain ⟨v, hv, hp, hne⟩ := exists_longer_of_asks_object hu hasks
    exact ⟨v.path, (hpaths _).mpr ⟨by simp [Use.path, v.name.segments_ne_nil], v, hv,
      List.prefix_rfl⟩, hp, hne⟩
  have hinside : (∃ longer, (∃ g, (Shape.object fs).At longer g) ∧ path <+: longer ∧
      path ≠ longer) → ∃ rest g, shape.At rest g := by
    rintro ⟨_, ⟨g, hg⟩, ⟨rest, rfl⟩, hne⟩
    obtain ⟨f, hf, hrest⟩ := hg.of_append (fun hnil => Shape.not_at_nil (hnil ▸ hat))
      (fun hnil => hne (by simp [hnil]))
    cases hat.unique hdistinct hf
    exact ⟨rest, g, hrest⟩
  have hempty : shape ≠ .object [] := by
    rintro rfl
    obtain ⟨rest, g, hg⟩ := hinside (hlonger rfl)
    exact Shape.not_has_empty (Q := fun _ => True) ⟨g, hg, trivial⟩
  refine ⟨⟨?_, fun hl => ?_⟩, hempty⟩
  · rintro ⟨inner, rfl⟩
    exact hlonger rfl
  · obtain ⟨rest, g, hg⟩ := hinside hl
    cases shape with
    | leaf l => exact absurd ⟨g, hg, trivial⟩ (Shape.not_has_leaf (Q := fun _ => True))
    | object inner => exact ⟨inner, rfl⟩

/-- What a block asks for from the root is outside it; what an inverted block holds is nowhere. -/
theorem infer_paths_user :
    let user : Path := ⟨["user"], by simp⟩
    let city : Path := ⟨["address", "city"], by simp⟩
    let title : Path := ⟨["title"], by simp⟩
    let login : Path := ⟨["login"], by simp⟩
    let ns : List Node :=
      [.block user [.var city false none .context, .var title false none .root] true,
        .inverted ⟨["guest"], by simp⟩ [.var login false none .context]]
    let fs : Fields :=
      [({ name := "user", optional := true }, .object
          [({ name := "address" }, .object [({ name := "city" }, .leaf .any)])]),
        ({ name := "guest" }, .leaf .boolean), ({ name := "title" }, .leaf .any)]
    (infer ns).result = .ok fs ∧ (∃ g, (Shape.object fs).At ["user", "address"] g) ∧
      (∃ g, (Shape.object fs).At ["title"] g) ∧ ¬ ∃ g, (Shape.object fs).At ["login"] g := by
  intro user city title login ns fs
  have h : (infer ns).result = .ok fs := rfl
  obtain ⟨hpaths, -⟩ := infer_paths h
  refine ⟨h, (hpaths _).mpr ⟨by simp, ?_⟩, (hpaths _).mpr ⟨by simp, ?_⟩, fun hg => ?_⟩
  · simp [ns, usesAll, Node.uses, Use.path, user, city]
  · simp [ns, usesAll, Node.uses, Use.path, title]
  · simpa [ns, usesAll, Node.uses, Use.path, user, city, title] using ((hpaths _).mp hg).2

/-! ### What the fields are marked with -/

namespace Tag

/-- The types that the tag asks for, if it says; a tag that only tests asks for a boolean. -/
def types? : Tag → Option (List String)
  | var (some type) _ => if type.alternatives = [] then none else some type.alternatives
  | var none _ => none
  | block content _ =>
    if content.any Node.isLocal ∨ content.any Node.isDot then none else some ["boolean"]
  | inverted => some ["boolean"]

theorem leaf_eq_oneOf_iff {t : Tag} {types : NameSet} :
    t.leaf = some (.oneOf types) ↔
      ∃ names, t.types? = some names ∧ Leaf.of names = .oneOf types := by
  cases t with
  | var type scope =>
    cases type with
    | none => simp [leaf, types?]
    | some type =>
      by_cases hnil : type.alternatives = []
      · simp [leaf, types?, hnil, Leaf.of_eq_any_iff.mpr]
      · simp [leaf, types?, hnil]
  | block content optional =>
    by_cases hlocal : content.any Node.isLocal = true
    · simp [leaf, types?, hlocal]
    · by_cases hdot : content.any Node.isDot = true
      · simp [leaf, types?, hlocal, hdot]
      · simp [leaf, types?, hlocal, hdot, Leaf.boolean]
  | inverted => simp [leaf, types?, Leaf.boolean]

theorem exists_oneOf_of_types? {t : Tag} (h : t.types? = some names) :
    ∃ types, Leaf.of names = .oneOf types := by
  have hne : names ≠ [] := by
    rintro rfl
    cases t with
    | var type scope => cases type <;> simp_all [types?]
    | block content optional => simp [types?] at h
    | inverted => cases h
  cases ht : Leaf.of names with
  | any => exact absurd (Leaf.of_eq_any_iff.mp ht) hne
  | oneOf types => exact ⟨types, rfl⟩

theorem leaf_ne_oneOf_of_isList {t : Tag} {types : NameSet} (h : t.isList = true) :
    t.leaf ≠ some (.oneOf types) := by
  cases t with
  | var | inverted => cases h
  | block content optional =>
    have hdot : content.any Node.isDot = true := h
    by_cases hlocal : content.any Node.isLocal = true <;> simp [leaf, hlocal, hdot]

end Tag

theorem Use.asks_iff_of_not_passed (hQ : ¬ Q passed) :
    u.Asks Q path ↔ u.path = path ∧ Q u.tag.marks := by
  constructor
  · rintro ⟨names, ⟨-, -, rfl⟩, h⟩
    split at h
    · rename_i hn
      exact ⟨by rw [hn]; rfl, h⟩
    · exact absurd h hQ
  · rintro ⟨rfl, h⟩
    exact ⟨u.name.segments, ⟨u.name.segments_ne_nil, List.prefix_rfl, rfl⟩, by rwa [if_pos rfl]⟩

theorem marks_infer (hQ : Sums Q) (h : (infer ns).result = .ok fs) {g : Key × Shape}
    (hat : (Shape.object fs).At path g) : Q (marks g) ↔ ∃ u ∈ usesAll [] ns, u.Asks Q path :=
  (hat.has_iff (distinct_infer h)).symm.trans (has_infer hQ h)

section
variable {key : Key} {shape : Shape} {l : Leaf} {types : NameSet}

theorem optional_infer (h : (infer ns).result = .ok fs)
    (hat : (Shape.object fs).At path (key, shape)) :
    key.optional = true ↔ ∀ u ∈ usesAll [] ns, ∀ names, u.LeadsTo names path →
      names = u.name.segments ∧ u.tag.optional = true := by
  have hrequired := (marks_infer Sums.required h hat).not
  rw [Bool.not_eq_false] at hrequired
  refine hrequired.trans ⟨fun hnone u hu names hn => ?_, ?_⟩
  · by_contra hmarked
    refine hnone ⟨u, hu, names, hn, ?_⟩
    split
    · rename_i hown
      exact Bool.eq_false_iff.mpr fun ho => hmarked ⟨hown, ho⟩
    · rfl
  · rintro hall ⟨u, hu, names, hn, ho⟩
    obtain ⟨hown, hoptional⟩ := hall u hu names hn
    rw [if_pos hown] at ho
    exact Bool.false_ne_true (ho.symm.trans hoptional)

theorem array_infer (h : (infer ns).result = .ok fs)
    (hat : (Shape.object fs).At path (key, shape)) :
    key.array = true ↔ ∃ u ∈ usesAll [] ns, u.path = path ∧ u.tag.isList = true := by
  refine (marks_infer Sums.list h hat).trans ?_
  simp only [Use.asks_iff_of_not_passed (Q := fun m => m.array = true) nofun]
  rfl

theorem any_of_array_infer (h : (infer ns).result = .ok fs)
    (hat : (Shape.object fs).At path (key, .leaf l)) (ha : key.array = true) : l = .any := by
  cases l with
  | any => rfl
  | oneOf types =>
    obtain ⟨u, -, hasks⟩ := (marks_infer (Sums.typedList types) h hat).mp ⟨ha, rfl⟩
    obtain ⟨-, hlist, hleaf⟩ := (Use.asks_iff_of_not_passed nofun).mp hasks
    exact absurd hleaf (u.tag.leaf_ne_oneOf_of_isList hlist)

theorem oneOf_infer (h : (infer ns).result = .ok fs)
    (hat : (Shape.object fs).At path (key, .leaf l)) (ha : key.array = false) :
    l = .oneOf types ↔
      ∃ u ∈ usesAll [] ns, u.path = path ∧ u.tag.leaf = some (.oneOf types) := by
  have hmarks := marks_infer (Sums.typed types) h hat
  have hasks : ∀ u : Use, u.Asks (fun m => m.array = true ∨ m.leaf = some (.oneOf types)) path ↔
      u.path = path ∧ (u.tag.isList = true ∨ u.tag.leaf = some (.oneOf types)) := fun u =>
    Use.asks_iff_of_not_passed (by simp [Use.passed])
  constructor
  · rintro rfl
    obtain ⟨u, hu, hu'⟩ := hmarks.mp (.inr rfl)
    obtain ⟨hp, hlist | hleaf⟩ := (hasks u).mp hu'
    · exact absurd ((array_infer h hat).mpr ⟨u, hu, hp, hlist⟩) (Bool.eq_false_iff.mp ha)
    · exact ⟨u, hu, hp, hleaf⟩
  · rintro ⟨u, hu, hp, hleaf⟩
    rcases hmarks.mpr ⟨u, hu, (hasks u).mpr ⟨hp, .inr hleaf⟩⟩ with hlist | hl
    · exact absurd hlist (Bool.eq_false_iff.mp ha)
    · exact Option.some.inj hl

/-- What a field is marked with follows from the uses that lead to its place. It is optional if all
of them end there and are optional, a list if one is a block that prints its items. The leaf of a
list is open; another leaf has the types that each use asks for that ends there and says any. -/
theorem infer_marks (h : (infer ns).result = .ok fs)
    (hat : (Shape.object fs).At path (key, shape)) :
    (key.optional = true ↔ ∀ u ∈ usesAll [] ns, ∀ names, u.LeadsTo names path →
      names = u.name.segments ∧ u.tag.optional = true) ∧
    (key.array = true ↔ ∃ u ∈ usesAll [] ns, u.path = path ∧ u.tag.isList = true) ∧
    ∀ l, shape = .leaf l →
      (key.array = true → l = .any) ∧
      (key.array = false →
        (l = .any ↔ ∀ u ∈ usesAll [] ns, u.path = path → u.tag.types? = none) ∧
        ∀ u ∈ usesAll [] ns, u.path = path → ∀ names, u.tag.types? = some names →
          l = .of names) := by
  refine ⟨optional_infer h hat, array_infer h hat, ?_⟩
  rintro l rfl
  refine ⟨any_of_array_infer h hat, fun ha => ?_⟩
  have hgiven : ∀ u ∈ usesAll [] ns, u.path = path → ∀ names, u.tag.types? = some names →
      l = .of names := fun u hu hp names hn => by
    obtain ⟨types, ht⟩ := Tag.exists_oneOf_of_types? hn
    rw [ht]
    exact (oneOf_infer h hat ha).mpr ⟨u, hu, hp, Tag.leaf_eq_oneOf_iff.mpr ⟨names, hn, ht⟩⟩
  refine ⟨⟨fun hany u hu hp => ?_, fun hnone => ?_⟩, hgiven⟩
  · refine Option.eq_none_iff_forall_ne_some.mpr fun names hn => ?_
    obtain ⟨types, ht⟩ := Tag.exists_oneOf_of_types? hn
    cases hany.symm.trans ((hgiven u hu hp names hn).trans ht)
  · cases l with
    | any => rfl
    | oneOf types =>
      obtain ⟨u, hu, hp, hleaf⟩ := (oneOf_infer h hat ha).mp rfl
      obtain ⟨names, hn, -⟩ := Tag.leaf_eq_oneOf_iff.mp hleaf
      cases (hnone u hu hp).symm.trans hn

/-- An age that is never required but once given a type, inside a user that is once required. -/
theorem infer_marks_age :
    let user : Path := ⟨["user"], by simp⟩
    let age : Path := ⟨["age"], by simp⟩
    let tag : ValueType → Node := fun type => .var age false (some type) .context
    let ns : List Node :=
      [.block user [tag ⟨[], true⟩] true, .block user [tag ⟨["number"], true⟩] false]
    let number : Key × Shape := ({ name := "age", optional := true }, .leaf (.of ["number"]))
    let outer : Key × Shape := ({ name := "user" }, .object [number])
    let fs : Fields := [outer]
    (infer ns).result = .ok fs ∧
      (∀ u ∈ usesAll [] ns, ∀ names, u.LeadsTo names ["user", "age"] →
        names = u.name.segments ∧ u.tag.optional = true) ∧
      ¬ (∀ u ∈ usesAll [] ns, ∀ names, u.LeadsTo names ["user"] →
        names = u.name.segments ∧ u.tag.optional = true) ∧
      ¬ ∀ u ∈ usesAll [] ns, u.path = ["user", "age"] → u.tag.types? = none := by
  intro user age tag ns number outer fs
  have h : (infer ns).result = .ok fs := rfl
  have huser : (Shape.object fs).At ["user"] outer := .last (g := outer) (List.mem_cons_self ..)
  have hage : (Shape.object fs).At ["user", "age"] number :=
    huser.append (.last (g := number) (List.mem_cons_self ..))
  obtain ⟨hoptional, -⟩ := infer_marks h huser
  obtain ⟨hoptional', -, hleaf⟩ := infer_marks h hage
  refine ⟨h, hoptional'.mp rfl, fun hall => ?_, fun hnone => ?_⟩
  · cases hoptional.mpr hall
  · cases ((hleaf _ rfl).2 rfl).1.mpr hnone

end

end

end Stencil
