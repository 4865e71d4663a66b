import Stencil.Proofs.Coverage
import Stencil.Proofs.Inferred
import Stencil.Proofs.Words

/-!
# Declarations are unambiguous

A declaration can be read back: fields whose names and types are words are told apart by their
declarations (`Fields.declaration_inj`). A printed type ends before the semicolon of its line and
the lines of an object before its closing brace, so each can be cancelled from a text that goes on
behind it.
-/

namespace Stencil

/-! ### Cancelling from the front of a text -/

/-- What lies before the first character that fails the test can be cancelled. -/
theorem Text.append_cons_inj {test : Char → Bool} {cs ds x y : List Char} {a b : Char}
    (hcs : ∀ c ∈ cs, test c = true) (hds : ∀ c ∈ ds, test c = true) (ha : test a = false)
    (hb : test b = false) (h : cs ++ a :: x = ds ++ b :: y) : cs = ds ∧ a = b ∧ x = y := by
  have htake := congrArg (List.takeWhile test) h
  have hdrop := congrArg (List.dropWhile test) h
  rw [List.takeWhile_append_of_pos hcs, List.takeWhile_append_of_pos hds,
    List.takeWhile_cons_of_neg (by simp [ha]), List.takeWhile_cons_of_neg (by simp [hb])] at htake
  rw [List.dropWhile_append_of_pos hcs, List.dropWhile_append_of_pos hds,
    List.dropWhile_cons_of_neg (by simp [ha]), List.dropWhile_cons_of_neg (by simp [hb])] at hdrop
  exact ⟨by simpa using htake, List.cons.inj hdrop⟩

theorem Text.filter_intercalate (test : Char → Bool) (sep : List Char) :
    ∀ parts : List (List Char), (sep.intercalate parts).filter test =
      (sep.filter test).intercalate (parts.map (List.filter test))
  | [] => rfl
  | [part] => by simp
  | part :: next :: parts => by
    rw [List.intercalate_cons_cons, List.filter_append, List.filter_append,
      filter_intercalate test sep (next :: parts), List.map_cons, List.map_cons, List.map_cons,
      List.intercalate_cons_cons]

/-! ### Shapes in words -/

/-- All names of fields and types are words, and no object has two fields of one name. -/
inductive Shape.Legible : Shape → Prop
  | any : Legible (.leaf .any)
  | oneOf {types : NameSet} (words : ∀ n ∈ types.names, Parser.IsWord n) :
      Legible (.leaf (.oneOf types))
  | object {fs : Fields} (words : ∀ f ∈ fs, Parser.IsWord f.1.name)
      (distinct : (Fields.names fs).Nodup) (fields : ∀ f ∈ fs, Legible f.2) : Legible (.object fs)

theorem Shape.Legible.of_mem {fs : Fields} {f : Key × Shape} (h : (Shape.object fs).Legible)
    (hf : f ∈ fs) : f.2.Legible := by
  cases h with | object _ _ fields => exact fields f hf

namespace Leaf

variable {l l' : Leaf}

theorem isWord_of_mem_names (h : (Shape.leaf l).Legible) : ∀ n ∈ l.names, Parser.IsWord n := by
  cases h with
  | any => decide
  | oneOf words => exact words

theorem names_inj (h : l.names = l'.names) : l = l' := by
  -- the names of an open leaf are not in ascending order
  have hany : ∀ types : NameSet, any.names ≠ types.names := fun types h => by
    have hascending := types.ascending
    rw [← h] at hascending
    exact absurd hascending (by decide)
  cases l with
  | any =>
    cases l' with
    | any => rfl
    | oneOf types => exact absurd h (hany types)
  | oneOf types =>
    cases l' with
    | any => exact absurd h.symm (hany types)
    | oneOf types' => exact congrArg oneOf (NameSet.ext_names h)

theorem names_ne_nil (l : Leaf) : l.names ≠ [] := by
  cases l with
  | any => exact List.cons_ne_nil _ _
  | oneOf types => exact types.names_ne_nil

theorem filter_toString (test : Char → Bool) (hl : (Shape.leaf l).Legible)
    (htest : ∀ c, Parser.isWordChar c = true → test c = true) :
    l.toString.toList.filter test =
      (" | ".toList.filter test).intercalate (l.names.map String.toList) := by
  have hnames : (l.names.map String.toList).map (List.filter test) = l.names.map String.toList := by
    rw [List.map_map]
    refine List.map_congr_left fun n hn => List.filter_eq_self.mpr fun c hc => ?_
    exact htest c ((isWord_of_mem_names hl n hn).2 c hc)
  rw [Leaf.toString, String.toList_intercalate, Text.filter_intercalate, hnames]

/-- The characters between the brackets of a list. -/
def isUnionChar (c : Char) : Bool := Parser.isWordChar c || c == ' ' || c == '|'

theorem isUnionChar_of_mem (hl : (Shape.leaf l).Legible) :
    ∀ c ∈ l.toString.toList, isUnionChar c = true := by
  have htest : ∀ c, Parser.isWordChar c = true → isUnionChar c = true := fun c hc => by
    simp [isUnionChar, hc]
  rw [← List.filter_eq_self, filter_toString isUnionChar hl htest, Leaf.toString,
    String.toList_intercalate]
  rfl

theorem toString_inj (hl : (Shape.leaf l).Legible) (hl' : (Shape.leaf l').Legible)
    (h : l.toString = l'.toString) : l = l' := by
  -- without its blanks, a union is its names with bars between them
  have hread : ∀ {l : Leaf}, (Shape.leaf l).Legible →
      (l.toString.toList.filter (· ≠ ' ')).splitOn '|' = l.names.map String.toList := by
    intro l hl
    rw [filter_toString _ hl (fun c hc => by simp; rintro rfl; exact absurd hc (by decide))]
    refine List.splitOn_intercalate '|' ?_ (by simpa using l.names_ne_nil)
    intro cs hcs hbar
    obtain ⟨n, hn, rfl⟩ := List.mem_map.mp hcs
    exact absurd ((isWord_of_mem_names hl n hn).2 '|' hbar) (by decide)
  have hnames := hread hl
  rw [h, hread hl'] at hnames
  exact names_inj ((List.map_inj_right fun _ _ => String.toList_inj.mp).mp hnames.symm)

end Leaf

namespace Declaration

variable {o : Options} {d : Nat} {a b : Bool} {x y : List Char}

/-! ### Types of leaves -/

section
variable {l l' : Leaf}

theorem filter_leafType (hl : (Shape.leaf l).Legible) :
    (leafType l a).toList.filter Leaf.isUnionChar = l.toString.toList := by
  have hunion := List.filter_eq_self.mpr (Leaf.isUnionChar_of_mem hl)
  have hbrackets : "()[]".toList.filter Leaf.isUnionChar = [] := by decide
  unfold leafType
  split
  · split <;> simp_all
  · exact hunion

theorem bracket_mem_leafType (hl : (Shape.leaf l).Legible) :
    '[' ∈ (leafType l a).toList ↔ a = true := by
  have hunion : '[' ∉ l.toString.toList := fun h =>
    absurd (Leaf.isUnionChar_of_mem hl _ h) (by decide)
  unfold leafType
  split
  · split <;> simp_all
  · simp_all

theorem leafType_inj (hl : (Shape.leaf l).Legible) (hl' : (Shape.leaf l').Legible)
    (h : leafType l a = leafType l' b) : a = b ∧ l = l' := by
  refine ⟨Bool.eq_iff_iff.mpr ?_, Leaf.toString_inj hl hl' (String.toList_inj.mp ?_)⟩
  · rw [← bracket_mem_leafType hl, h, bracket_mem_leafType hl']
  · rw [← filter_leafType hl, h, filter_leafType hl']

def isTypeChar (c : Char) : Bool := Leaf.isUnionChar c || "()[]".toList.contains c

theorem isTypeChar_of_mem (hl : (Shape.leaf l).Legible) :
    ∀ c ∈ (leafType l a).toList, isTypeChar c = true := by
  have hunion : ∀ c ∈ l.toString.toList, isTypeChar c = true := fun c hc => by
    simp [isTypeChar, Leaf.isUnionChar_of_mem hl c hc]
  unfold leafType
  split
  · split
    · simpa [or_imp, forall_and] using ⟨hunion, by decide⟩
    · simpa [or_imp, forall_and] using ⟨by decide, hunion, by decide⟩
  · exact hunion

end

/-! ### Names of fields -/

theorem filter_fieldName {name : String} (h : Parser.IsWord name) :
    (fieldName name).toList.filter Parser.isWordChar = name.toList := by
  have hword := List.filter_eq_self.mpr h.2
  have hquote : Parser.isWordChar '"' = false := by decide
  unfold fieldName
  split
  · split
    · simp [hquote, hword]
    · exact hword
  · exact hword

def isNameChar (c : Char) : Bool := Parser.isWordChar c || c == '"'

theorem isNameChar_of_mem {name : String} (h : Parser.IsWord name) :
    ∀ c ∈ (fieldName name).toList, isNameChar c = true := by
  have hword : ∀ c ∈ name.toList, isNameChar c = true := fun c hc => by
    simp [isNameChar, h.2 c hc]
  unfold fieldName
  split
  · split
    · simpa [or_imp, forall_and] using ⟨by decide, hword, by decide⟩
    · exact hword
  · exact hword

/-- A written name is followed by a question mark or a colon. -/
theorem fieldName_append_inj {name name' : String} (h : Parser.IsWord name)
    (h' : Parser.IsWord name') {e e' : Char} (he : isNameChar e = false)
    (he' : isNameChar e' = false)
    (heq : (fieldName name).toList ++ e :: x = (fieldName name').toList ++ e' :: y) :
    name = name' ∧ e = e' ∧ x = y := by
  obtain ⟨hname, hrest⟩ :=
    Text.append_cons_inj (isNameChar_of_mem h) (isNameChar_of_mem h') he he' heq
  refine ⟨String.toList_inj.mp ?_, hrest⟩
  rw [← filter_fieldName h, hname, filter_fieldName h']

theorem isHidden_of_mem {fs : Fields} {f : Key × Shape} (h : (Fields.names fs).Nodup)
    (hf : f ∈ fs) : isHidden fs f.1 = false := by
  have hsame : ∀ g ∈ fs, g.1.name = f.1.name → g = f := fun g hg hn =>
    List.inj_on_of_nodup_map h hg hf hn
  by_contra hhidden
  simp only [isHidden, Bool.not_eq_false, Bool.and_eq_true, List.any_eq_true, decide_eq_true_eq,
    Bool.not_eq_true'] at hhidden
  obtain ⟨hoptional, g, hg, hn, hrequired⟩ := hhidden
  rw [hsame g hg hn, hoptional] at hrequired
  cases hrequired

/-! ### Objects -/

/-- What closes the type of a field. -/
def suffix (array : Bool) : List Char := if array then ['[', ']'] else []

theorem suffix_append_inj (h : suffix a ++ ';' :: x = suffix b ++ ';' :: y) : a = b ∧ x = y := by
  cases a <;> cases b <;> simp_all [suffix]

theorem toList_shapeType_nil :
    (shapeType o d a (.object [])).toList = '{' :: '}' :: suffix a := by
  cases a <;> simp [shapeType, suffix]

theorem toList_shapeType_cons {f : Key × Shape} {fs : Fields} :
    (shapeType o d a (.object (f :: fs))).toList =
      '{' :: '\n' :: ((fieldLines o (d + 1) (f :: fs) (f :: fs)).toList ++
        ((o.margin d).toList ++ '}' :: suffix a)) := by
  cases a <;> simp [shapeType, suffix]

/-- The characters between the name of a field and its type. -/
def mark (optional : Bool) : List Char := if optional then ['?', ':', ' '] else [':', ' ']

theorem fieldLines_nil_append {siblings : Fields} :
    (fieldLines o d siblings []).toList ++ x = x := by
  rw [fieldLines, String.toList_empty, List.nil_append]

theorem fieldLines_cons_append {siblings rest : Fields} {f : Key × Shape}
    (h : isHidden siblings f.1 = false) : (fieldLines o d siblings (f :: rest)).toList ++ x =
      (o.margin d).toList ++ ((fieldName f.1.name).toList ++ (mark f.1.optional ++
        ((shapeType o d f.1.array f.2).toList ++
          ';' :: '\n' :: ((fieldLines o d siblings rest).toList ++ x)))) := by
  cases ho : f.1.optional <;> simp [fieldLines, h, mark, ho]

theorem mark_append_inj {f g : Key × Shape} (hf : Parser.IsWord f.1.name)
    (hg : Parser.IsWord g.1.name)
    (h : (fieldName f.1.name).toList ++ (mark f.1.optional ++ x) =
      (fieldName g.1.name).toList ++ (mark g.1.optional ++ y)) :
    f.1.name = g.1.name ∧ f.1.optional = g.1.optional ∧ x = y := by
  have hquestion : isNameChar '?' = false := by decide
  have hcolon : isNameChar ':' = false := by decide
  cases hfo : f.1.optional <;> cases hgo : g.1.optional <;> rw [hfo, hgo] at h
  · obtain ⟨hn, -, hxy⟩ := fieldName_append_inj hf hg hcolon hcolon h
    exact ⟨hn, rfl, List.append_cancel_left hxy⟩
  · obtain ⟨-, he, -⟩ := fieldName_append_inj hf hg hcolon hquestion h
    exact absurd he (by decide)
  · obtain ⟨-, he, -⟩ := fieldName_append_inj hf hg hquestion hcolon h
    exact absurd he (by decide)
  · obtain ⟨hn, -, hxy⟩ := fieldName_append_inj hf hg hquestion hquestion h
    exact ⟨hn, rfl, List.append_cancel_left hxy⟩

/-- Behind the margin, a closing brace is not the name of a field. -/
theorem margin_brace_ne {e : Nat} {name : String} (h : Parser.IsWord name) :
    (o.margin d).toList ++ '}' :: x ≠ (o.margin e).toList ++ ((fieldName name).toList ++ y) := by
  have hblank : ∀ n, ∀ c ∈ (o.margin n).toList, (c == ' ') = true := fun n c hc => by
    rw [Options.margin, String.toList_ofList] at hc
    simp [List.eq_of_mem_replicate hc]
  have hchars := isNameChar_of_mem h
  cases hn : (fieldName name).toList with
  | nil =>
    have hname := filter_fieldName h
    rw [hn] at hname
    exact absurd (String.toList_eq_nil_iff.mp hname.symm) h.1
  | cons c cs =>
    have hc := hchars c (hn ▸ List.mem_cons_self ..)
    intro heq
    obtain ⟨-, rfl, -⟩ := Text.append_cons_inj (hblank d) (hblank e) (by decide)
      (beq_eq_false_iff_ne.mpr fun h => absurd hc (by rw [h]; decide)) heq
    exact absurd hc (by decide)

/-- A printed type of the shape can be cancelled where a semicolon follows. -/
def Cancels (o : Options) (s : Shape) : Prop :=
  ∀ {d : Nat} {a b : Bool} {t : Shape} {x y : List Char}, t.Legible →
    (shapeType o d a s).toList ++ ';' :: x = (shapeType o d b t).toList ++ ';' :: y →
      a = b ∧ s = t ∧ x = y

theorem fieldLines_append_inj {e : Nat} {siblings siblings' fs gs : Fields}
    (hfs : ∀ f ∈ fs, Parser.IsWord f.1.name ∧ isHidden siblings f.1 = false ∧ Cancels o f.2)
    (hgs : ∀ g ∈ gs, Parser.IsWord g.1.name ∧ isHidden siblings' g.1 = false ∧ g.2.Legible)
    (h : (fieldLines o d siblings fs).toList ++ ((o.margin e).toList ++ '}' :: x) =
      (fieldLines o d siblings' gs).toList ++ ((o.margin e).toList ++ '}' :: y)) :
    fs = gs ∧ x = y := by
  induction fs generalizing gs with
  | nil =>
    rw [fieldLines_nil_append] at h
    cases gs with
    | nil =>
      rw [fieldLines_nil_append] at h
      exact ⟨rfl, (List.cons.inj (List.append_cancel_left h)).2⟩
    | cons g gs =>
      obtain ⟨hword, hshown, -⟩ := hgs g (List.mem_cons_self ..)
      rw [fieldLines_cons_append hshown] at h
      exact absurd h (margin_brace_ne hword)
  | cons f fs ih =>
    obtain ⟨⟨hword, hshown, hcancels⟩, hfs⟩ := List.forall_mem_cons.mp hfs
    rw [fieldLines_cons_append hshown] at h
    cases gs with
    | nil =>
      rw [fieldLines_nil_append] at h
      exact absurd h.symm (margin_brace_ne hword)
    | cons g gs =>
      obtain ⟨⟨hword', hshown', hlegible⟩, hgs⟩ := List.forall_mem_cons.mp hgs
      rw [fieldLines_cons_append hshown'] at h
      -- both lines have the same margin; name, mark and type are cancelled in turn
      obtain ⟨hn, ho, htype⟩ := mark_append_inj hword hword' (List.append_cancel_left h)
      obtain ⟨ha, hs, hrest⟩ := hcancels hlegible htype
      obtain ⟨rfl, hxy⟩ := ih hfs hgs (List.cons.inj hrest).2
      have hkey : f.1 = g.1 := by
        cases hf : f.1
        cases hg : g.1
        simp_all
      exact ⟨by rw [Prod.ext hkey hs], hxy⟩

theorem object_append_inj {fs gs : Fields} (hfs : (Shape.object fs).Legible)
    (hgs : (Shape.object gs).Legible) (hcancels : ∀ f ∈ fs, Cancels o f.2)
    (h : (shapeType o d a (.object fs)).toList ++ ';' :: x =
      (shapeType o d b (.object gs)).toList ++ ';' :: y) : a = b ∧ fs = gs ∧ x = y := by
  cases hfs with | object hwords hdistinct hfields =>
  cases hgs with | object hwords' hdistinct' hfields' =>
  cases fs with
  | nil =>
    cases gs with
    | nil =>
      rw [toList_shapeType_nil, toList_shapeType_nil] at h
      obtain ⟨ha, hxy⟩ := suffix_append_inj (List.cons.inj (List.cons.inj h).2).2
      exact ⟨ha, rfl, hxy⟩
    | cons g gs =>
      rw [toList_shapeType_nil, toList_shapeType_cons] at h
      simp at h
  | cons f fs =>
    cases gs with
    | nil =>
      rw [toList_shapeType_nil, toList_shapeType_cons] at h
      simp at h
    | cons g gs =>
      rw [toList_shapeType_cons, toList_shapeType_cons] at h
      simp only [List.cons_append, List.append_assoc, List.cons.injEq, true_and] at h
      obtain ⟨hlines, hclosed⟩ := fieldLines_append_inj
        (fun f hf => ⟨hwords f hf, isHidden_of_mem hdistinct hf, hcancels f hf⟩)
        (fun g hg => ⟨hwords' g hg, isHidden_of_mem hdistinct' hg, hfields' g hg⟩) h
      obtain ⟨ha, hxy⟩ := suffix_append_inj hclosed
      exact ⟨ha, hlines, hxy⟩

/-- A printed type that begins with a brace is that of an object. -/
theorem leaf_append_ne {l : Leaf} {fs : Fields} (h : (Shape.leaf l).Legible) :
    (shapeType o d a (.leaf l)).toList ++ ';' :: x ≠
      (shapeType o d b (.object fs)).toList ++ ';' :: y := by
  obtain ⟨z, hz⟩ : ∃ z, (shapeType o d b (.object fs)).toList ++ ';' :: y = [] ++ '{' :: z := by
    cases fs with
    | nil => exact ⟨_, by rw [toList_shapeType_nil]; rfl⟩
    | cons f fs => exact ⟨_, by rw [toList_shapeType_cons]; rfl⟩
  rw [hz]
  intro heq
  obtain ⟨-, hbrace, -⟩ :=
    Text.append_cons_inj (isTypeChar_of_mem h) (List.forall_mem_nil _) (by decide) (by decide) heq
  exact absurd hbrace (by decide)

theorem cancels_of_legible {s : Shape} (h : s.Legible) : Cancels o s := by
  induction s using Shape.fieldsInduction with
  | leaf l =>
    intro d a b t x y ht heq
    cases t with
    | leaf l' =>
      obtain ⟨htype, -, hxy⟩ := Text.append_cons_inj (isTypeChar_of_mem h) (isTypeChar_of_mem ht)
        (by decide) (by decide) heq
      obtain ⟨ha, hl⟩ := leafType_inj h ht (String.toList_inj.mp htype)
      exact ⟨ha, congrArg _ hl, hxy⟩
    | object gs => exact absurd heq (leaf_append_ne h)
  | object fs ih =>
    intro d a b t x y ht heq
    cases t with
    | leaf l => exact absurd heq.symm (leaf_append_ne ht)
    | object gs =>
      have hcancels : ∀ f ∈ fs, Cancels o f.2 := fun f hf => ih f hf (h.of_mem hf)
      obtain ⟨ha, hfs, hxy⟩ := object_append_inj h ht hcancels heq
      exact ⟨ha, congrArg _ hfs, hxy⟩

end Declaration

theorem Fields.declaration_inj_of_legible {o : Declaration.Options} {fs gs : Fields}
    (hfs : (Shape.object fs).Legible) (hgs : (Shape.object gs).Legible)
    (h : fs.declaration o = gs.declaration o) : fs = gs := by
  have h := congrArg String.toList h
  unfold Fields.declaration at h
  simp only [String.toList_append] at h
  have htypes := congrArg (· ++ [';']) (List.append_cancel_left (List.append_cancel_right h))
  obtain ⟨-, hobject, -⟩ := Declaration.cancels_of_legible hfs hgs htypes
  exact Shape.object.inj hobject

/-! ### Inferred fields -/

theorem Leaf.mem_of_of_eq {names : List String} {types : NameSet}
    (h : Leaf.of names = .oneOf types) : ∀ n ∈ types.names, n ∈ names := by
  unfold Leaf.of at h
  split at h
  · cases h
    exact fun n hn => NameSet.mem_sortNames.mp hn
  · cases h

/-- What a use names is in words. -/
structure Use.InWords (u : Use) : Prop where
  path : ∀ s ∈ u.path, Parser.IsWord s
  types : ∀ names, u.tag.types? = some names → ∀ n ∈ names, Parser.IsWord n

theorem Use.inWords_of_mem {around : List String} {n : Node} {u : Use}
    (hn : n.Each Parser.TagInWords) (ha : ∀ s ∈ around, Parser.IsWord s) (h : u ∈ n.uses around) :
    u.InWords := by
  have htested : ∀ n ∈ ["boolean"], Parser.IsWord n := by decide
  induction n using Node.contentInduction generalizing around with
  | text | comment | reference | dot => cases h
  | var name raw type scope =>
    have hvar : ∀ around, (∀ s ∈ around, Parser.IsWord s) →
        Use.InWords ⟨around, name, .var type scope⟩ := fun around ha => by
      refine ⟨List.forall_mem_append.mpr ⟨ha, hn.1⟩, fun names hnames => ?_⟩
      cases type with
      | none => cases hnames
      | some type =>
        obtain ⟨-, hnames⟩ := Option.ite_none_left_eq_some.mp hnames
        cases hnames
        exact hn.2 type rfl
    cases scope <;> cases List.mem_singleton.mp h
    · exact hvar around ha
    · exact hvar [] (List.forall_mem_nil _)
  | inverted name content =>
    cases List.mem_singleton.mp h
    refine ⟨List.forall_mem_append.mpr ⟨ha, hn.1⟩, fun names hnames => ?_⟩
    cases hnames
    exact htested
  | block name content optional ih =>
    have hinside := List.forall_mem_append.mpr ⟨ha, hn.1⟩
    rcases List.mem_cons.mp h with rfl | h
    · refine ⟨hinside, fun names hnames => ?_⟩
      obtain ⟨-, hnames⟩ := Option.ite_none_left_eq_some.mp hnames
      cases hnames
      exact htested
    · obtain ⟨m, hm, h⟩ := mem_usesAll_iff.mp h
      exact ih m hm (Node.eachOf_iff.mp hn.2 m hm) hinside h

namespace Shape

/-- What is found at the places of a shape makes it legible. -/
theorem legible_of_at {s : Shape} (hd : s.Distinct Key.name)
    (hnames : ∀ path g, s.At path g → Parser.IsWord g.1.name)
    (hinside : ∀ path key types, s.At path (key, .leaf (.oneOf types)) →
      ∀ n ∈ types.names, Parser.IsWord n)
    (hself : ∀ types, s = .leaf (.oneOf types) → ∀ n ∈ types.names, Parser.IsWord n) :
    s.Legible := by
  induction s using fieldsInduction with
  | leaf l =>
    cases l with
    | any => exact .any
    | oneOf types => exact .oneOf (hself types rfl)
  | object fs ih =>
    cases hd with | object hkeys hfields =>
    have hlast : ∀ f ∈ fs, (object fs).At [f.1.name] f := fun f hf => .last hf
    refine .object (fun f hf => hnames _ f (hlast f hf)) (Fields.names_eq fs ▸ hkeys) fun f hf => ?_
    refine ih f hf (hfields f hf) (fun path g hg => hnames _ g (.step hf hg))
      (fun path key types hg => hinside _ key types (.step hf hg)) fun types heq => ?_
    exact hinside [f.1.name] f.1 types (by rw [← heq]; exact hlast f hf)

end Shape

/-- Where types are inferred, a use asks for them. -/
theorem exists_use_of_oneOf_infer {ns : List Node} {fs : Fields} {path : List String} {key : Key}
    {types : NameSet} (h : (infer ns).result = .ok fs)
    (hat : (Shape.object fs).At path (key, .leaf (.oneOf types))) :
    ∃ u ∈ usesAll [] ns, ∃ names, u.tag.types? = some names ∧ ∀ n ∈ types.names, n ∈ names := by
  have ha : key.array = false := Bool.eq_false_iff.mpr fun ha => by
    cases any_of_array_infer h hat ha
  obtain ⟨u, hu, -, hleaf⟩ := (oneOf_infer h hat ha).mp rfl
  obtain ⟨names, hnames, hof⟩ := Tag.leaf_eq_oneOf_iff.mp hleaf
  exact ⟨u, hu, names, hnames, Leaf.mem_of_of_eq hof⟩

/-- The names and types of inferred fields are those that uses name. -/
theorem legible_infer {ns : List Node} {fs : Fields} (hns : Node.EachOf Parser.TagInWords ns)
    (h : (infer ns).result = .ok fs) : (Shape.object fs).Legible := by
  have huses : ∀ u ∈ usesAll [] ns, u.InWords := fun u hu => by
    obtain ⟨n, hn, hu⟩ := mem_usesAll_iff.mp hu
    exact Use.inWords_of_mem (Node.eachOf_iff.mp hns n hn) (List.forall_mem_nil _) hu
  refine Shape.legible_of_at (distinct_infer h) (fun path g hg => ?_)
    (fun path key types hg => ?_) nofun
  · have hhas : (Shape.object fs).Has (fun _ => True) path := ⟨g, hg, trivial⟩
    obtain ⟨-, u, hu, hp⟩ := exists_asks_iff.mp ((has_infer Sums.present h).mp hhas)
    obtain ⟨parents, rfl⟩ := hg.name_eq
    exact (huses u hu).path _ (hp.subset List.mem_concat_self)
  · obtain ⟨u, hu, names, hnames, hmem⟩ := exists_use_of_oneOf_infer h hg
    exact fun n hn => (huses u hu).types names hnames n (hmem n hn)

theorem Template.legible_fields {source : String} {t : Template} {fs : Fields}
    (ht : Template.parse source = .ok t) (h : t.fields = .ok fs) : (Shape.object fs).Legible :=
  legible_infer (Template.inWords_of_parse ht) h

/-- A declaration determines the fields it declares, in their order at every level, if they are
legible. All fields of parsed templates are. -/
theorem Fields.declaration_inj (o : Declaration.Options) :
    (∀ fs gs : Fields, (Shape.object fs).Legible → (Shape.object gs).Legible →
      (fs.declaration o = gs.declaration o ↔ fs = gs)) ∧
    ∀ (source : String) (t : Template) (fs : Fields), Template.parse source = .ok t →
      t.fields = .ok fs → (Shape.object fs).Legible :=
  ⟨fun _ _ hfs hgs => ⟨declaration_inj_of_legible hfs hgs, fun h => by rw [h]⟩,
    fun _ _ _ => Template.legible_fields⟩

/-- A list of anything is not mistaken for a value of two types, also without margins. -/
theorem Fields.declaration_inj_list :
    let o : Declaration.Options := { indent := 0 }
    let fs : Fields := [({ name := "1st", array := true }, .leaf .any)]
    let gs : Fields := [({ name := "1st" }, .leaf (.of ["string", "number"]))]
    (Shape.object fs).Legible ∧ (Shape.object gs).Legible ∧
      fs.declaration o ≠ gs.declaration o := by
  intro o fs gs
  obtain ⟨hinj, hlegible⟩ := declaration_inj o
  let name : Path := ⟨["1st"], by simp⟩
  let source := "\x7b\x7b#1st\x7d\x7d\x7b\x7b.\x7d\x7d\x7b\x7b/1st\x7d\x7d"
  have hfs : (Shape.object fs).Legible :=
    hlegible source ⟨source, [.block name [.dot false] false]⟩ fs (by decide +kernel) rfl
  let other := "\x7b\x7b1st: string | number\x7d\x7d"
  have hgs : (Shape.object gs).Legible :=
    hlegible other ⟨other, [.var name false (some ⟨["string", "number"], false⟩) .context]⟩ gs
      (by decide +kernel) rfl
  exact ⟨hfs, hgs, fun h => absurd ((hinj fs gs hfs hgs).mp h) (by decide)⟩

end Stencil
