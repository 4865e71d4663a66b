import Stencil.Proofs.DeclarationGrammar

/-!
# Declarations are well-formed

What is declared for a template follows the grammar of declarations if the types of leaves may be
called by any word, as names of types are read (`wellFormed_declaration`). By the stricter grammar,
where the name of a type is an identifier or a numeral, it is well-formed exactly if all types that
the template asks for are so named (`inferDeclaration_wellFormed`): names of fields that are no
identifiers are quoted, names of types are written as they are.
-/

namespace Stencil

open Outcome

/-! ### The types that a shape names -/

/-- `P` holds of the names of all types in the shape. -/
inductive Shape.TypesAre (P : String → Prop) : Shape → Prop
  | leaf {l : Leaf} (h : ∀ n ∈ l.names, P n) : TypesAre P (.leaf l)
  | object {fs : Fields} (h : ∀ f ∈ fs, TypesAre P f.2) : TypesAre P (.object fs)

namespace Shape

variable {P : String → Prop} {s : Shape} {f : Key × Shape} {path : List String}

theorem typesAre_leaf_iff {l : Leaf} : (leaf l).TypesAre P ↔ ∀ n ∈ l.names, P n :=
  ⟨fun h => by cases h with | leaf h => exact h, .leaf⟩

namespace TypesAre

theorem of_mem (h : s.TypesAre P) (hf : f ∈ s.fields) : f.2.TypesAre P := by
  cases h with
  | leaf => cases hf
  | object h => exact h f hf

theorem of_at (h : s.TypesAre P) (hf : s.At path f) : f.2.TypesAre P := by
  induction hf with
  | last hm => exact h.of_mem hm
  | step hm _ ih => exact ih (h.of_mem hm)

theorem of_legible (h : s.Legible) : s.TypesAre Parser.IsWord := by
  induction s using fieldsInduction with
  | leaf l => exact .leaf (Leaf.isWord_of_mem_names h)
  | object fs ih => exact .object fun f hf => ih f hf (h.of_mem hf)

theorem imp {Q : String → Prop} (h : s.TypesAre P) (hQ : ∀ n, P n → Q n) : s.TypesAre Q := by
  induction h with
  | leaf h => exact .leaf fun n hn => hQ n (h n hn)
  | object _ ih => exact .object ih

end TypesAre

/-- A shape names no other types than the leaves at its places do. -/
theorem typesAre_of_at
    (hinside : ∀ path key l, s.At path (key, leaf l) → ∀ n ∈ l.names, P n)
    (hself : ∀ l, s = leaf l → ∀ n ∈ l.names, P n) : s.TypesAre P := by
  induction s using fieldsInduction with
  | leaf l => exact .leaf (hself l rfl)
  | object fs ih =>
    refine .object fun f hf => ih f hf (fun path key l hat => ?_) fun l heq => ?_
    · exact hinside _ key l (.step hf hat)
    · exact hinside [f.1.name] f.1 l (heq ▸ .last hf)

end Shape

namespace Declaration

variable {P atom : String → Prop} {o : Options} {d : Nat} {a : Bool} {x y : List Char} {c : Char}

/-! ### What is written follows the grammar -/

theorem unionText_intercalate {names : List String} (hne : names ≠ []) (h : ∀ n ∈ names, atom n) :
    UnionText atom (" | ".intercalate names).toList := by
  rw [String.toList_intercalate]
  induction names with
  | nil => exact absurd rfl hne
  | cons name names ih =>
    obtain ⟨hname, hnames⟩ := List.forall_mem_cons.mp h
    cases names with
    | nil => simpa using UnionText.one hname
    | cons next names =>
      rw [List.map_cons, List.map_cons, List.intercalate_cons_cons, List.append_assoc]
      exact .more hname (ih (List.cons_ne_nil _ _) hnames)

theorem typeText_leafType {l : Leaf} (h : ∀ n ∈ l.names, atom n) :
    TypeText atom o.indent d (leafType l a).toList := by
  have hunion : UnionText atom l.toString.toList := unionText_intercalate l.names_ne_nil h
  unfold leafType
  split
  · split
    · rename_i hone
      obtain ⟨n, hn⟩ := List.length_eq_one_iff.mp hone
      have hatom : atom n := h n (hn ▸ List.mem_singleton_self n)
      have hname : l.toString = n := by rw [Leaf.toString, hn]; simp
      rw [hname, String.toList_append]
      exact .atoms hatom
    · simp only [String.toList_append]
      exact .unions hunion
  · exact .union hunion

theorem nameText_fieldName {name : String} (h : Parser.IsWord name) :
    NameText name (fieldName name).toList := by
  unfold fieldName
  split
  · rename_i c hc
    split
    · simpa using NameText.quoted h
    · rename_i hdigit
      exact .bare ⟨h, fun c' hc' => by cases hc.symm.trans hc'; simpa using hdigit⟩
  · rename_i hnone
    exact .bare ⟨h, by simp [hnone]⟩

theorem typeText_suffix (h : BodyText atom o.indent d x) :
    TypeText atom o.indent d (x ++ suffix a) := by
  cases a
  · rw [suffix, if_neg Bool.false_ne_true, List.append_nil]
    exact .body h
  · exact .bodies h

theorem toList_margin : (o.margin d).toList = marginOf o.indent d := String.toList_ofList

theorem fieldsText_fieldLines {siblings fs : Fields}
    (h : ∀ f ∈ fs, Parser.IsWord f.1.name ∧ isHidden siblings f.1 = false ∧
      TypeText atom o.indent d (shapeType o d f.1.array f.2).toList) :
    FieldsText atom o.indent d (Fields.names fs) (fieldLines o d siblings fs).toList := by
  induction fs with
  | nil => exact .nil d
  | cons f fs ih =>
    obtain ⟨⟨hname, hshown, htype⟩, hfs⟩ := List.forall_mem_cons.mp h
    have hline : (fieldLines o d siblings (f :: fs)).toList ++ [] = _ :=
      fieldLines_cons_append hshown
    rw [List.append_nil, List.append_nil, toList_margin] at hline
    rw [hline]
    exact .cons (nameText_fieldName hname) f.1.optional htype (ih hfs)

/-- An object is written as a body, with brackets behind it for a list. -/
theorem exists_bodyText {fs : Fields} (hfs : (Shape.object fs).Legible)
    (h : ∀ f ∈ fs, ∀ d a, TypeText atom o.indent d (shapeType o d a f.2).toList) :
    ∃ x, BodyText atom o.indent d x ∧ (shapeType o d a (.object fs)).toList = x ++ suffix a := by
  cases hfs with | object hwords hdistinct hfields =>
  cases fs with
  | nil => exact ⟨_, .empty d, toList_shapeType_nil⟩
  | cons f fs =>
    have hlines : FieldsText atom o.indent (d + 1) (Fields.names (f :: fs))
        (fieldLines o (d + 1) (f :: fs) (f :: fs)).toList := fieldsText_fieldLines fun g hg =>
      ⟨hwords g hg, isHidden_of_mem hdistinct hg, h g hg (d + 1) g.1.array⟩
    refine ⟨_, .fields hlines (List.cons_ne_nil _ _) hdistinct, ?_⟩
    rw [toList_shapeType_cons, toList_margin]
    simp

theorem typeText_shapeType {s : Shape} (h : s.Legible) (ht : s.TypesAre atom) :
    TypeText atom o.indent d (shapeType o d a s).toList := by
  induction s using Shape.fieldsInduction generalizing d a with
  | leaf l => exact typeText_leafType (Shape.typesAre_leaf_iff.mp ht)
  | object fs ih =>
    obtain ⟨x, hx, heq⟩ := exists_bodyText (d := d) (a := a) h fun f hf d a =>
      ih f hf (h.of_mem hf) (ht.of_mem hf)
    rw [heq]
    exact typeText_suffix hx

theorem toList_declaration {fs : Fields} : (fs.declaration o).toList =
    ("export interface " ++ o.name ++ " ").toList ++
      ((shapeType o 0 false (.object fs)).toList ++ ['\n']) := by
  have hend : "\n".toList = ['\n'] := by decide
  unfold Fields.declaration
  rw [String.toList_append, String.toList_append, List.append_assoc, hend]

theorem toList_declaration_default {fs : Fields} : (fs.declaration {}).toList =
    "export interface TemplateParams ".toList ++
      ((shapeType {} 0 false (.object fs)).toList ++ ['\n']) :=
  have hheader : "export interface TemplateParams " =
    "export interface " ++ Options.name {} ++ " " := rfl
  hheader ▸ toList_declaration

theorem wellFormed_declaration {fs : Fields} (h : (Shape.object fs).Legible)
    (ht : (Shape.object fs).TypesAre atom) : WellFormed atom (fs.declaration {}) := by
  obtain ⟨x, hx, heq⟩ := exists_bodyText (o := {}) (d := 0) (a := false) h fun f hf d a =>
    typeText_shapeType (h.of_mem hf) (ht.of_mem hf)
  rw [suffix, if_neg Bool.false_ne_true, List.append_nil] at heq
  exact ⟨x, hx, by rw [toList_declaration_default, heq]⟩

/-! ### The words of what is written -/

theorem eachWord_intercalate {names : List String} (hne : names ≠ [])
    (h : ∀ n ∈ names, Parser.IsWord n) (hc : isNameChar c = false) :
    EachWord P ((" | ".intercalate names).toList ++ c :: y) ↔
      (∀ n ∈ names, P n) ∧ EachWord P y := by
  rw [String.toList_intercalate]
  induction names with
  | nil => exact absurd rfl hne
  | cons name names ih =>
    obtain ⟨hname, hnames⟩ := List.forall_mem_cons.mp h
    cases names with
    | nil => simpa using eachWord_word hname hc
    | cons next names =>
      rw [List.map_cons, List.map_cons, List.intercalate_cons_cons, List.append_assoc,
        List.append_assoc, List.forall_mem_cons, and_assoc]
      refine (eachWord_word hname (by decide)).trans (and_congr_right fun _ => ?_)
      exact (eachWord_append (x := ['|', ' ']) (by decide)).trans (ih (List.cons_ne_nil _ _) hnames)

theorem eachWord_leafType {l : Leaf} (hl : (Shape.leaf l).Legible) (hc : isNameChar c = false) :
    EachWord P ((leafType l a).toList ++ c :: y) ↔ (∀ n ∈ l.names, P n) ∧ EachWord P y := by
  have hunion : ∀ {c z}, isNameChar c = false →
      (EachWord P (l.toString.toList ++ c :: z) ↔ (∀ n ∈ l.names, P n) ∧ EachWord P z) :=
    eachWord_intercalate l.names_ne_nil (Leaf.isWord_of_mem_names hl)
  have hclosed : EachWord P (']' :: c :: y) ↔ EachWord P y :=
    (eachWord_cons (by decide)).trans (eachWord_cons hc)
  unfold leafType
  split
  · split
    · simp only [String.toList_append, List.append_assoc]
      exact (hunion (by decide)).trans (and_congr_right fun _ => hclosed)
    · simp only [String.toList_append, List.append_assoc]
      refine (eachWord_cons (by decide)).trans ((hunion (by decide)).trans ?_)
      exact and_congr_right fun _ => eachWord_brackets hc
  · exact hunion hc

theorem EachWord.of_fieldLines {siblings fs : Fields}
    (hfs : ∀ f ∈ fs, Parser.IsWord f.1.name ∧ isHidden siblings f.1 = false)
    (hin : ∀ f ∈ fs, ∀ {a y}, EachWord P ((shapeType o d a f.2).toList ++ ';' :: y) →
      f.2.TypesAre P ∧ EachWord P y)
    (h : EachWord P ((fieldLines o d siblings fs).toList ++ y)) :
    (∀ f ∈ fs, f.2.TypesAre P) ∧ EachWord P y := by
  induction fs with
  | nil => exact ⟨nofun, by rwa [fieldLines_nil_append] at h⟩
  | cons f fs ih =>
    obtain ⟨⟨hname, hshown⟩, hfs⟩ := List.forall_mem_cons.mp hfs
    obtain ⟨htype, hin⟩ := List.forall_mem_cons.mp hin
    rw [fieldLines_cons_append hshown, toList_margin, eachWord_margin] at h
    obtain ⟨c, w, heq, hc, hw⟩ := exists_mark_append (P := P) f.1.optional
      ((shapeType o d f.1.array f.2).toList ++
        ';' :: '\n' :: ((fieldLines o d siblings fs).toList ++ y))
    rw [heq] at h
    obtain ⟨-, hrest⟩ := (eachWord_append_cons (isNameChar_of_mem hname) hc).mp h
    obtain ⟨hf, hlines⟩ := htype (hw.mp hrest)
    obtain ⟨hfields, hy⟩ := ih hfs hin ((eachWord_cons (by decide)).mp hlines)
    exact ⟨List.forall_mem_cons.mpr ⟨hf, hfields⟩, hy⟩

theorem eachWord_suffix (hc : isNameChar c = false) :
    EachWord P (suffix a ++ c :: y) ↔ EachWord P y := by
  cases a
  · exact eachWord_cons hc
  · exact eachWord_brackets hc

/-- The types of a shape are among the words that are written for it. -/
theorem EachWord.of_shapeType {s : Shape} (hs : s.Legible) (hc : isNameChar c = false)
    (h : EachWord P ((shapeType o d a s).toList ++ c :: y)) : s.TypesAre P ∧ EachWord P y := by
  induction s using Shape.fieldsInduction generalizing d a c y with
  | leaf l =>
    rw [Shape.typesAre_leaf_iff]
    exact (eachWord_leafType hs hc).mp h
  | object fs ih =>
    have hin : ∀ f ∈ fs, ∀ {d a y}, EachWord P ((shapeType o d a f.2).toList ++ ';' :: y) →
        f.2.TypesAre P ∧ EachWord P y := fun f hf => ih f hf (hs.of_mem hf) (by decide)
    cases hs with | object hwords hdistinct hfields =>
    cases fs with
    | nil =>
      rw [toList_shapeType_nil] at h
      have hclosed := (eachWord_append (x := ['{', '}']) (by decide)).mp h
      exact ⟨.object nofun, (eachWord_suffix hc).mp hclosed⟩
    | cons f fs =>
      rw [toList_shapeType_cons] at h
      simp only [List.cons_append, List.append_assoc] at h
      have hlines := (eachWord_append (x := ['{', '\n']) (by decide)).mp h
      obtain ⟨hfields, hclosed⟩ := EachWord.of_fieldLines
        (fun g hg => ⟨hwords g hg, isHidden_of_mem hdistinct hg⟩) (fun g hg => hin g hg) hlines
      rw [toList_margin, eachWord_margin] at hclosed
      exact ⟨.object hfields, (eachWord_suffix hc).mp ((eachWord_cons (by decide)).mp hclosed)⟩

/-- By whichever grammar a declaration is well-formed, the grammar allows its types as names. -/
theorem typesAre_of_wellFormed {fs : Fields} (hfs : (Shape.object fs).Legible)
    (hatom : ∀ s, atom s → Parser.IsWord s) (h : WellFormed atom (fs.declaration {})) :
    (Shape.object fs).TypesAre (IsBare atom) := by
  have hwords := EachWord.of_wellFormed hatom h
  rw [toList_declaration_default, eachWord_header] at hwords
  exact (EachWord.of_shapeType hfs (by decide) hwords.2).1

end Declaration

/-! ### What is declared for a template -/

section
variable {P : String → Prop} {ns : List Node} {fs : Fields} {u : Use} {names : List String}

theorem Leaf.mem_names_of {n : String} (h : n ∈ names) : n ∈ (Leaf.of names).names := by
  have hmem := NameSet.mem_sortNames.mpr h
  rw [Leaf.of, dif_pos (List.ne_nil_of_mem hmem)]
  exact hmem

/-- The types that a use asks for are those of the leaf at its path, unless only a test is asked for:
a list or an object may stand in for it. -/
theorem exists_leaf_infer (h : (infer ns).result = .ok fs) (hu : u ∈ usesAll [] ns)
    (hn : u.tag.types? = some names) (hne : Leaf.of names ≠ .boolean) :
    ∃ key, (Shape.object fs).At u.path (key, .leaf (.of names)) := by
  obtain ⟨types, ht⟩ := Tag.exists_oneOf_of_types? hn
  rw [ht] at hne ⊢
  have hleaf : u.tag.leaf = some (.oneOf types) := Tag.leaf_eq_oneOf_iff.mpr ⟨names, hn, ht⟩
  have hplain : u.tag.isList = false :=
    Bool.eq_false_iff.mpr fun hlist => u.tag.leaf_ne_oneOf_of_isList hlist hleaf
  have hasks : u.Asks (fun m => m.array = false ∧ m.leaf = some (.oneOf types)) u.path :=
    (Use.asks_iff_of_not_passed nofun).mpr ⟨rfl, hplain, hleaf⟩
  obtain ⟨⟨key, shape⟩, hat, -, hshape⟩ := (has_infer (Sums.plain hne) h).mpr ⟨u, hu, hasks⟩
  cases shape with
  | object => cases hshape
  | leaf l => cases hshape; exact ⟨key, hat⟩

/-- The types of inferred fields are those that uses ask for, and the scalars of open leaves. -/
theorem typesAre_infer (hopen : ∀ n ∈ Leaf.any.names, P n) (h : (infer ns).result = .ok fs) :
    (Shape.object fs).TypesAre P ↔
      ∀ u ∈ usesAll [] ns, ∀ names, u.tag.types? = some names → ∀ n ∈ names, P n := by
  constructor
  · intro htypes u hu names hn n hmem
    have hleaf : n ∈ (Leaf.of names).names := Leaf.mem_names_of hmem
    by_cases hboolean : Leaf.of names = .boolean
    · rw [hboolean] at hleaf
      have htested : ∀ n ∈ Leaf.boolean.names, n ∈ Leaf.any.names := by decide
      exact hopen n (htested n hleaf)
    · obtain ⟨key, hat⟩ := exists_leaf_infer h hu hn hboolean
      exact Shape.typesAre_leaf_iff.mp (htypes.of_at hat) n hleaf
  · intro huses
    refine Shape.typesAre_of_at (fun path key l hat n hmem => ?_) nofun
    cases l with
    | any => exact hopen n hmem
    | oneOf types =>
      obtain ⟨u, hu, names, hnames, hof⟩ := exists_use_of_oneOf_infer h hat
      exact huses u hu names hnames n (hof n hmem)

end

namespace Template

open Traced

theorem load_eq_ok {source : String} {t : Template} :
    (load source).result = .ok t ↔ parse source = .ok t := by
  rw [load, result_bind, bind_eq_ok]
  constructor
  · rintro ⟨_, ht, h⟩
    cases h
    exact ht
  · exact fun h => ⟨t, h, rfl⟩

theorem declare_eq_ok {t : Template} {o : Declaration.Options} {text : String} :
    (t.declare o).result = .ok text ↔ ∃ fs, t.fields = .ok fs ∧ fs.declaration o = text := by
  rw [declare, result_bind, bind_eq_ok]
  simp [fields]

end Template

theorem inferDeclaration_eq_ok {source text : String} :
    (inferDeclaration source).result = .ok text ↔
      ∃ t fs, Template.parse source = .ok t ∧ t.fields = .ok fs ∧ fs.declaration {} = text := by
  rw [inferDeclaration, Traced.result_bind, bind_eq_ok]
  simp only [Traced.mapError, mapError_eq_ok, Template.load_eq_ok, Template.declare_eq_ok,
    exists_and_left]

section
open Declaration

/-- What is declared for a text is well-formed if types may be called by any word. If the names of
types have to be identifiers or numerals, it is well-formed exactly if all those are that tags
outside inverted blocks ask for. -/
theorem inferDeclaration_wellFormed {source text : String}
    (h : (inferDeclaration source).result = .ok text) :
    WellFormed Parser.IsWord text ∧ ∃ t, Template.parse source = .ok t ∧
      (WellFormed IsAtom text ↔
        ∀ u ∈ usesAll [] t.nodes, ∀ names, u.tag.types? = some names → ∀ n ∈ names, IsAtom n) := by
  obtain ⟨t, fs, ht, hfs, rfl⟩ := inferDeclaration_eq_ok.mp h
  have hlegible := Template.legible_fields ht hfs
  have hopen : ∀ n ∈ Leaf.any.names, IsAtom n := by decide
  refine ⟨wellFormed_declaration hlegible (.of_legible hlegible), t, ht, ?_⟩
  rw [← typesAre_infer hopen hfs]
  refine ⟨fun hwell => ?_, wellFormed_declaration hlegible⟩
  refine (typesAre_of_wellFormed hlegible (fun _ => IsAtom.isWord) hwell).imp fun s hs => ?_
  exact hs.elim id .inl

/-- A numeral and a quoted name are in order. -/
theorem inferDeclaration_wellFormed_list :
    let source := "\x7b\x7b#1st\x7d\x7d\x7b\x7b.\x7d\x7d\x7b\x7b/1st\x7d\x7d" ++
      "\x7b\x7bb: 12 | x1\x7d\x7d"
    let text := "export interface TemplateParams \x7b\n" ++
      "  \"1st\": (string | boolean | number)[];\n  b: 12 | x1;\n\x7d\n"
    (inferDeclaration source).result = .ok text ∧ WellFormed IsAtom text := by
  intro source text
  have h : (inferDeclaration source).result = .ok text := by decide +kernel
  obtain ⟨-, t, ht, hiff⟩ := inferDeclaration_wellFormed h
  let list : Path := ⟨["1st"], by simp⟩
  let b : Path := ⟨["b"], by simp⟩
  let type : ValueType := ⟨["12", "x1"], false⟩
  let t' : Template := ⟨source, [.block list [.dot false] false, .var b false (some type) .context]⟩
  have ht' : Template.parse source = .ok t' := by decide +kernel
  obtain rfl : t = t' := Except.ok.inj (ht.symm.trans ht')
  refine ⟨h, hiff.mpr ?_⟩
  decide

/-- The name of a type that starts with a digit is written as it is, unlike that of a field. -/
theorem inferDeclaration_not_wellFormed :
    let text := "export interface TemplateParams \x7b\n  a: 1a;\n\x7d\n"
    (inferDeclaration "\x7b\x7ba: 1a\x7d\x7d").result = .ok text ∧ ¬ WellFormed IsAtom text := by
  refine ⟨by decide +kernel, fun h => ?_⟩
  have hwords := EachWord.of_wellFormed (fun _ => IsAtom.isWord) h
  rcases hwords "1a" (by decide) (by decide) with hatom | hidentifier
  · exact absurd hatom (by decide)
  · exact absurd hidentifier (by decide)

end

end Stencil
