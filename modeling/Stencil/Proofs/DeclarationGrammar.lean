import Stencil.Proofs.Unambiguous

/-!
# The grammar of declarations

The texts that declare an interface, by the rules for its types, bodies and fields (`WellFormed`).
`atom` says what may be called a type. The grammar puts a word outside of quotes nowhere else but
where it names a type or a field, so all such words of a text are atoms or identifiers
(`EachWord.of_wellFormed`).
-/

namespace Stencil.Declaration

/-! ### Names -/

/-- A word that does not start with a digit. -/
def IsIdentifier (s : String) : Prop :=
  Parser.IsWord s ∧ ∀ c ∈ s.toList.head?, c.isDigit = false

def IsNumeral (s : String) : Prop := s ≠ "" ∧ ∀ c ∈ s.toList, c.isDigit = true

/-- The names that the types of leaves may have. -/
def IsAtom (s : String) : Prop := IsIdentifier s ∨ IsNumeral s

instance (s : String) : Decidable (IsIdentifier s) :=
  decidable_of_iff (Parser.IsWord s ∧ s.toList.head?.all (fun c => !c.isDigit) = true)
    (by simp [IsIdentifier, Option.all_eq_true])

instance (s : String) : Decidable (IsNumeral s) :=
  decidable_of_iff (s ≠ "" ∧ s.toList.all Char.isDigit = true) (by simp [IsNumeral])

instance (s : String) : Decidable (IsAtom s) := inferInstanceAs (Decidable (_ ∨ _))

theorem IsAtom.isWord {s : String} (h : IsAtom s) : Parser.IsWord s := by
  rcases h with h | ⟨hne, hdigits⟩
  · exact h.1
  · exact ⟨hne, fun c hc => by simp [Parser.isWordChar, Char.isAlphanum, hdigits c hc]⟩

/-! ### Texts -/

/-- The name of a field: an identifier, or any word in quotes. -/
inductive NameText : String → List Char → Prop
  | bare {s : String} (h : IsIdentifier s) : NameText s s.toList
  | quoted {s : String} (h : Parser.IsWord s) : NameText s ('"' :: (s.toList ++ ['"']))

/-- Atoms with bars between them. -/
inductive UnionText (atom : String → Prop) : List Char → Prop
  | one {s : String} (h : atom s) : UnionText atom s.toList
  | more {s : String} {x : List Char} (h : atom s) (others : UnionText atom x) :
      UnionText atom (s.toList ++ ' ' :: '|' :: ' ' :: x)

def marginOf (indent depth : Nat) : List Char := List.replicate (depth * indent) ' '

mutual

/-- The type of a field at the depth. -/
inductive TypeText (atom : String → Prop) (indent : Nat) : Nat → List Char → Prop
  | union {depth : Nat} {x : List Char} (h : UnionText atom x) : TypeText atom indent depth x
  | atoms {depth : Nat} {s : String} (h : atom s) :
      TypeText atom indent depth (s.toList ++ ['[', ']'])
  | unions {depth : Nat} {x : List Char} (h : UnionText atom x) :
      TypeText atom indent depth ('(' :: (x ++ [')', '[', ']']))
  | body {depth : Nat} {x : List Char} (h : BodyText atom indent depth x) :
      TypeText atom indent depth x
  | bodies {depth : Nat} {x : List Char} (h : BodyText atom indent depth x) :
      TypeText atom indent depth (x ++ ['[', ']'])

/-- Nothing in braces, or one field a line, all with different names. -/
inductive BodyText (atom : String → Prop) (indent : Nat) : Nat → List Char → Prop
  | empty (depth : Nat) : BodyText atom indent depth ['{', '}']
  | fields {depth : Nat} {names : List String} {x : List Char}
      (h : FieldsText atom indent (depth + 1) names x) (ne_nil : names ≠ [])
      (distinct : names.Nodup) :
      BodyText atom indent depth ('{' :: '\n' :: (x ++ (marginOf indent depth ++ ['}'])))

/-- The lines of fields with these names. -/
inductive FieldsText (atom : String → Prop) (indent : Nat) : Nat → List String → List Char → Prop
  | nil (depth : Nat) : FieldsText atom indent depth [] []
  | cons {depth : Nat} {s : String} {names : List String} {x y z : List Char} (name : NameText s x)
      (optional : Bool) (type : TypeText atom indent depth y)
      (others : FieldsText atom indent depth names z) :
      FieldsText atom indent depth (s :: names)
        (marginOf indent depth ++ (x ++ (mark optional ++ (y ++ ';' :: '\n' :: z))))

end

/-- The text declares the interface `TemplateParams`, with two spaces for each level. -/
def WellFormed (atom : String → Prop) (text : String) : Prop :=
  ∃ body, BodyText atom 2 0 body ∧
    text.toList = "export interface TemplateParams ".toList ++ (body ++ ['\n'])

/-! ### The words of a text -/

/-- `P` holds of every word in the text, those in quotes left out. -/
def EachWord (P : String → Prop) (x : List Char) : Prop :=
  ∀ s, Parser.IsWord s → s.toList ∈ x.splitOnP (fun c => !isNameChar c) → P s

section
variable {P : String → Prop} {indent depth : Nat} {x y : List Char} {c : Char} {s : String}

theorem eachWord_nil : EachWord P [] := fun s hs hmem => by
  rw [List.splitOnP_nil, List.mem_singleton, String.toList_eq_nil_iff] at hmem
  exact absurd hmem hs.1

theorem eachWord_append_cons (hx : ∀ d ∈ x, isNameChar d = true) (hc : isNameChar c = false) :
    EachWord P (x ++ c :: y) ↔ (∀ s, Parser.IsWord s → s.toList = x → P s) ∧ EachWord P y := by
  have hsplit : (x ++ c :: y).splitOnP (fun c => !isNameChar c) =
      x :: y.splitOnP fun c => !isNameChar c :=
    List.splitOnP_append_cons_of_forall_mem (fun d hd => by simp [hx d hd]) c (by simp [hc]) y
  unfold EachWord
  rw [hsplit]
  simp only [List.mem_cons, or_imp, imp_and, forall_and]

/-- A character that no name holds can be left out in front. -/
theorem eachWord_cons (hc : isNameChar c = false) : EachWord P (c :: y) ↔ EachWord P y := by
  have h : EachWord P ([] ++ c :: y) ↔ _ := eachWord_append_cons (List.forall_mem_nil _) hc
  refine h.trans (and_iff_right fun s hs hnil => ?_)
  exact absurd (String.toList_eq_nil_iff.mp hnil) hs.1

theorem eachWord_append (hx : x.any isNameChar = false) :
    EachWord P (x ++ y) ↔ EachWord P y := by
  induction x with
  | nil => exact Iff.rfl
  | cons d x ih =>
    obtain ⟨hd, hx⟩ := Bool.or_eq_false_iff.mp hx
    exact (eachWord_cons hd).trans (ih hx)

theorem eachWord_word (hs : Parser.IsWord s) (hc : isNameChar c = false) :
    EachWord P (s.toList ++ c :: y) ↔ P s ∧ EachWord P y := by
  rw [eachWord_append_cons (fun d hd => by simp [isNameChar, hs.2 d hd]) hc]
  refine and_congr_left' ⟨fun h => h s hs rfl, fun h s' _ heq => ?_⟩
  rwa [String.toList_inj.mp heq]

theorem eachWord_quoted (hs : Parser.IsWord s) (hc : isNameChar c = false) :
    EachWord P ('"' :: (s.toList ++ '"' :: c :: y)) ↔ EachWord P y := by
  have hchars : ∀ d ∈ '"' :: (s.toList ++ ['"']), isNameChar d = true := by
    intro d hd
    simp only [List.mem_cons, List.mem_append, List.not_mem_nil, or_false] at hd
    rcases hd with rfl | hd | rfl
    · decide
    · simp [isNameChar, hs.2 d hd]
    · decide
  have h := eachWord_append_cons (P := P) (y := y) hchars hc
  simp only [List.cons_append, List.append_assoc, List.nil_append] at h
  refine h.trans (and_iff_right fun s' hs' heq => ?_)
  -- a quote is no part of a word
  have hquote := hs'.2 '"' (heq ▸ List.mem_cons_self ..)
  exact absurd hquote (by decide)

theorem eachWord_margin : EachWord P (marginOf indent depth ++ y) ↔ EachWord P y :=
  eachWord_append <| List.any_eq_false.mpr fun d hd => List.eq_of_mem_replicate hd ▸ by decide

theorem exists_mark_append (optional : Bool) (y : List Char) :
    ∃ c z, mark optional ++ y = c :: z ∧ isNameChar c = false ∧ (EachWord P z ↔ EachWord P y) := by
  cases optional
  · exact ⟨':', ' ' :: y, rfl, by decide, eachWord_cons (by decide)⟩
  · exact ⟨'?', ':' :: ' ' :: y, rfl, by decide,
      (eachWord_cons (by decide)).trans (eachWord_cons (by decide))⟩

theorem eachWord_brackets (hc : isNameChar c = false) :
    EachWord P ('[' :: ']' :: c :: y) ↔ EachWord P y :=
  (eachWord_append (x := ['[', ']']) (by decide)).trans (eachWord_cons hc)

theorem eachWord_header : EachWord P ("export interface TemplateParams ".toList ++ y) ↔
    (P "export" ∧ P "interface" ∧ P "TemplateParams") ∧ EachWord P y := by
  have hwords : "export interface TemplateParams ".toList ++ y = "export".toList ++ ' ' ::
      ("interface".toList ++ ' ' :: ("TemplateParams".toList ++ ' ' :: y)) := rfl
  rw [hwords, eachWord_word (by decide) (by decide), eachWord_word (by decide) (by decide),
    eachWord_word (by decide) (by decide), and_assoc, and_assoc]

end

/-! ### The words of declarations -/

section
variable {atom : String → Prop} {indent : Nat} {x y : List Char} {c : Char} {s : String}

/-- The words that the grammar puts outside of quotes. -/
def IsBare (atom : String → Prop) (s : String) : Prop := atom s ∨ IsIdentifier s

theorem eachWord_of_unionText (hatom : ∀ s, atom s → Parser.IsWord s) (h : UnionText atom x)
    (hc : isNameChar c = false) (hy : EachWord (IsBare atom) y) :
    EachWord (IsBare atom) (x ++ c :: y) := by
  induction h with
  | one h => exact (eachWord_word (hatom _ h) hc).mpr ⟨.inl h, hy⟩
  | @more s x h _ ih =>
    rw [List.append_assoc]
    refine (eachWord_word (hatom s h) (by decide)).mpr ⟨.inl h, ?_⟩
    exact (eachWord_append (x := ['|', ' ']) (by decide)).mpr ih

theorem eachWord_of_nameText (h : NameText s x) (hc : isNameChar c = false)
    (hy : EachWord (IsBare atom) y) : EachWord (IsBare atom) (x ++ c :: y) := by
  cases h with
  | bare h => exact (eachWord_word h.1 hc).mpr ⟨.inr h, hy⟩
  | quoted h =>
    rw [List.cons_append, List.append_assoc]
    exact (eachWord_quoted h hc).mpr hy

mutual

theorem eachWord_of_typeText (hatom : ∀ s, atom s → Parser.IsWord s) :
    ∀ {depth : Nat} {x y : List Char}, TypeText atom indent depth x →
      EachWord (IsBare atom) y → EachWord (IsBare atom) (x ++ ';' :: y)
  | _, _, _, .union h, hy => eachWord_of_unionText hatom h (by decide) hy
  | _, _, _, .atoms h, hy => by
    rw [List.append_assoc]
    refine (eachWord_word (hatom _ h) (by decide)).mpr ⟨.inl h, ?_⟩
    exact (eachWord_append (x := [']', ';']) (by decide)).mpr hy
  | _, _, _, .unions h, hy => by
    rw [List.cons_append, List.append_assoc]
    exact (eachWord_cons (by decide)).mpr
      (eachWord_of_unionText hatom h (by decide) ((eachWord_brackets (by decide)).mpr hy))
  | _, _, _, .body h, hy => eachWord_of_bodyText hatom h ((eachWord_cons (by decide)).mpr hy)
  | _, _, _, .bodies h, hy => by
    rw [List.append_assoc]
    exact eachWord_of_bodyText hatom h ((eachWord_brackets (by decide)).mpr hy)

theorem eachWord_of_bodyText (hatom : ∀ s, atom s → Parser.IsWord s) :
    ∀ {depth : Nat} {x y : List Char}, BodyText atom indent depth x →
      EachWord (IsBare atom) y → EachWord (IsBare atom) (x ++ y)
  | _, _, _, .empty _, hy => (eachWord_append (x := ['{', '}']) (by decide)).mpr hy
  | _, _, _, .fields h _ _, hy => by
    simp only [List.cons_append, List.append_assoc, List.nil_append]
    refine (eachWord_append (x := ['{', '\n']) (by decide)).mpr ?_
    exact eachWord_of_fieldsText hatom h
      (eachWord_margin.mpr ((eachWord_cons (by decide)).mpr hy))

theorem eachWord_of_fieldsText (hatom : ∀ s, atom s → Parser.IsWord s) :
    ∀ {depth : Nat} {names : List String} {x y : List Char},
      FieldsText atom indent depth names x →
        EachWord (IsBare atom) y → EachWord (IsBare atom) (x ++ y)
  | _, _, _, _, .nil _, hy => hy
  | _, _, _, y, .cons (y := type) (z := z) name optional htype others, hy => by
    simp only [List.append_assoc, List.cons_append]
    have hothers : EachWord (IsBare atom) ('\n' :: (z ++ y)) :=
      (eachWord_cons (by decide)).mpr (eachWord_of_fieldsText hatom others hy)
    obtain ⟨c, w, heq, hc, hw⟩ := exists_mark_append optional (type ++ ';' :: '\n' :: (z ++ y))
    rw [heq]
    exact eachWord_margin.mpr (eachWord_of_nameText name hc
      (hw.mpr (eachWord_of_typeText hatom htype hothers)))

end

theorem EachWord.of_wellFormed {text : String} (hatom : ∀ s, atom s → Parser.IsWord s)
    (h : WellFormed atom text) : EachWord (IsBare atom) text.toList := by
  obtain ⟨body, hbody, htext⟩ := h
  rw [htext, eachWord_header]
  refine ⟨⟨.inr (by decide), .inr (by decide), .inr (by decide)⟩, ?_⟩
  exact eachWord_of_bodyText hatom hbody ((eachWord_cons (by decide)).mpr eachWord_nil)

end

end Stencil.Declaration
