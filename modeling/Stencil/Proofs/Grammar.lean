import Stencil.Parser.Form

/-!
# The grammar of templates

What it means that a text spells a list of nodes. Each rule relates a text to what is written at its
beginning and to the text behind that, so it can say how far a part goes. The rules leave open in
which order forms are tried, and where one run of blanks ends and the next one begins.
-/

namespace Stencil.Grammar

open Stencil.Parser

/-! ### Runs of characters -/

/-- The text is `run`, of characters that pass the test, and then `rest`. -/
structure Run (test : Char → Bool) (text run rest : List Char) : Prop where
  text_eq : text = run ++ rest
  all : ∀ c ∈ run, test c = true

/-- A run that cannot be longer. -/
structure LongestRun (test : Char → Bool) (text run rest : List Char) : Prop
    extends Run test text run rest where
  stops : ∀ c ∈ rest.head?, test c = false

section
variable {test : Char → Bool} {x run rest : List Char}

theorem drop_length_takeWhile (test : Char → Bool) (x : List Char) :
    x.drop (x.takeWhile test).length = x.dropWhile test := by
  have h : (x.takeWhile test ++ x.dropWhile test).drop (x.takeWhile test).length =
      x.dropWhile test := List.drop_left
  rwa [List.takeWhile_append_dropWhile] at h

theorem longestRun_takeWhile (test : Char → Bool) (x : List Char) :
    LongestRun test x (x.takeWhile test) (x.dropWhile test) where
  text_eq := List.takeWhile_append_dropWhile.symm
  all := List.all_eq_true.mp List.all_takeWhile
  stops c hc := by
    have h := List.head?_dropWhile_not test x
    rw [Option.mem_def.mp hc] at h
    exact h

theorem Run.exists_cons (h : Run test x run rest) (hne : run ≠ []) :
    ∃ c y, x = c :: y ∧ test c = true := by
  obtain ⟨c, run, rfl⟩ := List.exists_cons_of_ne_nil hne
  exact ⟨c, run ++ rest, h.text_eq, h.all c (List.mem_cons_self ..)⟩

theorem LongestRun.takeWhile_eq (h : LongestRun test x run rest) : x.takeWhile test = run := by
  have hrest : rest.takeWhile test = [] := by
    cases rest with
    | nil => rfl
    | cons c rest => exact List.takeWhile_cons_of_neg (Bool.eq_false_iff.mp (h.stops c rfl))
  rw [h.text_eq, List.takeWhile_append_of_pos h.all, hrest, List.append_nil]

end

/-- The text is `part` and then `rest`, and `mark` begins nowhere inside `part`. -/
structure UpTo (mark text part rest : List Char) : Prop where
  text_eq : text = part ++ rest
  first : ∀ n < part.length, ¬ mark <+: text.drop n

def Blanks (text rest : List Char) : Prop := ∃ run, Run isBlank text run rest

section
variable {x y z : List Char} {c : Char}

namespace Blanks

theorem refl (x : List Char) : Blanks x x := ⟨[], rfl, nofun⟩

theorem trans (h : Blanks x y) (h' : Blanks y z) : Blanks x z := by
  obtain ⟨run, rfl, hr⟩ := h
  obtain ⟨run', rfl, hr'⟩ := h'
  exact ⟨run ++ run', (List.append_assoc ..).symm, List.forall_mem_append.mpr ⟨hr, hr'⟩⟩

theorem length_le (h : Blanks x y) : y.length ≤ x.length := by
  obtain ⟨run, rfl, -⟩ := h
  simp

theorem head (h : Blanks x y) (hc : c ∈ x.head?) : isBlank c = true ∨ c ∈ y.head? := by
  obtain ⟨run, rfl, hrun⟩ := h
  cases run with
  | nil => exact .inr hc
  | cons d run =>
    cases Option.mem_some_iff.mp hc
    exact .inl (hrun c (List.mem_cons_self ..))

theorem dropWhile_eq (h : Blanks x y) : x.dropWhile isBlank = y.dropWhile isBlank := by
  obtain ⟨run, rfl, hrun⟩ := h
  exact List.dropWhile_append_of_pos hrun

end Blanks

theorem isBlank_eq_false (h : isPathChar c = true) : isBlank c = false := by
  refine Bool.eq_false_iff.mpr fun hb => ?_
  simp only [isBlank, Bool.or_eq_true, beq_iff_eq] at hb
  rcases hb with (((rfl | rfl) | rfl) | rfl) | rfl <;> revert h <;> decide

theorem isWordChar_eq_false (h : isBlank c = true) : isWordChar c = false := by
  refine Bool.eq_false_iff.mpr fun hw => ?_
  have hpath : isPathChar c = true := by simp [isPathChar, hw]
  rw [isBlank_eq_false hpath] at h
  cases h

end

/-! ### The parts of tags -/

/-- The character `mark`, or nothing. -/
inductive Optionally (mark : Char) : Bool → List Char → List Char → Prop
  | written (rest : List Char) : Optionally mark true (mark :: rest) rest
  | absent (rest : List Char) : Optionally mark false rest rest

/-- A line feed, if one comes next. -/
inductive LineFeed : List Char → List Char → Prop
  | written (rest : List Char) : LineFeed ('\n' :: rest) rest
  | absent {rest : List Char} (h : rest.head? ≠ some '\n') : LineFeed rest rest

/-- Blanks, then a path as far as its characters go. -/
inductive SpellsPath : List Char → Path → List Char → Prop
  | mk {x y z raw : List Char} {name : Path} (blanks : Blanks x y)
      (run : LongestRun isPathChar y raw z) (not_dots : ∃ c ∈ raw, c ≠ '.')
      (segments : name.segments = Path.segmentsOf raw) : SpellsPath x name z

/-- A path starts behind the blanks, with one of its characters. -/
theorem SpellsPath.start {x z : List Char} {name : Path} (h : SpellsPath x name z) :
    ∃ c y, Blanks x (c :: y) ∧ isPathChar c = true ∧ SpellsPath (c :: y) name z := by
  obtain ⟨hb, hrun, hdots, hsegments⟩ := h
  obtain ⟨c, y, rfl, hc⟩ := hrun.exists_cons (List.ne_nil_of_mem hdots.choose_spec.1)
  exact ⟨c, y, hb, hc, .mk (.refl _) hrun hdots hsegments⟩

/-- Words with bars between them, each after blanks. -/
inductive SpellsWords : List Char → List String → List Char → Prop
  | last {x y z word : List Char} (blanks : Blanks x y) (run : Run isWordChar y word z)
      (ne_nil : word ≠ []) : SpellsWords x [String.ofList word] z
  | more {x y z u v word : List Char} {words : List String} (blanks : Blanks x y)
      (run : Run isWordChar y word z) (ne_nil : word ≠ []) (bar : Blanks z ('|' :: u))
      (others : SpellsWords u words v) : SpellsWords x (String.ofList word :: words) v

/-- A colon and words, of which every one counts where it comes first; or nothing. -/
inductive SpellsTypes : List Char → Option (List String) → List Char → Prop
  | written {x y : List Char} {words : List String} (h : SpellsWords x words y) :
      SpellsTypes (':' :: x) (some words.eraseDups) y
  | absent (x : List Char) : SpellsTypes x none x

/-- What a variable tag says about its value; nothing if it has neither a question mark nor a
colon. -/
def typeOf (optional : Bool) : Option (List String) → Option ValueType
  | some alternatives => some ⟨alternatives, optional⟩
  | none => if optional then some ⟨[], optional⟩ else none

theorem typeOf_eq (optional : Bool) (types : Option (List String)) :
    typeOf optional types =
      if optional || types.isSome then some ⟨types.getD [], optional⟩ else none := by
  cases types <;> simp [typeOf]

/-- The part of a variable tag between the braces. -/
inductive SpellsVariable : List Char → Path → Option ValueType → Scope → List Char → Prop
  | mk {x y z u v w s t r : List Char} {name : Path} {atRoot optional : Bool}
      {types : Option (List String)} (b₁ : Blanks x y) (root : Optionally '@' atRoot y z)
      (path : SpellsPath z name u) (b₂ : Blanks u v) (opt : Optionally '?' optional v w)
      (b₃ : Blanks w s) (typed : SpellsTypes s types t) (b₄ : Blanks t r) :
      SpellsVariable x name (typeOf optional types) (if atRoot then .root else .context) r

/-- `{{/ path ?}}` with any path, the question mark or not. -/
inductive SpellsEnd : List Char → List Char → Prop
  | mk {x y z u v : List Char} {name : Path} {marked : Bool} (path : SpellsPath x name y)
      (b₁ : Blanks y z) (mark : Optionally '?' marked z u) (b₂ : Blanks u (closeMark ++ v)) :
      SpellsEnd (endMark ++ x) v

def openOf (raw : Bool) : List Char := if raw then rawOpenMark else openMark

def closeOf (raw : Bool) : List Char := if raw then rawCloseMark else closeMark

theorem closeOf_append (raw : Bool) (x : List Char) : ∃ y, closeOf raw ++ x = '}' :: y := by
  cases raw
  · exact ⟨'}' :: x, rfl⟩
  · exact ⟨'}' :: '}' :: x, rfl⟩

/-! ### Nodes -/

mutual

/-- The first text begins with a spelling of the node, and the other one is what comes behind. -/
inductive SpellsNode : List Char → Node → List Char → Prop
  /-- Text goes on to the next place where a tag begins, or to the end. -/
  | text {x y part : List Char} (upTo : UpTo openMark x part y) (ne_nil : part ≠ [])
      (ends : y = [] ∨ openMark <+: y) : SpellsNode x (.text (String.ofList part)) y
  | var {x y : List Char} {name : Path} {type : Option ValueType} {scope : Scope} (raw : Bool)
      (h : SpellsVariable x name type scope (closeOf raw ++ y)) :
      SpellsNode (openOf raw ++ x) (.var name raw type scope) y
  | dot {x y z : List Char} (raw : Bool) (b₁ : Blanks x ('.' :: y))
      (b₂ : Blanks y (closeOf raw ++ z)) : SpellsNode (openOf raw ++ x) (.dot raw) z
  | comment {x y part : List Char} (upTo : UpTo closeMark x part (closeMark ++ y)) :
      SpellsNode ('{' :: '{' :: '!' :: x) (.comment (String.ofList part)) y
  | reference {x y z : List Char} {name : Path} (path : SpellsPath x name y)
      (b : Blanks y (closeMark ++ z)) : SpellsNode ('{' :: '{' :: '>' :: x) (.reference name) z
  | block {x y z u v w s t r : List Char} {name : Path} {optional : Bool} {content : List Node}
      (path : SpellsPath x name y) (b₁ : Blanks y z) (opt : Optionally '?' optional z u)
      (b₂ : Blanks u (closeMark ++ v)) (lf₁ : LineFeed v w) (nodes : SpellsNodes w content s)
      (close : SpellsEnd s t) (lf₂ : LineFeed t r) :
      SpellsNode ('{' :: '{' :: '#' :: x) (.block name content optional) r
  | inverted {x y z u v : List Char} {name : Path} {content : List Node}
      (path : SpellsPath x name y) (b : Blanks y (closeMark ++ z))
      (nodes : SpellsNodes z content u) (close : SpellsEnd u v) :
      SpellsNode ('{' :: '{' :: '^' :: x) (.inverted name content) v

/-- The first text begins with spellings of the nodes, one after the other. -/
inductive SpellsNodes : List Char → List Node → List Char → Prop
  | nil (x : List Char) : SpellsNodes x [] x
  | cons {x y z : List Char} {n : Node} {ns : List Node} (first : SpellsNode x n y)
      (others : SpellsNodes y ns z) : SpellsNodes x (n :: ns) z

end

/-! ### The form of a node -/

/-- The form that reads such nodes. -/
def formOf : Node → Form
  | .text _ => .text
  | .var _ raw _ _ => if raw then .rawVar else .var
  | .dot _ => .dot
  | .block .. => .block
  | .inverted .. => .inverted
  | .comment _ => .comment
  | .reference _ => .reference

/-- Whether a dot comes next, after blanks, that is not the beginning of a path. -/
def dotAhead (x : List Char) : Bool :=
  match x.dropWhile isBlank with
  | '.' :: y => !y.head?.any isPathChar
  | _ => false

/-- The form of a tag, by what comes behind its two braces. The tag that ends a block is no node. -/
def formBehind : List Char → Option Form
  | '{' :: x => some (if dotAhead x then .dot else .rawVar)
  | '#' :: _ => some .block
  | '^' :: _ => some .inverted
  | '!' :: _ => some .comment
  | '>' :: _ => some .reference
  | '/' :: _ => none
  | x => some (if dotAhead x then .dot else .var)

/-- The only form that a node at the beginning of the text can have. -/
def formAt : List Char → Option Form
  | '{' :: '{' :: x => formBehind x
  | _ => some .text

section
variable {x y z : List Char} {name : Path} {type : Option ValueType} {scope : Scope} {n : Node}

theorem dotAhead_eq (h : Blanks x y) : dotAhead x = dotAhead y := by
  unfold dotAhead
  rw [h.dropWhile_eq]

theorem dotAhead_of_dot (b₁ : Blanks x ('.' :: y)) (b₂ : Blanks y ('}' :: z)) :
    dotAhead x = true := by
  rw [dotAhead_eq b₁]
  cases y with
  | nil => rfl
  | cons c y =>
    have hc : isPathChar c = false := by
      refine Bool.eq_false_iff.mpr fun hp => ?_
      rcases b₂.head (Option.mem_some_self c) with hb | hb
      · simp [isBlank_eq_false hp] at hb
      · cases Option.mem_some_iff.mp hb
        revert hp
        decide
    show (!isPathChar c) = true
    rw [hc]
    rfl

theorem dotAhead_of_path (h : SpellsPath x name z) : dotAhead x = false := by
  obtain ⟨b, run, ⟨d, hd, hne⟩, -⟩ := h
  rename_i y raw
  obtain ⟨c, raw, rfl⟩ := List.exists_cons_of_ne_nil (List.ne_nil_of_mem hd)
  have hc := run.all c (List.mem_cons_self ..)
  have hdrop : y.dropWhile isBlank = c :: (raw ++ z) := by
    rw [run.text_eq, List.cons_append, List.dropWhile_cons_of_neg]
    exact Bool.eq_false_iff.mp (isBlank_eq_false hc)
  rw [dotAhead_eq b]
  unfold dotAhead
  rw [hdrop]
  split
  · -- the path goes on, with something that is not a dot
    rename_i rest heq
    cases heq
    obtain ⟨e, raw, rfl⟩ := List.exists_cons_of_ne_nil
      (List.ne_nil_of_mem ((List.mem_cons.mp hd).resolve_left hne))
    have he := run.all e (by simp)
    simp [he]
  · rfl

theorem dotAhead_of_variable (h : SpellsVariable x name type scope z) : dotAhead x = false := by
  obtain ⟨b, root, path⟩ := h
  rw [dotAhead_eq b]
  cases root with
  | written => rfl
  | absent => exact dotAhead_of_path path

theorem head_of_variable (h : SpellsVariable x name type scope z) {c : Char} (hc : c ∈ x.head?) :
    isBlank c = true ∨ c = '@' ∨ isPathChar c = true := by
  obtain ⟨b, root, path⟩ := h
  rcases b.head hc with hb | hc
  · exact .inl hb
  · cases root with
    | written => exact .inr (.inl (Option.mem_some_iff.mp hc).symm)
    | absent =>
      obtain ⟨d, y, hb, hd, -⟩ := path.start
      rcases hb.head hc with hb | hc
      · exact .inl hb
      · exact .inr (.inr (Option.mem_some_iff.mp hc ▸ hd))

/-- Behind the braces of a variable tag or a dot, nothing looks like another tag. -/
theorem formBehind_of_head
    (h : ∀ c ∈ x.head?, isBlank c = true ∨ c = '@' ∨ isPathChar c = true) :
    formBehind x = some (if dotAhead x then .dot else .var) := by
  have hne : ∀ {c y}, x = c :: y → c ∉ ['{', '#', '^', '!', '>', '/'] := by
    rintro c y rfl hc
    have hhead := h c rfl
    revert hhead
    simp only [List.mem_cons, List.not_mem_nil, or_false] at hc
    rcases hc with rfl | rfl | rfl | rfl | rfl | rfl <;> decide
  unfold formBehind
  split
  all_goals first
    | rfl
    | exact absurd (by simp) (hne rfl)

theorem formAt_openOf (raw : Bool)
    (h : ∀ c ∈ x.head?, isBlank c = true ∨ c = '@' ∨ isPathChar c = true) :
    formAt (openOf raw ++ x) =
      some (if dotAhead x then .dot else if raw then .rawVar else .var) := by
  cases raw
  · exact formBehind_of_head h
  · rfl

/-- How a spelling begins tells the form of the node. -/
theorem formAt_of_spellsNode (h : SpellsNode x n y) : formAt x = some (formOf n) := by
  cases h with
  | text upTo ne_nil =>
    have hopen : ¬ openMark <+: x := upTo.first 0 (List.length_pos_iff.mpr ne_nil)
    unfold formAt
    split
    · exact absurd (List.prefix_append openMark _) hopen
    · rfl
  | var raw h =>
    rw [formAt_openOf raw fun _ => head_of_variable h, dotAhead_of_variable h]
    rfl
  | dot raw b₁ b₂ =>
    obtain ⟨z, hz⟩ := closeOf_append raw y
    rw [hz] at b₂
    rw [formAt_openOf raw fun c hc => ?_, dotAhead_of_dot b₁ b₂]
    · rfl
    · refine (b₁.head hc).imp_right fun hc => ?_
      cases Option.mem_some_iff.mp hc
      exact .inr rfl
  | comment | reference | block | inverted => rfl

theorem ne_nil_of_spellsNode (h : SpellsNode x n y) : x ≠ [] := by
  cases h with
  | text upTo ne_nil => simp [upTo.text_eq, ne_nil]
  | var raw | dot raw => cases raw <;> simp [openOf, openMark, rawOpenMark]
  | comment | reference | block | inverted => simp

/-- No node begins where a block ends. -/
theorem not_endMark_of_spellsNode (h : SpellsNode x n y) : ¬ endMark <+: x := by
  rintro ⟨rest, rfl⟩
  have hform := formAt_of_spellsNode h
  cases hform

end

end Stencil.Grammar
