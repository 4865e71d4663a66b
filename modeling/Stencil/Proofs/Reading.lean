import Stencil.Proofs.Outcome
import Stencil.Proofs.Spelling

/-!
# What is spelled is read

Parsers are greedy and try forms in a fixed order; the grammar knows of neither. So a spelling is
read only because nothing else can be: blanks end before something that is no blank, a run of words
before something that is neither a bar nor part of a word, and the characters at the beginning of a
node tell its form (`formAt`).
-/

namespace Stencil.Parser

open Grammar

variable {α β : Type} {p : Parser α} {a : α} {b : Bool} {x y z u v w part : List Char}

/-- From any place where the text `x` is left, `p` gives `a` and leaves `y`. -/
def Takes (p : Parser α) (x : List Char) (a : α) (y : List Char) : Prop :=
  ∀ pos, ∃ pos', (p ⟨x, pos⟩).result = .ok (a, ⟨y, pos'⟩)

namespace Takes

theorem pure (a : α) (x : List Char) : Takes (Pure.pure a) x a x := fun pos => ⟨pos, rfl⟩

theorem bind {f : α → Parser β} {b : β} (hp : Takes p x a y) (hf : Takes (f a) y b z) :
    Takes (p >>= f) x b z := by
  intro pos
  obtain ⟨pos', hp⟩ := hp pos
  obtain ⟨pos'', hf⟩ := hf pos'
  exact ⟨pos'', bind_eq_ok.mpr ⟨a, _, hp, hf⟩⟩

theorem read {select : List Char → List Char} (h : select x = part) (hx : x = part ++ y) :
    Takes (Parser.read select) x part y := by
  intro pos
  refine ⟨pos.advance (x.take part.length), ?_⟩
  show Except.ok (select x, Cursor.skip ⟨x, pos⟩ (select x).length) = _
  rw [h, Cursor.skip, hx, List.drop_left]

theorem accept (mark y : List Char) : Takes (Parser.accept mark) (mark ++ y) true y := by
  intro pos
  refine ⟨pos.advance mark, ?_⟩
  unfold Parser.accept
  rw [if_pos (List.prefix_append ..)]
  simp [Cursor.skip]

theorem not_accept {mark : List Char} (h : ¬ mark <+: x) :
    Takes (Parser.accept mark) x false x := by
  intro pos
  refine ⟨pos, ?_⟩
  unfold Parser.accept
  rw [if_neg h]
  rfl

theorem expect (mark y : List Char) : Takes (Parser.expect mark) (mark ++ y) () y := by
  intro pos
  refine ⟨pos.advance mark, ?_⟩
  unfold Parser.expect
  rw [if_pos (List.prefix_append ..)]
  simp [Cursor.skip]

end Takes

/-! ### Blanks and marks -/

/-- No blank comes next. -/
def Solid (x : List Char) : Prop := ∀ c ∈ x.head?, isBlank c = false

theorem solid_cons {c : Char} : Solid (c :: x) ↔ isBlank c = false := by simp [Solid]

theorem takes_blanks (h : Blanks x y) (hy : Solid y) : Takes blanks x () y := by
  obtain ⟨run, hrun⟩ := h
  have hlongest : LongestRun isBlank x run y := ⟨hrun, hy⟩
  exact (Takes.read hlongest.takeWhile_eq hrun.text_eq).bind (.pure () y)

/-- Blanks, a mark or none, and blanks again, read in front of something else. -/
theorem takes_mark {f : Bool → Parser β} {m : Char} {r : β} (hm : isBlank m = false)
    (h₁ : Blanks x y) (h : Optionally m b y z) (h₂ : Blanks z u) (hu : Solid u)
    (hmu : ¬ [m] <+: u) (hf : Takes (f b) u r v) :
    Takes (do blanks; let b ← accept [m]; blanks; f b) x r v := by
  cases h with
  | written =>
    exact (takes_blanks h₁ (solid_cons.mpr hm)).bind <|
      (Takes.accept [m] z).bind <| (takes_blanks h₂ hu).bind hf
  | absent =>
    -- the two runs of blanks are one
    exact (takes_blanks (h₁.trans h₂) hu).bind <|
      (Takes.not_accept hmu).bind <| (takes_blanks (.refl u) hu).bind hf

theorem takes_lineFeed (h : LineFeed x y) : ∃ b, Takes (accept ['\n']) x b y := by
  cases h with
  | written => exact ⟨true, .accept ['\n'] y⟩
  | absent hne =>
    refine ⟨false, .not_accept fun hp => hne ?_⟩
    obtain ⟨rest, hrest⟩ := hp
    rw [← hrest]
    rfl

/-! ### The parts of tags -/

theorem takes_path {name : Path} (h : SpellsPath x name z) : Takes path x name z := by
  obtain ⟨hb, hrun, hdots, hsegments⟩ := h
  have hne := List.ne_nil_of_mem hdots.choose_spec.1
  obtain ⟨c, y, rfl, hc⟩ := hrun.exists_cons hne
  refine (takes_blanks hb (solid_cons.mpr (isBlank_eq_false hc))).bind ?_
  refine (Takes.read hrun.takeWhile_eq hrun.text_eq).bind ?_
  rw [if_neg hne, Path.ofSegments?_eq_some_iff.mpr hsegments]
  exact .pure name z

/-- No word goes on, and after a word no further one can follow. -/
structure EndsWords (x : List Char) : Prop where
  solid : Solid x
  no_word : ∀ c ∈ x.head?, isWordChar c = false
  no_bar : ¬ ['|'] <+: x

theorem takes_word {seen names : List String} {bound : Nat} {run : List Char} (hb : Blanks x y)
    (hrun : Run isWordChar y run z) (hne : run ≠ []) (hz : Blanks z u) (hu : Solid u)
    (hw : ∀ c ∈ u.head?, isWordChar c = false)
    (hf : Takes (do
      if ← accept ['|'] then typeNames bound (seen ++ [String.ofList run]).eraseDups
      else pure (seen ++ [String.ofList run]).eraseDups) u names v) :
    Takes (typeNames (bound + 1) seen.eraseDups) x names v := by
  have hlongest : LongestRun isWordChar y run z := by
    refine ⟨hrun, fun c hc => ?_⟩
    rcases hz.head hc with hc | hc
    · exact isWordChar_eq_false hc
    · exact hw c hc
  obtain ⟨c, y, rfl, hc⟩ := hrun.exists_cons hne
  have hsolid : isBlank c = false := isBlank_eq_false (by simp [isPathChar, hc])
  refine (takes_blanks hb (solid_cons.mpr hsolid)).bind ?_
  refine (Takes.read hlongest.takeWhile_eq hrun.text_eq).bind ?_
  rw [if_neg hne]
  rw [eraseDups_append_singleton] at hf
  exact (takes_blanks hz hu).bind hf

theorem takes_typeNames (seen : List String) {words : List String} {bound : Nat}
    (h : SpellsWords x words y) (hy : Blanks y z) (hz : EndsWords z) (hbound : x.length < bound) :
    Takes (typeNames bound seen.eraseDups) x (seen ++ words).eraseDups z := by
  induction h generalizing bound seen with
  | last hb hrun hne =>
    cases bound with
    | zero => omega
    | succ bound =>
      refine takes_word hb hrun hne hy hz.solid hz.no_word ?_
      exact (Takes.not_accept hz.no_bar).bind (.pure _ z)
  | @more x y w u v word words hb hrun hne hbar _ ih =>
    cases bound with
    | zero => omega
    | succ bound =>
      refine takes_word hb hrun hne hbar (solid_cons.mpr rfl) (by simp; decide) ?_
      refine (Takes.accept ['|'] _).bind ?_
      have hlength := hb.length_le
      have hlength' := hbar.length_le
      rw [hrun.text_eq, List.length_append] at hlength
      rw [List.length_cons] at hlength'
      have happend : seen ++ String.ofList word :: words =
          seen ++ [String.ofList word] ++ words := by simp
      rw [happend]
      exact ih _ hy (by omega)

theorem takes_alternatives {words : List String} (h : SpellsWords x words y) (hy : Blanks y z)
    (hz : EndsWords z) : Takes alternatives x words.eraseDups z := fun pos =>
  takes_typeNames [] h hy hz (Nat.lt_succ_self _) pos

/-! ### In front of a brace -/

theorem not_prefix_singleton {c d : Char} (h : c ≠ d) : ¬ [c] <+: d :: x := by
  simpa using h

theorem endsWords_brace (x : List Char) : EndsWords ('}' :: x) where
  solid := solid_cons.mpr rfl
  no_word c hc := by
    cases Option.mem_some_iff.mp hc
    decide
  no_bar := not_prefix_singleton (by decide)

/-- What follows the path of a variable tag. -/
theorem takes_typing {optional : Bool} {types : Option (List String)}
    {f : Option ValueType → β} (b₁ : Blanks x y) (opt : Optionally '?' optional y z)
    (b₂ : Blanks z u) (h : SpellsTypes u types v) (b₃ : Blanks v ('}' :: w)) :
    Takes (do
      blanks
      let optional ← accept ['?']
      blanks
      let annotated ← accept [':']
      let types ← typesIf annotated
      blanks
      pure (f (if optional || annotated then some ⟨types, optional⟩ else none)))
      x (f (typeOf optional types)) ('}' :: w) := by
  have hw := endsWords_brace w
  have hblanks : Takes blanks ('}' :: w) () ('}' :: w) := takes_blanks (.refl _) hw.solid
  rw [typeOf_eq]
  cases h with
  | written h =>
    refine takes_mark rfl b₁ opt b₂ (solid_cons.mpr rfl) (not_prefix_singleton (by decide)) ?_
    exact (Takes.accept [':'] _).bind <| (takes_alternatives h b₃ hw).bind <|
      hblanks.bind (.pure _ _)
  | absent =>
    refine takes_mark rfl b₁ opt (b₂.trans b₃) hw.solid (not_prefix_singleton (by decide)) ?_
    exact (Takes.not_accept (not_prefix_singleton (by decide))).bind <|
      (Takes.pure [] _).bind <| hblanks.bind (.pure _ _)

theorem takes_variableBody {name : Path} {type : Option ValueType} {scope : Scope}
    (h : SpellsVariable x name type scope ('}' :: y)) :
    Takes variableBody x (name, type, scope) ('}' :: y) := by
  obtain ⟨b₁, root, path, b₂, opt, b₃, types, b₄⟩ := h
  have htail := fun scope : Scope =>
    takes_typing (f := fun type => (name, type, scope)) b₂ opt b₃ types b₄
  cases root with
  | written =>
    exact (takes_blanks b₁ (solid_cons.mpr rfl)).bind <| (Takes.accept ['@'] _).bind <|
      (takes_path path).bind (htail _)
  | absent =>
    -- the blanks of the path come before where the mark would be
    obtain ⟨c, y, hb, hc, hpath⟩ := path.start
    have hat : '@' ≠ c := by
      rintro rfl
      revert hc
      decide
    exact (takes_blanks (b₁.trans hb) (solid_cons.mpr (isBlank_eq_false hc))).bind <|
      (Takes.not_accept (not_prefix_singleton hat)).bind <| (takes_path hpath).bind (htail _)

/-! ### Nodes -/

theorem takes_variableTag {raw : Bool} {name : Path} {type : Option ValueType} {scope : Scope}
    (h : SpellsVariable x name type scope (closeOf raw ++ y)) :
    Takes (variableTag raw) (openOf raw ++ x) (.var name raw type scope) y := by
  have hclose : Takes (expect (if raw then rawCloseMark else closeMark)) (closeOf raw ++ y) () y :=
    .expect _ y
  obtain ⟨z, hz⟩ := closeOf_append raw y
  rw [hz] at h hclose
  exact (Takes.expect (openOf raw) x).bind <| (takes_variableBody h).bind <| hclose.bind (.pure _ y)

theorem not_brace_of_blanks {c : Char} (h : Blanks x (c :: y)) (hc : c ≠ '{') :
    x.head? ≠ some '{' := by
  intro hx
  rcases h.head hx with hb | hb
  · exact absurd hb (by decide)
  · exact hc (Option.mem_some_iff.mp hb)

theorem takes_dotTag {raw : Bool} (b₁ : Blanks x ('.' :: y)) (b₂ : Blanks y (closeOf raw ++ z)) :
    Takes dotTag (openOf raw ++ x) (.dot raw) z := by
  have hopen : Takes opening (openOf raw ++ x) raw x := by
    cases raw with
    | true => exact (Takes.accept rawOpenMark x).bind (.pure true x)
    | false =>
      have hraw : ¬ openMark ++ ['{'] <+: openMark ++ x := by
        rw [List.prefix_append_right_inj]
        rintro ⟨rest, hrest⟩
        exact not_brace_of_blanks b₁ (by decide) (hrest ▸ rfl)
      exact (Takes.not_accept hraw).bind <| (Takes.expect openMark x).bind (.pure false x)
  have hclose : Takes (expect (if raw then rawCloseMark else closeMark)) (closeOf raw ++ z) () z :=
    .expect _ z
  obtain ⟨w, hw⟩ := closeOf_append raw z
  rw [hw] at b₂ hclose
  exact hopen.bind <| (takes_blanks b₁ (solid_cons.mpr rfl)).bind <|
    (Takes.expect ['.'] y).bind <| (takes_blanks b₂ (solid_cons.mpr rfl)).bind <|
    hclose.bind (.pure _ z)

theorem takes_endTag (h : SpellsEnd x y) : ∃ name, Takes endTag x name y := by
  obtain ⟨path, b₁, mark, b₂⟩ := h
  rename_i x _ _ _ name _
  refine ⟨name, (Takes.expect endMark x).bind <| (takes_path path).bind ?_⟩
  exact takes_mark rfl b₁ mark b₂ (solid_cons.mpr rfl) (not_prefix_singleton (by decide)) <|
    (Takes.expect closeMark y).bind (.pure name y)

theorem takes_referenceTag {name : Path} (path : SpellsPath x name y)
    (b : Blanks y (closeMark ++ z)) :
    Takes referenceTag ('{' :: '{' :: '>' :: x) (.reference name) z :=
  (Takes.expect ['{', '{', '>'] x).bind <| (takes_path path).bind <|
    (takes_blanks b (solid_cons.mpr rfl)).bind <| (Takes.expect closeMark z).bind (.pure _ z)

theorem UpTo.before_eq {mark : List Char} (h : UpTo mark x part y)
    (hy : y = [] ∨ mark <+: y) : Text.before mark x = part := by
  obtain ⟨rfl, hfirst⟩ := h
  induction part with
  | nil =>
    rcases hy with rfl | hy
    · rfl
    · exact Text.before_of_mark hy
  | cons c part ih =>
    have hc : ¬ mark <+: c :: (part ++ y) := hfirst 0 (by simp)
    rw [List.cons_append, Text.before_cons_of_not_mark hc, ih]
    intro n hn
    exact hfirst (n + 1) (by simpa using hn)

theorem takes_commentTag (h : UpTo closeMark x part (closeMark ++ y)) :
    Takes commentTag ('{' :: '{' :: '!' :: x) (.comment (String.ofList part)) y :=
  (Takes.expect ['{', '{', '!'] x).bind <|
    (Takes.read (UpTo.before_eq h (.inr (List.prefix_append ..))) h.text_eq).bind <|
    (Takes.expect closeMark y).bind (.pure _ y)

theorem takes_plainText (h : UpTo openMark x part y) (hne : part ≠ [])
    (hy : y = [] ∨ openMark <+: y) : Takes plainText x (.text (String.ofList part)) y := by
  refine (Takes.read (UpTo.before_eq h hy) h.text_eq).bind ?_
  rw [if_neg hne]
  exact .pure _ y

variable {body : Parser (List Node)} {name : Path} {content : List Node}

theorem takes_blockTag {optional : Bool} (path : SpellsPath x name y) (b₁ : Blanks y z)
    (opt : Optionally '?' optional z u) (b₂ : Blanks u (closeMark ++ v)) (lf₁ : LineFeed v w)
    {s t r : List Char} (hbody : Takes body w content s) (close : SpellsEnd s t)
    (lf₂ : LineFeed t r) :
    Takes (blockTag body) ('{' :: '{' :: '#' :: x) (.block name content optional) r := by
  obtain ⟨_, hlf₁⟩ := takes_lineFeed lf₁
  obtain ⟨_, hclose⟩ := takes_endTag close
  obtain ⟨_, hlf₂⟩ := takes_lineFeed lf₂
  refine (Takes.expect ['{', '{', '#'] x).bind <| (takes_path path).bind ?_
  refine takes_mark rfl b₁ opt b₂ (solid_cons.mpr rfl) (not_prefix_singleton (by decide)) ?_
  exact (Takes.expect closeMark v).bind <| hlf₁.bind <| hbody.bind <| hclose.bind <|
    hlf₂.bind (.pure _ r)

theorem takes_invertedTag (path : SpellsPath x name y) (b : Blanks y (closeMark ++ z))
    (hbody : Takes body z content u) (close : SpellsEnd u v) :
    Takes (invertedTag body) ('{' :: '{' :: '^' :: x) (.inverted name content) v := by
  obtain ⟨_, hclose⟩ := takes_endTag close
  exact (Takes.expect ['{', '{', '^'] x).bind <| (takes_path path).bind <|
    (takes_blanks b (solid_cons.mpr rfl)).bind <| (Takes.expect closeMark z).bind <|
    hbody.bind <| hclose.bind (.pure _ v)

/-! ### The form is the only one -/

theorem firstOf_of_only {ps : List (Parser α)} {c : Cursor} {r : α × Cursor} {e : ParseError}
    (hp : p ∈ ps) (h : (p c).result = .ok r)
    (honly : ∀ q ∈ ps, ∀ r', (q c).result = .ok r' → r' = r) : (firstOf e ps c).result = .ok r := by
  induction ps generalizing e with
  | nil => cases hp
  | cons q ps ih =>
    unfold firstOf
    cases hq : (q c).result with
    | ok r' =>
      rw [Traced.handle_of_ok hq, honly q (List.mem_cons_self ..) r' hq]
    | error e' =>
      have hp : p ∈ ps := by
        refine (List.mem_cons.mp hp).resolve_left ?_
        rintro rfl
        cases h.symm.trans hq
      rw [Traced.handle_of_error hq]
      exact ih hp fun q hq => honly q (List.mem_cons_of_mem _ hq)

variable {forms : List Form} {n : Node} {ns : List Node}

theorem spellsNode_of_parse {f : Form} {c c' : Cursor}
    (h : (f.parse (nodes forms true) c).result = .ok (n, c')) :
    SpellsNode c.rest n c'.rest ∧ formOf n = f :=
  spellsNode_of_form (fun hb => (spellsNodes_of_nodesWithin hb).1) h

/-- If one form reads a node, no form is in its way. -/
theorem takes_node {f : Form} (hf : f ∈ forms)
    (h : Takes (f.parse (nodes forms true)) x n y) :
    Takes (node forms (nodes forms true)) x n y := by
  intro pos
  obtain ⟨pos', h⟩ := h pos
  refine ⟨pos', ?_⟩
  unfold node
  rw [Traced.result_bind]
  refine firstOf_of_only (List.mem_map_of_mem hf) h fun q hq r hr => ?_
  obtain ⟨g, -, rfl⟩ := List.mem_map.mp hq
  obtain ⟨hg, hgf⟩ := spellsNode_of_parse hr
  obtain ⟨hf, hff⟩ := spellsNode_of_parse h
  have hform := (formAt_of_spellsNode hg).symm.trans (formAt_of_spellsNode hf)
  cases hgf.symm.trans ((Option.some.inj hform).trans hff)
  exact Except.ok.inj (hr.symm.trans h)

theorem takes_nodes_nil {inside : Bool} (h : if inside then endMark <+: x else x = []) :
    Takes (nodes forms inside) x [] x := by
  intro pos
  refine ⟨pos, ?_⟩
  rw [nodes_eq]
  cases inside with
  | false =>
    have hnil : x = [] := h
    rw [if_pos hnil]
    rfl
  | true =>
    have hne : x ≠ [] := by
      rintro rfl
      exact absurd (List.prefix_nil.mp h) (by decide)
    rw [if_neg hne, if_pos ⟨rfl, h⟩]
    rfl

theorem takes_nodes_cons {inside : Bool} (hx : x ≠ []) (hend : ¬ endMark <+: x)
    (hn : Takes (node forms (nodes forms true)) x n y) (hns : Takes (nodes forms inside) y ns z) :
    Takes (nodes forms inside) x (n :: ns) z := by
  intro pos
  rw [nodes_eq, if_neg hx, if_neg fun h => hend h.2]
  exact (hn.bind (hns.bind (.pure (n :: ns) z))) pos

theorem endMark_of_spellsEnd (h : SpellsEnd x y) : endMark <+: x := by
  cases h
  exact List.prefix_append ..

mutual

/-- A node that is spelled is read, if no form is left out. -/
theorem takes_of_spellsNode (hall : ∀ f, f ∈ forms) {x : List Char} {n : Node} {y : List Char} :
    SpellsNode x n y → Takes (node forms (nodes forms true)) x n y
  | .text upTo ne_nil ends => takes_node (hall .text) (takes_plainText upTo ne_nil ends)
  | .var true h => takes_node (hall .rawVar) (takes_variableTag h)
  | .var false h => takes_node (hall .var) (takes_variableTag h)
  | .dot _ b₁ b₂ => takes_node (hall .dot) (takes_dotTag b₁ b₂)
  | .comment upTo => takes_node (hall .comment) (takes_commentTag upTo)
  | .reference path b => takes_node (hall .reference) (takes_referenceTag path b)
  | .block path b₁ opt b₂ lf₁ content close lf₂ =>
    have hcontent := takes_of_spellsNodes hall content true (endMark_of_spellsEnd close)
    takes_node (hall .block) (takes_blockTag path b₁ opt b₂ lf₁ hcontent close lf₂)
  | .inverted path b content close =>
    have hcontent := takes_of_spellsNodes hall content true (endMark_of_spellsEnd close)
    takes_node (hall .inverted) (takes_invertedTag path b hcontent close)

/-- Nodes that are spelled are read, up to where a run ends. -/
theorem takes_of_spellsNodes (hall : ∀ f, f ∈ forms) {x : List Char} {ns : List Node}
    {y : List Char} : SpellsNodes x ns y → ∀ inside : Bool,
      (if inside then endMark <+: y else y = []) → Takes (nodes forms inside) x ns y
  | .nil _, _, h => takes_nodes_nil h
  | .cons first others, inside, h =>
    takes_nodes_cons (ne_nil_of_spellsNode first) (not_endMark_of_spellsNode first)
      (takes_of_spellsNode hall first) (takes_of_spellsNodes hall others inside h)

end

/-- The grammar is unambiguous: what is written at the beginning of a text can be spelled by one
node only. -/
theorem spellsNode_unique {m : Node} (h : SpellsNode x n y) (h' : SpellsNode x m z) :
    n = m ∧ y = z := by
  have hall : ∀ f, f ∈ Form.all := fun f => by cases f <;> decide
  obtain ⟨pos, hn⟩ := takes_of_spellsNode hall h {}
  obtain ⟨pos', hm⟩ := takes_of_spellsNode hall h' {}
  cases hn.symm.trans hm
  exact ⟨rfl, rfl⟩

/-- With no form left out, a text is read as the nodes that it spells, in whatever order the forms
are tried. -/
theorem parseWith_eq_ok_iff (hall : ∀ f, f ∈ forms) {source : String} :
    (parseWith forms source).result = .ok ns ↔ SpellsNodes source.toList ns [] := by
  unfold parseWith
  rw [Traced.result_bind]
  constructor
  · intro h
    obtain ⟨⟨ns', c⟩, hns, h⟩ := Outcome.bind_eq_ok.mp h
    cases h
    obtain ⟨hspelled, hrest⟩ := spellsNodes_of_nodesWithin hns
    have hrest : c.rest = [] := hrest
    exact hrest ▸ hspelled
  · intro h
    obtain ⟨pos, hns⟩ := takes_of_spellsNodes hall h false rfl {}
    exact Outcome.bind_eq_ok.mpr ⟨_, hns, rfl⟩

end Stencil.Parser

namespace Stencil

/-- A text is a template with the nodes that it spells by the grammar; if it spells none, it is no
template. -/
theorem Template.parse_eq_ok_iff {source : String} {t : Template} :
    Template.parse source = .ok t ↔
      t.source = source ∧ Grammar.SpellsNodes source.toList t.nodes [] := by
  have hall : ∀ f, f ∈ Parser.Form.all := fun f => by cases f <;> decide
  unfold Template.parse
  rw [Outcome.bind_eq_ok]
  constructor
  · rintro ⟨ns, hns, h⟩
    cases h
    exact ⟨rfl, (Parser.parseWith_eq_ok_iff hall).mp hns⟩
  · rintro ⟨rfl, h⟩
    exact ⟨_, (Parser.parseWith_eq_ok_iff hall).mpr h, rfl⟩

end Stencil
