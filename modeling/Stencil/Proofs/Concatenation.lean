import Stencil.Proofs.Positions
import Stencil.Proofs.SecondPass
import Stencil.Proofs.Shifting

/-!
# Templates one behind the other

A text that begins with a tag can be put behind a template that does not end with an opening brace:
what the template spells is spelled as before, since no part of a tag looks beyond its end
(`SpellsNodes.append_tag`), and reading goes on with the second text as if it stood alone, only
further on. So nodes and output follow each other, and an error is that of the second text
(`Template.parse_append`).
-/

namespace Stencil

open Grammar Text

/-! ### What a spelling does not look at -/

namespace Grammar

section
variable {test : Char → Bool} {mark x y z u run part : List Char} {m : Char} {b : Bool}
variable {name : Path} {n : Node} {ns ms : List Node} (t : List Char)

theorem Run.append (h : Run test x run y) : Run test (x ++ t) run (y ++ t) :=
  ⟨by rw [h.text_eq, List.append_assoc], h.all⟩

theorem Blanks.append (h : Blanks x y) : Blanks (x ++ t) (y ++ t) := h.imp fun _ h => h.append t

theorem Optionally.append (h : Optionally m b x y) : Optionally m b (x ++ t) (y ++ t) := by
  cases h with
  | written => exact .written _
  | absent => exact .absent _

theorem SpellsWords.append {words : List String} (h : SpellsWords x words y) :
    SpellsWords (x ++ t) words (y ++ t) := by
  induction h with
  | last blanks run ne_nil => exact .last (blanks.append t) (run.append t) ne_nil
  | more blanks run ne_nil bar _ ih =>
    exact .more (blanks.append t) (run.append t) ne_nil (bar.append t) ih

theorem SpellsTypes.append {types : Option (List String)} (h : SpellsTypes x types y) :
    SpellsTypes (x ++ t) types (y ++ t) := by
  cases h with
  | written h => exact .written (h.append t)
  | absent => exact .absent _

/-- No place before the mark comes to see what is behind it. -/
theorem UpTo.append (h : UpTo mark x part y) (hy : mark.length ≤ y.length) :
    UpTo mark (x ++ t) part (y ++ t) := by
  refine ⟨by rw [h.text_eq, List.append_assoc], fun n hn hmark => h.first n hn ?_⟩
  have hx : x.length = part.length + y.length := by rw [h.text_eq, List.length_append]
  rw [List.drop_append_of_le_length (by omega)] at hmark
  refine List.prefix_of_prefix_length_le hmark (List.prefix_append ..) ?_
  rw [List.length_drop]
  omega

/-- Text at the end is followed by a tag now, and ends where it did. -/
theorem UpTo.append_tag (h : UpTo Parser.openMark x part y) (hy : y = [] ∨ Parser.openMark <+: y)
    (hx : y ≠ [] ∨ Closed x) : UpTo Parser.openMark (x ++ t) part (y ++ t) := by
  rcases hy with rfl | hy
  · have hcalm := calm_of_upTo h
    have hclosed := hx.resolve_left (not_not_intro rfl)
    obtain ⟨rfl⟩ := h.text_eq
    rw [List.append_nil] at hclosed ⊢
    exact upTo_of_calm hcalm hclosed
  · exact h.append t hy.length_le

theorem SpellsNodes.append (h : SpellsNodes x ns y) (h' : SpellsNodes y ms z) :
    SpellsNodes x (ns ++ ms) z := by
  induction ns generalizing x with
  | nil => cases h; exact h'
  | cons n ns ih =>
    cases h with
    | cons first others => exact .cons first (ih others)

/-- What comes behind a node is the end of its text. -/
theorem suffix_of_spellsNode (h : SpellsNode x n y) : y <:+ x := by
  obtain ⟨pos, hn⟩ := Parser.takes_of_spellsNode Parser.Form.mem_all h {}
  obtain ⟨k, -, -, hc⟩ :=
    Parser.moves_node Parser.Form.all (Parser.moves_nodes _ true) _ _ _ hn
  have hy : y = x.drop k := congrArg Cursor.rest hc
  exact hy ▸ List.drop_suffix k x

/-- The text does not continue a path or a line break in front of it. -/
def Apart (t : List Char) : Prop := ∀ c ∈ t.head?, Parser.isPathChar c = false ∧ c ≠ '\n'

theorem apart_of_openMark (h : Parser.openMark <+: t) : Apart t := by
  obtain ⟨rest, rfl⟩ := h
  intro c hc
  cases hc
  decide

variable {t} (ht : Apart t)
include ht

theorem SpellsPath.append_apart (h : SpellsPath x name y) : SpellsPath (x ++ t) name (y ++ t) := by
  obtain ⟨blanks, run, not_dots, segments⟩ := h
  refine .mk (blanks.append t) ⟨run.toRun.append t, fun c hc => ?_⟩ not_dots segments
  cases y with
  | nil => exact (ht c hc).1
  | cons d y => exact run.stops c hc

theorem LineFeed.append_apart (h : LineFeed x y) : LineFeed (x ++ t) (y ++ t) := by
  cases h with
  | written => exact .written _
  | absent hne =>
    refine .absent fun hc => ?_
    cases x with
    | nil => exact (ht _ hc).2 rfl
    | cons d x => exact hne hc

theorem SpellsVariable.append_apart {type : Option ValueType} {scope : Scope}
    (h : SpellsVariable x name type scope y) :
    SpellsVariable (x ++ t) name type scope (y ++ t) := by
  obtain ⟨b₁, root, path, b₂, opt, b₃, typed, b₄⟩ := h
  exact .mk (b₁.append t) (root.append t) (path.append_apart ht) (b₂.append t) (opt.append t)
    (b₃.append t) (typed.append t) (b₄.append t)

theorem SpellsEnd.append_apart (h : SpellsEnd x y) : SpellsEnd (x ++ t) (y ++ t) := by
  obtain ⟨path, b₁, mark, b₂⟩ := h
  have hclose := b₂.append t
  rw [List.append_assoc] at hclose ⊢
  exact .mk (path.append_apart ht) (b₁.append t) (mark.append t) hclose

end

mutual

/-- A node is spelled as before with more behind the text. Only text at its end is made longer,
unless a tag is behind it. -/
theorem SpellsNode.append_apart {t : List Char} (ht : Apart t) {x : List Char} {n : Node}
    {y : List Char} : SpellsNode x n y →
      (y ≠ [] ∨ (∀ s, n ≠ .text s) ∨ Parser.openMark <+: t ∧ Closed x) →
      SpellsNode (x ++ t) n (y ++ t)
  | .text upTo ne_nil ends, hx => by
    have hx := hx.imp_right fun h => h.resolve_left fun hn => hn _ rfl
    refine .text (upTo.append_tag t ends (hx.imp_right And.right)) ne_nil (.inr ?_)
    rcases ends with rfl | ends
    · exact (hx.resolve_left (not_not_intro rfl)).1
    · exact ends.trans (List.prefix_append ..)
  | .var raw h, _ => by
    have hbody := h.append_apart ht
    rw [List.append_assoc] at hbody ⊢
    exact .var raw hbody
  | .dot raw b₁ b₂, _ => by
    have hclose := b₂.append t
    rw [List.append_assoc] at hclose ⊢
    exact .dot raw (b₁.append t) hclose
  | .comment upTo, _ => by
    have hcontent := upTo.append t (by simp)
    rw [List.append_assoc] at hcontent
    exact .comment hcontent
  | .reference path b, _ => by
    have hclose := b.append t
    rw [List.append_assoc] at hclose
    exact .reference (path.append_apart ht) hclose
  | .block path b₁ opt b₂ lf₁ content close lf₂, _ => by
    have hopen := b₂.append t
    rw [List.append_assoc] at hopen
    have hcontent := SpellsNodes.append_apart ht content (.inl (ne_nil_of_spellsEnd close))
    exact .block (path.append_apart ht) (b₁.append t) (opt.append t) hopen (lf₁.append_apart ht)
      hcontent (close.append_apart ht) (lf₂.append_apart ht)
  | .inverted path b content close, _ => by
    have hopen := b.append t
    rw [List.append_assoc] at hopen
    have hcontent := SpellsNodes.append_apart ht content (.inl (ne_nil_of_spellsEnd close))
    exact .inverted (path.append_apart ht) hopen hcontent (close.append_apart ht)

theorem SpellsNodes.append_apart {t : List Char} (ht : Apart t) {x : List Char} {ns : List Node}
    {y : List Char} : SpellsNodes x ns y → (y ≠ [] ∨ Parser.openMark <+: t ∧ Closed x) →
      SpellsNodes (x ++ t) ns (y ++ t)
  | .nil _, _ => .nil _
  | .cons first others, hx => by
    have hfirst := SpellsNode.append_apart ht first <|
      hx.imp (fun hy hz => hy (eq_nil_of_spellsNodes (hz ▸ others)).2) .inr
    obtain ⟨front, hfront⟩ := suffix_of_spellsNode first
    have hothers := SpellsNodes.append_apart ht others <|
      hx.imp_right fun ⟨htag, hclosed⟩ => ⟨htag, Closed.of_append (hfront ▸ hclosed)⟩
    exact .cons hfirst hothers

end

/-- Nodes are spelled as before with a tag behind the text, unless the tag would begin a character
early. -/
theorem SpellsNodes.append_tag {t x : List Char} {ns : List Node} (ht : Parser.openMark <+: t)
    (h : SpellsNodes x ns []) (hx : Closed x) : SpellsNodes (x ++ t) ns t :=
  h.append_apart (apart_of_openMark t ht) (.inr ⟨ht, hx⟩)

end Grammar

/-! ### Reading on behind what is spelled -/

namespace Parser

/-- Reading comes by the end of the nodes that a text begins with, as many bytes further on as they
take, and an error that stops it behind them is the error for the whole text. -/
theorem nodes_behind {x z : List Char} {ns : List Node} (h : SpellsNodes x ns z) (pos : Position) :
    ∃ pos' : Position, pos'.offset + byteSize z = pos.offset + byteSize x ∧
      ∀ e, (nodes Form.all false ⟨z, pos'⟩).result = .error e →
        (nodes Form.all false ⟨x, pos⟩).result = .error e := by
  induction ns generalizing x pos with
  | nil =>
    cases h
    exact ⟨pos, rfl, fun e he => he⟩
  | cons n ns ih =>
    cases h with
    | @cons _ y _ _ _ first others =>
      obtain ⟨between, hn⟩ := takes_of_spellsNode Form.mem_all first pos
      obtain ⟨pos', hoffset, herror⟩ := ih others between
      refine ⟨pos', hoffset.trans ?_, fun e he => ?_⟩
      · -- the first node takes the characters that the cursor moves over
        obtain ⟨k, -, -, hskip⟩ := moves_node Form.all (moves_nodes _ true) _ _ _ hn
        have hy : y = x.drop k := congrArg Cursor.rest hskip
        have hpos : between.offset = pos.offset + byteSize (x.take k) :=
          (congrArg (·.position.offset) hskip).trans (Cursor.offset_skip ⟨x, pos⟩ k)
        rw [hpos, hy, Nat.add_assoc, ← byteSize_append, List.take_append_drop]
      · rw [nodes_eq, if_neg (ne_nil_of_spellsNode first), if_neg fun h => Bool.false_ne_true h.1,
          bind_apply, Traced.result_bind, hn]
        show ((nodes Form.all false >>= fun others => pure (n :: others)) ⟨y, between⟩).result = _
        rw [bind_apply, Traced.result_bind, herror e he]
        rfl

end Parser

/-! ### Templates -/

namespace Template

theorem parse_eq_error_iff {source : String} {e : ParseError} :
    Template.parse source = .error e ↔
      (Parser.nodes Parser.Form.all false (.start source)).result = .error e := by
  constructor
  · intro h
    have hparse := Template.parse_eq_error h
    rw [Parser.parseWith, Traced.result_bind] at hparse
    refine (Outcome.bind_eq_error.mp hparse).resolve_right ?_
    rintro ⟨_, -, ⟨⟩⟩
  · intro h
    rw [Template.parse, Parser.parseWith, Traced.result_bind, h]
    rfl

section
variable {s t : String} {a : Template} (hs : Template.parse s = .ok a)
variable (hclosed : Closed s.toList) (ht : Parser.openMark <+: t.toList)
include hs hclosed ht

/-- The first text spells in front of the second what it spells alone. -/
theorem spellsNodes_append : SpellsNodes (s ++ t).toList a.nodes t.toList := by
  have hnodes := (Template.parse_eq_ok.mp hs).2
  have hspelled := (Parser.parseWith_eq_ok_iff Parser.Form.mem_all).mp hnodes
  rw [String.toList_append]
  exact hspelled.append_tag ht hclosed

theorem parse_append_of_ok {b : Template} (hb : Template.parse t = .ok b) :
    Template.parse (s ++ t) = .ok ⟨s ++ t, a.nodes ++ b.nodes⟩ := by
  have hnodes := (Template.parse_eq_ok.mp hb).2
  have hback := (Parser.parseWith_eq_ok_iff Parser.Form.mem_all).mp hnodes
  have hspelled := (spellsNodes_append hs hclosed ht).append hback
  have hparse := (Parser.parseWith_eq_ok_iff Parser.Form.mem_all).mpr hspelled
  exact Template.parse_eq_ok.mpr ⟨rfl, hparse⟩

theorem parse_append_of_error {e : ParseError} (he : Template.parse t = .error e) :
    ∃ e', Template.parse (s ++ t) = .error e' ∧ e.Shifted s.utf8ByteSize e' := by
  obtain ⟨pos, hoffset, herror⟩ := Parser.nodes_behind (spellsNodes_append hs hclosed ht) {}
  -- reading stands where the second text begins, and does there what it does at the very start
  have hshifted : (Cursor.start t).Shifted s.utf8ByteSize ⟨t.toList, pos⟩ := by
    have hsize : byteSize (s ++ t).toList = s.utf8ByteSize + byteSize t.toList := by
      rw [String.toList_append, byteSize_append, byteSize_toList s]
    have hpos : pos.offset + byteSize t.toList = 0 + byteSize (s ++ t).toList := hoffset
    exact ⟨rfl, show pos.offset = 0 + s.utf8ByteSize by omega⟩
  have hresult : Parser.Shifted _ (Parser.nodes Parser.Form.all false (.start t)).result _ :=
    Parser.shifts_nodes false _ _ hshifted
  rw [parse_eq_error_iff.mp he] at hresult
  generalize hr : (Parser.nodes Parser.Form.all false ⟨t.toList, pos⟩).result = r at hresult
  cases hresult with
  | error h => exact ⟨_, parse_eq_error_iff.mpr (herror _ hr), h⟩

end

/-- A text that begins with a tag, behind a template that does not end with an opening brace, is
read and rendered as if it stood alone, or is refused for the same cause, further on by the bytes of
the template. -/
theorem parse_append {s t : String} {a : Template} (hs : Template.parse s = .ok a)
    (hclosed : Closed s.toList) (ht : Parser.openMark <+: t.toList) :
    (∀ b, Template.parse t = .ok b →
      Template.parse (s ++ t) = .ok ⟨s ++ t, a.nodes ++ b.nodes⟩ ∧
      ∀ data, ∃ x y, (Stencil.render s data).result = .ok x ∧
        (Stencil.render t data).result = .ok y ∧
        (Stencil.render (s ++ t) data).result = .ok (x ++ y)) ∧
    ∀ e, Template.parse t = .error e → ∃ e', Template.parse (s ++ t) = .error e' ∧
      e'.cause = e.cause ∧ e'.offset = s.utf8ByteSize + e.offset := by
  constructor
  · intro b hb
    have hparse := parse_append_of_ok hs hclosed ht hb
    refine ⟨hparse, fun data => ⟨_, _, render_of_parse hs data, render_of_parse hb data, ?_⟩⟩
    rw [render_of_parse hparse]
    exact congrArg Except.ok (renderAll_append data data a.nodes b.nodes)
  · intro e he
    obtain ⟨e', hparse, hshifted⟩ := parse_append_of_error hs hclosed ht he
    exact ⟨e', hparse, hshifted.cause, hshifted.offset.trans (Nat.add_comm ..)⟩

/-- The template ends with a block, behind which a line break would be left out; its first character
takes two bytes. -/
theorem parse_append_block :
    let s := "é\x7b\x7b#a\x7d\x7d\x7b \x7b\x7b/a\x7d\x7d"
    let t := "\x7b\x7b.\x7d\x7d"
    let u := "\x7b\x7b#b\x7d\x7d\n"
    let a : Template := ⟨s, [.text "é", .block ⟨["a"], by simp⟩ [.text "\x7b "] false]⟩
    let e : ParseError := ⟨2, 1, 7, .endBefore (some "\x7b\x7b/")⟩
    let data : Value := .string "<"
    Template.parse s = .ok a ∧ Closed s.toList ∧ Parser.openMark <+: t.toList ∧
      Parser.openMark <+: u.toList ∧ Template.parse t = .ok ⟨t, [.dot false]⟩ ∧
      Template.parse u = .error e ∧
      (Template.parse (s ++ t) = .ok ⟨s ++ t, a.nodes ++ [.dot false]⟩ ∧
        (Stencil.render s data).result = .ok "é\x7b " ∧
        (Stencil.render t data).result = .ok "&lt;" ∧
        (Stencil.render (s ++ t) data).result = .ok "é\x7b &lt;") ∧
      ∃ e', Template.parse (s ++ u) = .error e' ∧ e'.cause = e.cause ∧ e'.offset = 23 := by
  intro s t u a e data
  have hs : Template.parse s = .ok a := by decide +kernel
  have hclosed : Closed s.toList := by
    have hlast : s.toList.getLast? = some '}' := by decide +kernel
    intro c hc
    cases hlast.symm.trans hc
    decide
  have ht : Parser.openMark <+: t.toList := by decide +kernel
  have hu : Parser.openMark <+: u.toList := by decide +kernel
  have hb : Template.parse t = .ok ⟨t, [.dot false]⟩ := by decide +kernel
  have he : Template.parse u = .error e := by decide +kernel
  obtain ⟨hparse, hrender⟩ := (parse_append hs hclosed ht).1 _ hb
  obtain ⟨x, y, hx, hy, hxy⟩ := hrender data
  have hfirst : (Stencil.render s data).result = .ok "é\x7b " := by decide +kernel
  have hsecond : (Stencil.render t data).result = .ok "&lt;" := by decide +kernel
  cases hfirst.symm.trans hx
  cases hsecond.symm.trans hy
  have hsize : s.utf8ByteSize + e.offset = 23 := by decide +kernel
  exact ⟨hs, hclosed, ht, hu, hb, he, ⟨hparse, hx, hy, hxy⟩,
    hsize ▸ (parse_append hs hclosed hu).2 _ he⟩

end Template

end Stencil
