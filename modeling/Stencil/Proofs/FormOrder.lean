import Stencil.Proofs.Furthest
import Stencil.Proofs.SecondPass

/-!
# The order of the forms

How a text begins tells which form can read a node there, whatever reads the content of blocks
(`formAt_of_parse`). So at most one form succeeds at any place, and the order in which the forms are
tried decides only which error is kept when all of them fail (`forms_exclusive`).
-/

namespace Stencil.Parser

open Grammar

variable {forms forms' : List Form} {inside : Bool} {c c' : Cursor} {n : Node} {ns : List Node}

/-- A form reads a node only where the text begins like one of its nodes. -/
theorem formAt_of_parse {f : Form} {body : Parser (List Node)}
    (h : (f.parse body c).result = .ok (n, c')) : formAt c.rest = some f := by
  have hform : SpellsNode c.rest n c'.rest ∧ formOf n = f → formAt c.rest = some f := by
    rintro ⟨hspelled, rfl⟩
    exact formAt_of_spellsNode hspelled
  cases f with
  | rawVar | var => exact hform (spellsNode_of_variableTag h)
  | comment => exact hform (spellsNode_of_commentTag h)
  | reference => exact hform (spellsNode_of_referenceTag h)
  | dot => exact hform (spellsNode_of_dotTag h)
  | text => exact hform (spellsNode_of_plainText h)
  | block | inverted =>
    -- the content may be read by anything, the mark in front of it is enough
    obtain ⟨_, _, hmark, -⟩ := bind_eq_ok.mp h
    rw [expect_eq_ok hmark]
    rfl

/-- The text that is left tells how far a cursor has moved. -/
theorem Moves.cursor_eq {α β : Type} {p : Parser α} {q : Parser β} {a : α} {b : β} {d d' : Cursor}
    (hp : Moves 0 p) (hq : Moves 0 q) (h : (p c).result = .ok (a, d))
    (h' : (q c).result = .ok (b, d')) (hrest : d.rest = d'.rest) : d = d' := by
  obtain ⟨k, -, hk, rfl⟩ := hp c a d h
  obtain ⟨l, -, hl, rfl⟩ := hq c b d' h'
  have hlength := congrArg List.length hrest
  rw [Cursor.rest_skip, Cursor.rest_skip, List.length_drop, List.length_drop] at hlength
  have hkl : k = l := by omega
  rw [hkl]

/-- What one order of the forms reads is read by every other one that leaves none out. -/
theorem nodes_of_nodes (hall : ∀ f, f ∈ forms')
    (h : (nodes forms inside c).result = .ok (ns, c')) :
    (nodes forms' inside c).result = .ok (ns, c') := by
  obtain ⟨hspelled, hends⟩ := spellsNodes_of_nodesWithin h
  obtain ⟨pos, h'⟩ := takes_of_spellsNodes hall hspelled inside hends c.position
  have hcursor : ⟨c'.rest, pos⟩ = c' :=
    Moves.cursor_eq (moves_nodes forms' inside) (moves_nodes forms inside) h' h rfl
  rwa [hcursor] at h'

theorem nodes_eq_ok_iff (hall : ∀ f, f ∈ forms) (hall' : ∀ f, f ∈ forms')
    {r : List Node × Cursor} :
    (nodes forms inside c).result = .ok r ↔ (nodes forms' inside c).result = .ok r :=
  ⟨nodes_of_nodes hall', nodes_of_nodes hall⟩

/-- At most one form reads a node at a place, whatever reads the content of blocks. In any order,
tried at every depth, the forms read the same nodes from a place and end at the same one, and the
same texts are templates with the same nodes. -/
theorem forms_exclusive :
    (∀ (body body' : Parser (List Node)) (c : Cursor) (f g : Form) (r r' : Node × Cursor),
      (f.parse body c).result = .ok r → (g.parse body' c).result = .ok r' → f = g) ∧
    ∀ forms : List Form, forms.Perm Form.all →
      (∀ (inside : Bool) (c : Cursor) (r : List Node × Cursor),
        (nodes forms inside c).result = .ok r ↔ (nodes Form.all inside c).result = .ok r) ∧
      ∀ (source : String) (ns : List Node),
        (parseWith forms source).result = .ok ns ↔ Template.parse source = .ok ⟨source, ns⟩ := by
  refine ⟨fun body body' c f g r r' hf hg => ?_, fun forms hperm => ?_⟩
  · exact Option.some.inj ((formAt_of_parse hf).symm.trans (formAt_of_parse hg))
  · have hall : ∀ f, f ∈ forms := fun f => hperm.mem_iff.mpr (Form.mem_all f)
    refine ⟨fun inside c r => nodes_eq_ok_iff hall Form.mem_all, fun source ns => ?_⟩
    rw [parseWith_eq_ok_iff hall, ← parseWith_eq_ok_iff Form.mem_all, Template.parse_eq_ok]
    exact ⟨fun h => ⟨rfl, h⟩, fun h => h.2⟩

/-- The dot is read by its own form only, and the other way round the forms read the raw tag and the
block as before. -/
theorem forms_exclusive_reversed :
    let source := "\x7b\x7b#a\x7d\x7d\x7b\x7b . \x7d\x7d\x7b\x7b\x7bb\x7d\x7d\x7d\x7b\x7b/a\x7d\x7d"
    let dot : Cursor := ⟨['{', '{', ' ', '.', ' ', '}', '}'], {}⟩
    let ns : List Node := [.block ⟨["a"], by simp⟩
      [.dot false, .var ⟨["b"], by simp⟩ true none .context] false]
    (∀ f r, (Form.parse (nodes Form.all true) f dot).result = .ok r → f = .dot) ∧
      Form.all.reverse.Perm Form.all ∧ (parseWith Form.all.reverse source).result = .ok ns := by
  intro source dot ns
  obtain ⟨honly, horder⟩ := forms_exclusive
  have hdot : (Form.parse (nodes Form.all true) .dot dot).result = .ok (.dot false, dot.skip 7) :=
    rfl
  have hparse : Template.parse source = .ok ⟨source, ns⟩ := by decide +kernel
  have hperm : Form.all.reverse.Perm Form.all := List.reverse_perm _
  exact ⟨fun f r h => honly _ _ dot f .dot r _ h hdot, hperm,
    ((horder _ hperm).2 source ns).mpr hparse⟩

end Stencil.Parser
