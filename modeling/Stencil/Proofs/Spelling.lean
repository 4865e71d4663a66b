import Stencil.Proofs.Grammar
import Stencil.Proofs.Outcome
import Stencil.Proofs.Words

/-!
# What is read is spelled

Whenever a parser succeeds, the text it has moved over spells what it gives, by the rules of the
grammar.
-/

namespace Stencil.Parser

open Grammar

variable {c c' : Cursor} {cs mark : List Char} {test : Char → Bool} {b : Bool}

theorem longestRun_of_read (h : (read (List.takeWhile test) c).result = .ok (cs, c')) :
    LongestRun test c.rest cs c'.rest := by
  cases h
  rw [Cursor.rest_skip, drop_length_takeWhile]
  exact longestRun_takeWhile test c.rest

theorem upTo_of_read (h : (read (Text.before mark) c).result = .ok (cs, c')) :
    UpTo mark c.rest cs c'.rest ∧ (c'.rest = [] ∨ mark <+: c'.rest) := by
  cases h
  refine ⟨⟨?_, fun n hn => Text.not_mark_at_of_lt hn⟩, (Text.drop_before mark c.rest).symm⟩
  exact List.prefix_iff_eq_append.mp (Text.before_isPrefix ..) |>.symm

theorem blanks_of_blanks {u : Unit} (h : (blanks c).result = .ok (u, c')) :
    Blanks c.rest c'.rest := by
  obtain ⟨run, d, hr, h⟩ := bind_eq_ok.mp h
  cases h
  exact ⟨run, (longestRun_of_read hr).toRun⟩

theorem accept_eq_ok (h : (accept mark c).result = .ok (b, c')) :
    (b = true ∧ c.rest = mark ++ c'.rest) ∨
      (b = false ∧ c'.rest = c.rest ∧ ¬ mark <+: c.rest) := by
  unfold accept at h
  split at h
  · rename_i hm
    cases h
    exact .inl ⟨rfl, (List.prefix_iff_eq_append.mp hm).symm⟩
  · rename_i hm
    cases h
    exact .inr ⟨rfl, rfl, hm⟩

theorem expect_eq_ok {u : Unit} (h : (expect mark c).result = .ok (u, c')) :
    c.rest = mark ++ c'.rest := by
  unfold expect at h
  split at h
  · rename_i hm
    cases h
    exact (List.prefix_iff_eq_append.mp hm).symm
  · cases h

theorem optionally_of_accept {m : Char} (h : (accept [m] c).result = .ok (b, c')) :
    Optionally m b c.rest c'.rest := by
  rcases accept_eq_ok h with ⟨rfl, heq⟩ | ⟨rfl, heq, -⟩
  · rw [heq]; exact .written _
  · rw [heq]; exact .absent _

theorem lineFeed_of_accept (h : (accept ['\n'] c).result = .ok (b, c')) :
    LineFeed c.rest c'.rest := by
  rcases accept_eq_ok h with ⟨-, heq⟩ | ⟨-, heq, hne⟩
  · rw [heq]; exact .written _
  · rw [heq]
    refine .absent fun hl => hne ?_
    obtain ⟨rest, hrest⟩ := List.head?_eq_some_iff.mp hl
    rw [hrest]
    exact List.prefix_append ['\n'] rest

/-! ### The parts of tags -/

theorem exists_ne_dot_of_segmentsOf {raw : List Char} (h : Path.segmentsOf raw ≠ []) :
    ∃ d ∈ raw, d ≠ '.' := by
  obtain ⟨s, hs⟩ := List.exists_mem_of_ne_nil _ h
  obtain ⟨piece, hp, -⟩ := List.mem_map.mp hs
  obtain ⟨hp, hne⟩ := List.mem_filter.mp hp
  obtain ⟨d, hd⟩ := List.exists_mem_of_ne_nil piece (by simpa using hne)
  exact ⟨d, mem_of_mem_splitOn hp d hd⟩

theorem spellsPath_of_path {name : Path} (h : (path c).result = .ok (name, c')) :
    SpellsPath c.rest name c'.rest := by
  obtain ⟨_, c₁, hb, h⟩ := bind_eq_ok.mp h
  obtain ⟨raw, c₂, hr, h⟩ := bind_eq_ok.mp h
  split at h
  · cases h
  · cases hp : Path.ofSegments? (Path.segmentsOf raw) with
    | none => simp only [hp] at h; cases h
    | some p =>
      simp only [hp] at h
      cases h
      have hsegments := Path.ofSegments?_eq_some_iff.mp hp
      exact .mk (blanks_of_blanks hb) (longestRun_of_read hr)
        (exists_ne_dot_of_segmentsOf (hsegments ▸ name.segments_ne_nil)) hsegments

/-- The names that are read are those before, each once, and the new ones that are spelled. -/
theorem typeNames_eq_ok (words : List String) {bound : Nat} {out : List String}
    (h : (typeNames bound words.eraseDups c).result = .ok (out, c')) :
    ∃ more rest, SpellsWords c.rest more rest ∧ Blanks rest c'.rest ∧
      out = (words ++ more).eraseDups := by
  induction bound generalizing c words with
  | zero => cases h
  | succ bound ih =>
    obtain ⟨_, c₁, hb₁, h⟩ := bind_eq_ok.mp h
    obtain ⟨word, c₂, hw, h⟩ := bind_eq_ok.mp h
    have hrun := (longestRun_of_read hw).toRun
    split at h
    · cases h
    · rename_i hne
      obtain ⟨_, c₃, hb₂, h⟩ := bind_eq_ok.mp h
      obtain ⟨bar, c₄, ha, h⟩ := bind_eq_ok.mp h
      simp only [← eraseDups_append_singleton] at h
      have hb₂ := blanks_of_blanks hb₂
      rcases accept_eq_ok ha with ⟨rfl, hbar⟩ | ⟨rfl, hbar, -⟩
      · obtain ⟨more, rest, hmore, hrest, hout⟩ := ih _ h
        rw [hbar] at hb₂
        refine ⟨_, rest, .more (blanks_of_blanks hb₁) hrun hne hb₂ hmore, hrest, ?_⟩
        rw [hout, List.append_assoc]
        rfl
      · cases h
        rw [← hbar] at hb₂
        exact ⟨_, _, .last (blanks_of_blanks hb₁) hrun hne, hb₂, rfl⟩

theorem spellsTypes_of_typesIf {c'' : Cursor} {annotated : Bool} {names : List String}
    (ha : (accept [':'] c).result = .ok (annotated, c'))
    (h : (typesIf annotated c').result = .ok (names, c'')) :
    ∃ types rest, SpellsTypes c.rest types rest ∧ Blanks rest c''.rest ∧
      annotated = types.isSome ∧ names = types.getD [] := by
  rcases accept_eq_ok ha with ⟨rfl, hcolon⟩ | ⟨rfl, hcolon, -⟩
  · obtain ⟨words, rest, hwords, hrest, rfl⟩ := typeNames_eq_ok [] h
    rw [hcolon]
    exact ⟨_, rest, .written hwords, hrest, rfl, rfl⟩
  · cases h
    rw [hcolon]
    exact ⟨none, _, .absent _, .refl _, rfl, rfl⟩

theorem spellsVariable_of_variableBody {name : Path} {type : Option ValueType} {scope : Scope}
    (h : (variableBody c).result = .ok ((name, type, scope), c')) :
    SpellsVariable c.rest name type scope c'.rest := by
  obtain ⟨_, c₁, hb₁, h⟩ := bind_eq_ok.mp h
  obtain ⟨atRoot, c₂, hroot, h⟩ := bind_eq_ok.mp h
  obtain ⟨name', c₃, hpath, h⟩ := bind_eq_ok.mp h
  obtain ⟨_, c₄, hb₂, h⟩ := bind_eq_ok.mp h
  obtain ⟨optional, c₅, hopt, h⟩ := bind_eq_ok.mp h
  obtain ⟨_, c₆, hb₃, h⟩ := bind_eq_ok.mp h
  obtain ⟨annotated, c₇, hcolon, h⟩ := bind_eq_ok.mp h
  obtain ⟨names, c₈, hnames, h⟩ := bind_eq_ok.mp h
  obtain ⟨_, c₉, hb₄, h⟩ := bind_eq_ok.mp h
  obtain ⟨types, rest, htypes, hrest, rfl, rfl⟩ := spellsTypes_of_typesIf hcolon hnames
  have hspelled := SpellsVariable.mk (blanks_of_blanks hb₁) (optionally_of_accept hroot)
    (spellsPath_of_path hpath) (blanks_of_blanks hb₂) (optionally_of_accept hopt)
    (blanks_of_blanks hb₃) htypes (hrest.trans (blanks_of_blanks hb₄))
  cases h
  rwa [typeOf_eq] at hspelled

theorem spellsEnd_of_endTag {name : Path} (h : (endTag c).result = .ok (name, c')) :
    SpellsEnd c.rest c'.rest := by
  obtain ⟨_, c₁, ho, h⟩ := bind_eq_ok.mp h
  obtain ⟨name', c₂, hpath, h⟩ := bind_eq_ok.mp h
  obtain ⟨_, c₃, hb₁, h⟩ := bind_eq_ok.mp h
  obtain ⟨marked, c₄, hm, h⟩ := bind_eq_ok.mp h
  obtain ⟨_, c₅, hb₂, h⟩ := bind_eq_ok.mp h
  obtain ⟨_, c₆, hc, h⟩ := bind_eq_ok.mp h
  cases h
  have hb₂ := blanks_of_blanks hb₂
  rw [expect_eq_ok hc] at hb₂
  rw [expect_eq_ok ho]
  exact .mk (spellsPath_of_path hpath) (blanks_of_blanks hb₁) (optionally_of_accept hm) hb₂

/-! ### Nodes -/

variable {n : Node}

theorem spellsNode_of_variableTag {raw : Bool} (h : (variableTag raw c).result = .ok (n, c')) :
    SpellsNode c.rest n c'.rest ∧ formOf n = (if raw then .rawVar else .var) := by
  obtain ⟨_, c₁, ho, h⟩ := bind_eq_ok.mp h
  obtain ⟨⟨name, type, scope⟩, c₂, hbody, h⟩ := bind_eq_ok.mp h
  obtain ⟨_, c₃, hc, h⟩ := bind_eq_ok.mp h
  cases h
  have hbody := spellsVariable_of_variableBody hbody
  rw [expect_eq_ok hc] at hbody
  rw [expect_eq_ok ho]
  exact ⟨.var raw hbody, rfl⟩

theorem openOf_of_opening {raw : Bool} (h : (opening c).result = .ok (raw, c')) :
    c.rest = openOf raw ++ c'.rest := by
  obtain ⟨b, c₁, hraw, h⟩ := bind_eq_ok.mp h
  rcases accept_eq_ok hraw with ⟨rfl, heq⟩ | ⟨rfl, heq, -⟩
  · cases h
    exact heq
  · obtain ⟨_, c₂, ho, h⟩ := bind_eq_ok.mp h
    cases h
    exact heq.symm.trans (expect_eq_ok ho)

theorem spellsNode_of_dotTag (h : (dotTag c).result = .ok (n, c')) :
    SpellsNode c.rest n c'.rest ∧ formOf n = .dot := by
  obtain ⟨raw, c₁, ho, h⟩ := bind_eq_ok.mp h
  obtain ⟨_, c₂, hb₁, h⟩ := bind_eq_ok.mp h
  obtain ⟨_, c₃, hdot, h⟩ := bind_eq_ok.mp h
  obtain ⟨_, c₄, hb₂, h⟩ := bind_eq_ok.mp h
  obtain ⟨_, c₅, hc, h⟩ := bind_eq_ok.mp h
  cases h
  have hb₁ := blanks_of_blanks hb₁
  have hb₂ := blanks_of_blanks hb₂
  rw [expect_eq_ok hdot] at hb₁
  rw [expect_eq_ok hc] at hb₂
  rw [openOf_of_opening ho]
  exact ⟨.dot raw hb₁ hb₂, rfl⟩

theorem spellsNode_of_commentTag (h : (commentTag c).result = .ok (n, c')) :
    SpellsNode c.rest n c'.rest ∧ formOf n = .comment := by
  obtain ⟨_, c₁, ho, h⟩ := bind_eq_ok.mp h
  obtain ⟨part, c₂, hpart, h⟩ := bind_eq_ok.mp h
  obtain ⟨_, c₃, hc, h⟩ := bind_eq_ok.mp h
  cases h
  have hpart := (upTo_of_read hpart).1
  rw [expect_eq_ok hc] at hpart
  rw [expect_eq_ok ho]
  exact ⟨.comment hpart, rfl⟩

theorem spellsNode_of_referenceTag (h : (referenceTag c).result = .ok (n, c')) :
    SpellsNode c.rest n c'.rest ∧ formOf n = .reference := by
  obtain ⟨_, c₁, ho, h⟩ := bind_eq_ok.mp h
  obtain ⟨name, c₂, hpath, h⟩ := bind_eq_ok.mp h
  obtain ⟨_, c₃, hb, h⟩ := bind_eq_ok.mp h
  obtain ⟨_, c₄, hc, h⟩ := bind_eq_ok.mp h
  cases h
  have hb := blanks_of_blanks hb
  rw [expect_eq_ok hc] at hb
  rw [expect_eq_ok ho]
  exact ⟨.reference (spellsPath_of_path hpath) hb, rfl⟩

theorem spellsNode_of_plainText (h : (plainText c).result = .ok (n, c')) :
    SpellsNode c.rest n c'.rest ∧ formOf n = .text := by
  obtain ⟨part, c₁, hpart, h⟩ := bind_eq_ok.mp h
  obtain ⟨hupTo, hends⟩ := upTo_of_read hpart
  split at h
  · cases h
  · rename_i hne
    cases h
    exact ⟨.text hupTo hne hends, rfl⟩

variable {body : Parser (List Node)}
  (hbody : ∀ {c ns c'}, (body c).result = .ok (ns, c') → SpellsNodes c.rest ns c'.rest)
include hbody

theorem spellsNode_of_blockTag (h : (blockTag body c).result = .ok (n, c')) :
    SpellsNode c.rest n c'.rest ∧ formOf n = .block := by
  obtain ⟨_, c₁, ho, h⟩ := bind_eq_ok.mp h
  obtain ⟨name, c₂, hpath, h⟩ := bind_eq_ok.mp h
  obtain ⟨_, c₃, hb₁, h⟩ := bind_eq_ok.mp h
  obtain ⟨optional, c₄, hopt, h⟩ := bind_eq_ok.mp h
  obtain ⟨_, c₅, hb₂, h⟩ := bind_eq_ok.mp h
  obtain ⟨_, c₆, hc, h⟩ := bind_eq_ok.mp h
  obtain ⟨_, c₇, hlf₁, h⟩ := bind_eq_ok.mp h
  obtain ⟨content, c₈, hcontent, h⟩ := bind_eq_ok.mp h
  obtain ⟨_, c₉, hend, h⟩ := bind_eq_ok.mp h
  obtain ⟨_, c₁₀, hlf₂, h⟩ := bind_eq_ok.mp h
  cases h
  have hb₂ := blanks_of_blanks hb₂
  rw [expect_eq_ok hc] at hb₂
  rw [expect_eq_ok ho]
  exact ⟨.block (spellsPath_of_path hpath) (blanks_of_blanks hb₁) (optionally_of_accept hopt) hb₂
    (lineFeed_of_accept hlf₁) (hbody hcontent) (spellsEnd_of_endTag hend)
    (lineFeed_of_accept hlf₂), rfl⟩

theorem spellsNode_of_invertedTag (h : (invertedTag body c).result = .ok (n, c')) :
    SpellsNode c.rest n c'.rest ∧ formOf n = .inverted := by
  obtain ⟨_, c₁, ho, h⟩ := bind_eq_ok.mp h
  obtain ⟨name, c₂, hpath, h⟩ := bind_eq_ok.mp h
  obtain ⟨_, c₃, hb, h⟩ := bind_eq_ok.mp h
  obtain ⟨_, c₄, hc, h⟩ := bind_eq_ok.mp h
  obtain ⟨content, c₅, hcontent, h⟩ := bind_eq_ok.mp h
  obtain ⟨_, c₆, hend, h⟩ := bind_eq_ok.mp h
  cases h
  have hb := blanks_of_blanks hb
  rw [expect_eq_ok hc] at hb
  rw [expect_eq_ok ho]
  exact ⟨.inverted (spellsPath_of_path hpath) hb (hbody hcontent) (spellsEnd_of_endTag hend), rfl⟩

theorem spellsNode_of_form {f : Form} (h : (f.parse body c).result = .ok (n, c')) :
    SpellsNode c.rest n c'.rest ∧ formOf n = f := by
  cases f with
  | rawVar | var => exact spellsNode_of_variableTag h
  | block => exact spellsNode_of_blockTag hbody h
  | inverted => exact spellsNode_of_invertedTag hbody h
  | comment => exact spellsNode_of_commentTag h
  | reference => exact spellsNode_of_referenceTag h
  | dot => exact spellsNode_of_dotTag h
  | text => exact spellsNode_of_plainText h

omit hbody

/-- What is read by a run of nodes spells them. The run ends before an end mark inside a block, and
with the text outside. -/
theorem spellsNodes_of_nodesWithin {forms : List Form} {bound : Nat} {inside : Bool}
    {ns : List Node} (h : (nodesWithin forms bound inside c).result = .ok (ns, c')) :
    SpellsNodes c.rest ns c'.rest ∧
      if inside then endMark <+: c'.rest else c'.rest = [] := by
  induction bound generalizing inside c c' ns with
  | zero => cases h
  | succ bound ih =>
    unfold nodesWithin at h
    split at h
    · rename_i hnil
      cases inside
      · cases h
        exact ⟨.nil _, hnil⟩
      · cases h
    · split at h
      · rename_i hend
        cases h
        refine ⟨.nil _, ?_⟩
        rw [if_pos hend.1]
        exact hend.2
      · obtain ⟨first, c₁, hfirst, h⟩ := bind_eq_ok.mp h
        obtain ⟨others, c₂, hothers, h⟩ := bind_eq_ok.mp h
        cases h
        obtain ⟨f, -, hf⟩ := exists_form_of_node hfirst
        obtain ⟨hspelled, hends⟩ := ih hothers
        exact ⟨.cons (spellsNode_of_form (fun hb => (ih hb).1) hf).1 hspelled, hends⟩

end Stencil.Parser
