import Mathlib.Data.List.Chain
import Stencil.Proofs.Furthest
import Stencil.Proofs.Reading

/-!
# Rendered text is a template

When no string in the data holds an opening brace, what a template writes is a template again, of
text and the references that were written out, and it writes the same for any data
(`Template.second_pass`). No tag begins across a seam, because a run of text that something follows
does not end with a brace.
-/

namespace Stencil

open Grammar

/-! ### Text without tags -/

namespace Text

/-- No tag begins in the text. -/
def Calm (cs : List Char) : Prop := cs.IsChain fun c d => c ≠ '{' ∨ d ≠ '{'

/-- No tag begins at the end of the text, whatever comes behind. -/
def Closed (cs : List Char) : Prop := ∀ c ∈ cs.getLast?, c ≠ '{'

variable {cs ds rest : List Char}

theorem Calm.append (h : Calm cs) (hclosed : Closed cs) (h' : Calm ds) : Calm (cs ++ ds) :=
  List.isChain_append.mpr ⟨h, h', fun c hc _ _ => .inl (hclosed c hc)⟩

theorem Closed.append (h : Closed cs) (h' : Closed ds) : Closed (cs ++ ds) := by
  intro c hc
  rw [List.getLast?_append, Option.mem_def, Option.or_eq_some_iff] at hc
  rcases hc with hc | ⟨-, hc⟩
  · exact h' c hc
  · exact h c hc

theorem Closed.of_append (h : Closed (cs ++ ds)) : Closed ds := by
  intro c hc
  refine h c ?_
  rw [List.getLast?_append, Option.mem_def.mp hc]
  rfl

theorem closed_nil : Closed [] := nofun

theorem calm_of_not_mem (h : '{' ∉ cs) : Calm cs := by
  induction cs with
  | nil => exact .nil
  | cons c cs ih =>
    refine List.isChain_cons.mpr ⟨fun _ _ => .inl ?_, ih fun hm => h (List.mem_cons_of_mem _ hm)⟩
    exact (List.ne_of_not_mem_cons h).symm

theorem closed_of_not_mem (h : '{' ∉ cs) : Closed cs := by
  rintro c hc rfl
  exact h (List.mem_of_getLast? hc)

theorem openMark_prefix_cons {c : Char} {x : List Char} :
    Parser.openMark <+: c :: x ↔ c = '{' ∧ x.head? = some '{' := by
  cases x <;> simp [Parser.openMark, eq_comm]

/-- Text goes up to where the next tag begins exactly if no tag begins before. -/
theorem upTo_iff_calm :
    UpTo Parser.openMark (cs ++ rest) cs rest ↔ Calm (cs ++ rest.take 1) := by
  induction cs with
  | nil =>
    refine ⟨fun _ => ?_, fun _ => ⟨rfl, nofun⟩⟩
    cases rest with
    | nil => exact .nil
    | cons c rest => exact .singleton c
  | cons c cs ih =>
    have hhead : (cs ++ rest.take 1).head? = (cs ++ rest).head? := by
      simp [List.head?_append, List.head?_take]
    have hcalm : Calm (c :: (cs ++ rest.take 1)) ↔
        ¬ Parser.openMark <+: c :: (cs ++ rest) ∧ Calm (cs ++ rest.take 1) := by
      rw [openMark_prefix_cons, ← hhead, Calm, List.isChain_cons]
      refine and_congr ⟨?_, ?_⟩ Iff.rfl
      · rintro h ⟨hc, hd⟩
        exact (h _ hd).elim (· hc) (· rfl)
      · exact fun h d hd => or_iff_not_imp_left.mpr fun hc hd' =>
          h ⟨not_not.mp hc, hd' ▸ hd⟩
    rw [List.cons_append, List.cons_append, hcalm, ← ih]
    constructor
    · rintro ⟨-, h⟩
      exact ⟨h 0 (Nat.zero_lt_succ _), rfl, fun n hn => h (n + 1) (Nat.succ_lt_succ hn)⟩
    · rintro ⟨h₀, -, h⟩
      refine ⟨rfl, fun n hn => ?_⟩
      cases n with
      | zero => exact h₀
      | succ n => exact h n (Nat.lt_of_succ_lt_succ hn)

theorem upTo_of_calm (h : Calm cs) (hclosed : Closed cs) :
    UpTo Parser.openMark (cs ++ rest) cs rest := by
  refine upTo_iff_calm.mpr (h.append hclosed ?_)
  cases rest with
  | nil => exact .nil
  | cons c rest => exact .singleton c

theorem calm_of_upTo {x : List Char} (h : UpTo Parser.openMark x cs rest) : Calm cs := by
  obtain ⟨rfl⟩ := h.text_eq
  exact (List.isChain_append.mp (upTo_iff_calm.mp h)).1

/-- Text in front of a tag is closed, or the tag would begin a character before. -/
theorem closed_of_upTo {x : List Char} (h : UpTo Parser.openMark x cs rest)
    (hrest : Parser.openMark <+: rest) : Closed cs := by
  obtain ⟨rfl⟩ := h.text_eq
  obtain ⟨back, rfl⟩ := hrest
  obtain ⟨-, -, hseam⟩ := List.isChain_append.mp (upTo_iff_calm.mp h)
  exact fun c hc => (hseam c hc '{' rfl).resolve_right (not_not_intro rfl)

end Text

open Text

/-! ### Text with references -/

/-- The text refers to the names, with text between the references in which no tag begins. -/
inductive RefersTo : List Char → List Path → Prop
  | nothing {cs : List Char} (calm : Calm cs) : RefersTo cs []
  | reference {part cs : List Char} {name : Path} {names : List Path} (calm : Calm part)
      (closed : Closed part) (words : Parser.PathInWords name) (rest : RefersTo cs names) :
      RefersTo (part ++ (name.reference.toList ++ cs)) (name :: names)

namespace RefersTo

variable {cs ds : List Char} {names others : List Path} {name : Path}

theorem append (h : RefersTo cs names) (hclosed : Closed cs) (h' : RefersTo ds others) :
    RefersTo (cs ++ ds) (names ++ others) := by
  induction h with
  | nothing calm =>
    cases h' with
    | nothing calm' => exact .nothing (calm.append hclosed calm')
    | reference calm' closed' words rest =>
      -- the end of the one text and the beginning of the other are one text
      rw [← List.append_assoc]
      exact .reference (calm.append hclosed calm') (hclosed.append closed') words rest
  | reference calm closed words _ ih =>
    rw [List.append_assoc, List.append_assoc]
    exact .reference calm closed words (ih hclosed.of_append.of_append)

theorem of_name (words : Parser.PathInWords name) : RefersTo name.reference.toList [name] := by
  have h : RefersTo ([] ++ (name.reference.toList ++ [])) [name] :=
    .reference .nil closed_nil words (.nothing .nil)
  rwa [List.nil_append, List.append_nil] at h

end RefersTo

/-- The path of a reference, if the node is one. -/
def Node.reference? : Node → Option Path
  | .reference name => some name
  | _ => none

/-- The node is text or a reference, so it prints the same for any data. -/
def Node.isInert : Node → Bool
  | .text _ | .reference _ => true
  | _ => false

theorem segmentsOf_toString {name : Path} (h : Parser.PathInWords name) :
    Path.segmentsOf name.toString.toList = name.segments :=
  Parser.segmentsOf_join fun s hs =>
    ⟨(h s hs).1, fun hdot => absurd ((h s hs).2 '.' hdot) (by decide)⟩

theorem Text.mem_intercalate {sep : List Char} {c : Char} :
    ∀ {parts : List (List Char)}, c ∈ sep.intercalate parts → c ∈ sep ∨ ∃ part ∈ parts, c ∈ part
  | [part], h => .inr ⟨part, List.mem_singleton_self _, by simpa using h⟩
  | part :: next :: parts, h => by
    rw [List.intercalate_cons_cons, List.append_assoc, List.mem_append, List.mem_append] at h
    rcases h with h | h | h
    · exact .inr ⟨part, List.mem_cons_self .., h⟩
    · exact .inl h
    · refine (mem_intercalate h).imp_right ?_
      exact fun ⟨other, ho, hc⟩ => ⟨other, List.mem_cons_of_mem _ ho, hc⟩

theorem isPathChar_of_mem_toString {name : Path} (h : Parser.PathInWords name) :
    ∀ c ∈ name.toString.toList, Parser.isPathChar c = true := by
  intro c hc
  rw [Path.toString, Path.join, String.toList_intercalate] at hc
  rcases mem_intercalate hc with hc | ⟨cs, hcs, hc⟩
  · cases List.mem_singleton.mp hc
    decide
  · obtain ⟨s, hs, rfl⟩ := List.mem_map.mp hcs
    simp [Parser.isPathChar, (h s hs).2 c hc]

theorem toList_reference (name : Path) :
    name.reference.toList =
      '{' :: '{' :: '>' :: ' ' :: (name.toString.toList ++ [' ', '}', '}']) := by
  simp [Path.reference]

theorem blanks_blank (x : List Char) : Blanks (' ' :: x) x :=
  ⟨[' '], rfl, List.forall_mem_singleton.mpr rfl⟩

/-- A reference that was written out is read again, whatever comes behind. -/
theorem spellsNode_reference {name : Path} (h : Parser.PathInWords name) (rest : List Char) :
    SpellsNode (name.reference.toList ++ rest) (.reference name) rest := by
  have hsegments := segmentsOf_toString h
  have hpath : SpellsPath (' ' :: (name.toString.toList ++ ' ' :: '}' :: '}' :: rest)) name
      (' ' :: '}' :: '}' :: rest) := by
    refine .mk (blanks_blank _) ⟨⟨rfl, isPathChar_of_mem_toString h⟩, ?_⟩ ?_ hsegments.symm
    · rintro c hc
      cases hc
      decide
    · exact Parser.exists_ne_dot_of_segmentsOf (hsegments ▸ name.segments_ne_nil)
  rw [toList_reference]
  simpa using SpellsNode.reference hpath (blanks_blank _)

/-- The nodes are text and references to the names, and print the text that spells them. -/
structure Rereads (cs : List Char) (names : List Path) (ns : List Node) : Prop where
  spelled : SpellsNodes cs ns []
  inert : ∀ n ∈ ns, n.isInert = true
  names : ns.filterMap Node.reference? = names
  printed : ∀ root here, (renderAll root here ns).toList = cs

namespace Rereads

variable {cs part : List Char} {names : List Path} {name : Path} {ns : List Node}

theorem nil : Rereads [] [] [] := ⟨.nil [], nofun, rfl, fun _ _ => rfl⟩

theorem reference (words : Parser.PathInWords name) (h : Rereads cs names ns) :
    Rereads (name.reference.toList ++ cs) (name :: names) (.reference name :: ns) := by
  refine ⟨.cons (spellsNode_reference words cs) h.spelled, ?_, ?_, fun root here => ?_⟩
  · exact List.forall_mem_cons.mpr ⟨rfl, h.inert⟩
  · exact congrArg (name :: ·) h.names
  · rw [renderAll, String.toList_append, h.printed]
    rfl

theorem text (upTo : UpTo Parser.openMark (part ++ cs) part cs)
    (ends : cs = [] ∨ Parser.openMark <+: cs) (h : Rereads cs names ns) :
    ∃ ms, Rereads (part ++ cs) names ms := by
  by_cases hpart : part = []
  · exact ⟨ns, by rwa [hpart]⟩
  · refine ⟨.text (String.ofList part) :: ns, .cons (.text upTo hpart ends) h.spelled, ?_, ?_,
      fun root here => ?_⟩
    · exact List.forall_mem_cons.mpr ⟨rfl, h.inert⟩
    · exact h.names
    · rw [renderAll, String.toList_append, h.printed, Node.render, String.toList_ofList]

end Rereads

/-- Text with references is a template. -/
theorem RefersTo.exists_rereads {cs : List Char} {names : List Path} (h : RefersTo cs names) :
    ∃ ns, Rereads cs names ns := by
  induction h with
  | @nothing cs calm =>
    have hupTo : UpTo Parser.openMark (cs ++ []) cs [] := upTo_iff_calm.mpr (by simpa using calm)
    simpa using Rereads.nil.text hupTo (.inl rfl)
  | @reference part cs name names calm closed words _ ih =>
    obtain ⟨ns, hns⟩ := ih
    refine (hns.reference words).text (upTo_of_calm calm closed) (.inr ?_)
    rw [toList_reference]
    exact List.prefix_append Parser.openMark _

/-! ### Data without opening braces -/

/-- No string in the data, at any depth, holds an opening brace. -/
inductive Value.Braceless : Value → Prop
  | null : Braceless .null
  | bool (b : Bool) : Braceless (.bool b)
  | number (x : Number) : Braceless (.number x)
  | string {s : String} (h : '{' ∉ s.toList) : Braceless (.string s)
  | list {items : List Value} (h : ∀ v ∈ items, Braceless v) : Braceless (.list items)
  | map {entries : List (String × Value)} (h : ∀ e ∈ entries, Braceless e.2) :
      Braceless (.map entries)

theorem Decimal.not_mem_positional (d : Decimal) : '{' ∉ d.positional := by
  have hdigits : '{' ∉ Nat.toDigits 10 d.digits := fun h =>
    absurd (Nat.isDigit_of_mem_toDigits (by decide) (by decide) h) (by decide)
  unfold positional
  split
  · simp [hdigits]
  · rename_i n _
    have hpadded : '{' ∉ List.replicate (n + 1 + 1 - (Nat.toDigits 10 d.digits).length) '0' ++
        Nat.toDigits 10 d.digits := by simp [hdigits]
    unfold withPoint
    rw [List.mem_append, List.mem_cons]
    rintro (h | h | h)
    · exact hpadded (List.mem_of_mem_take h)
    · exact absurd h (by decide)
    · exact hpadded (List.mem_of_mem_drop h)

theorem Number.not_mem_print (x : Number) : '{' ∉ x.print := by
  have hpositional := x.magnitude.not_mem_positional
  unfold print
  split
  · decide
  · split
    · decide
    · rw [List.mem_append]
      rintro (h | h)
      · split at h
        · exact absurd h (by decide)
        · cases h
      · split at h
        · exact absurd h (by decide)
        · exact hpositional h

theorem Text.Markup.not_mem_escape {s : String} (h : '{' ∉ s.toList) :
    '{' ∉ (escape s).toList := by
  have hspelling : ∀ c, '{' ∈ spelling c → c = '{' := fun c hc => by
    unfold spelling at hc
    split at hc
    all_goals first
      | exact absurd hc (by decide)
      | exact (List.mem_singleton.mp hc).symm
  rw [toList_escape]
  intro hc
  obtain ⟨c, hmem, hc⟩ := List.mem_flatMap.mp hc
  exact h (hspelling c hc ▸ hmem)

namespace Value

variable {v w : Value}

theorem mem_contexts {found : Option Value} (h : w ∈ contexts found) :
    found = some w ∨ ∃ items, found = some (.list items) ∧ w ∈ items := by
  unfold contexts at h
  split at h
  · exact .inr ⟨_, rfl, h⟩
  · split at h
    · exact .inl (congrArg some (List.mem_singleton.mp h).symm)
    · cases h
  · cases h

namespace Braceless

theorem not_mem_print (h : v.Braceless) : '{' ∉ v.print.toList := by
  induction h with
  | null => decide
  | bool b => cases b <;> decide
  | map => exact List.not_mem_nil
  | number x => simpa [print] using x.not_mem_print
  | string h => exact h
  | list _ ih =>
    rw [print, String.toList_intercalate, printAll_eq_map, List.map_map]
    intro hc
    rcases mem_intercalate hc with hc | ⟨cs, hcs, hc⟩
    · exact absurd hc (by decide)
    · obtain ⟨v, hv, rfl⟩ := List.mem_map.mp hcs
      exact ih v hv hc

theorem resolve? (h : v.Braceless) {path : List String} (hw : v.resolve? path = some w) :
    w.Braceless := by
  induction path generalizing v with
  | nil => cases hw; exact h
  | cons segment path ih =>
    unfold Value.resolve? at hw
    split at hw
    · cases hw
      exact h
    · obtain ⟨u, hu, hw⟩ := Option.bind_eq_some_iff.mp hw
      refine ih ?_ hw
      cases h with
      | null | bool | number | string => cases hu
      | list h =>
        obtain ⟨i, -, hi⟩ := Option.bind_eq_some_iff.mp hu
        exact h u (List.mem_of_getElem? hi)
      | map h => exact h _ (Entries.mem_of_lookup hu)

theorem of_mem_contexts (h : v.Braceless) {path : List String}
    (hw : w ∈ contexts (v.resolve? path)) : w.Braceless := by
  rcases mem_contexts hw with hfound | ⟨items, hfound, hmem⟩
  · exact h.resolve? hfound
  · cases h.resolve? hfound with | list hitems =>
    exact hitems w hmem

/-- What a tag prints for a value holds no brace either. -/
theorem not_mem_place {raw : Bool} {found : Option Value}
    (h : ∀ w, found = some w → w.Braceless) : '{' ∉ (place raw found).toList := by
  unfold place
  split
  · rename_i w
    have hprint := (h w rfl).not_mem_print
    split
    · exact hprint
    · exact Text.Markup.not_mem_escape hprint
  · exact List.not_mem_nil

end Braceless

end Value

/-! ### What a template writes -/

mutual

/-- The references that a node writes out, in their order. -/
def Node.emitted (root context : Value) : Node → List Path
  | .block name content _ =>
    (Value.contexts (context.resolve? name.segments)).flatMap fun item =>
      emittedAll root item content
  | .inverted name content =>
    if Value.isPresent (context.resolve? name.segments) then [] else emittedAll root context content
  | .reference name => [name]
  | .text _ | .var .. | .dot _ | .comment _ => []

def emittedAll (root context : Value) : List Node → List Path
  | [] => []
  | n :: ns => n.emitted root context ++ emittedAll root context ns

end

/-- The references that rendering writes out, in their order. -/
def Template.emitted (t : Template) (data : Value) : List Path := emittedAll data data t.nodes

/-- What was written refers to the names, and it is closed if something follows in the template. -/
structure Writes (written : String) (names : List Path) (following : List Char) : Prop where
  refers : RefersTo written.toList names
  closed : following ≠ [] → Closed written.toList

namespace Writes

variable {s t : String} {names others : List Path} {x y z : List Char} {name : Path}

theorem of_not_mem (h : '{' ∉ s.toList) : Writes s [] y :=
  ⟨.nothing (calm_of_not_mem h), fun _ => closed_of_not_mem h⟩

theorem append (h : Writes s names x) (hx : x ≠ []) (h' : Writes t others y) :
    Writes (s ++ t) (names ++ others) y := by
  constructor
  · rw [String.toList_append]
    exact h.refers.append (h.closed hx) h'.refers
  · intro hy
    rw [String.toList_append]
    exact (h.closed hx).append (h'.closed hy)

theorem weaken (h : Writes s names x) (hx : x ≠ []) : Writes s names y :=
  ⟨h.refers, fun _ => h.closed hx⟩

theorem join {α : Type} {items : List α} {text : α → String} {refs : α → List Path}
    (hx : x ≠ []) (h : ∀ item ∈ items, Writes (text item) (refs item) x) :
    Writes (String.join (items.map text)) (items.flatMap refs) y := by
  induction items with
  | nil => exact of_not_mem List.not_mem_nil
  | cons item items ih =>
    obtain ⟨hitem, hitems⟩ := List.forall_mem_cons.mp h
    rw [List.map_cons, String.join_cons, List.flatMap_cons]
    exact hitem.append hx (ih hitems)

theorem of_reference (words : Parser.PathInWords name) : Writes name.reference [name] y := by
  refine ⟨.of_name words, fun _ c hc => ?_⟩
  have hlast : name.reference.toList.getLast? = some '}' := by
    rw [toList_reference]
    simp [List.getLast?_append, List.getLast?_cons]
  cases hlast.symm.trans hc
  decide

end Writes

theorem pathInWords_of_spellsPath {name : Path} {x y : List Char} (h : SpellsPath x name y) :
    Parser.PathInWords name := by
  obtain ⟨-, run, -, segments⟩ := h
  exact fun s hs => Parser.isWord_of_mem_segmentsOf run.all (segments ▸ hs)

theorem eq_nil_of_spellsNodes {ns : List Node} {y : List Char} (h : SpellsNodes [] ns y) :
    ns = [] ∧ y = [] := by
  cases h with
  | nil => exact ⟨rfl, rfl⟩
  | cons first => exact absurd rfl (ne_nil_of_spellsNode first)

theorem ne_nil_of_spellsEnd {x y : List Char} (h : SpellsEnd x y) : x ≠ [] := by
  cases h
  exact List.cons_ne_nil _ _

section
variable {root : Value}

mutual

/-- A spelled node writes references with calm text between them. -/
theorem writes_of_spellsNode (hroot : root.Braceless) {here : Value} (hhere : here.Braceless)
    {x : List Char} {n : Node} {y : List Char} :
    SpellsNode x n y → Writes (n.render root here) (n.emitted root here) y
  | .text upTo _ ends => by
    refine ⟨.nothing ?_, fun hy => ?_⟩
    · simpa [Node.render] using calm_of_upTo upTo
    · simpa [Node.render] using closed_of_upTo upTo (ends.resolve_left hy)
  | @SpellsNode.var _ _ _ _ scope raw _ => by
    refine .of_not_mem (Value.Braceless.not_mem_place fun w hw => ?_)
    cases scope
    · exact hhere.resolve? hw
    · exact hroot.resolve? hw
  | .dot raw _ _ =>
    .of_not_mem (Value.Braceless.not_mem_place fun w hw => Option.some.inj hw ▸ hhere)
  | .comment _ => .of_not_mem List.not_mem_nil
  | .reference path _ => .of_reference (pathInWords_of_spellsPath path)
  | .block _ _ _ _ _ content close _ =>
    .join (ne_nil_of_spellsEnd close) fun _ hitem =>
      writes_of_spellsNodes hroot (hhere.of_mem_contexts hitem) content
  | .inverted _ _ content close => by
    have hcontent := writes_of_spellsNodes hroot hhere content
    unfold Node.render Node.emitted
    split
    · exact .of_not_mem List.not_mem_nil
    · exact hcontent.weaken (ne_nil_of_spellsEnd close)

theorem writes_of_spellsNodes (hroot : root.Braceless) {here : Value} (hhere : here.Braceless)
    {x : List Char} {ns : List Node} {y : List Char} :
    SpellsNodes x ns y → Writes (renderAll root here ns) (emittedAll root here ns) y
  | .nil _ => .of_not_mem List.not_mem_nil
  | @SpellsNodes.cons _ z _ _ _ first others => by
    have hfirst := writes_of_spellsNode hroot hhere first
    have hothers := writes_of_spellsNodes hroot hhere others
    unfold renderAll emittedAll
    by_cases hz : z = []
    · -- the first node is the last one as well
      subst hz
      obtain ⟨rfl, rfl⟩ := eq_nil_of_spellsNodes others
      rw [emittedAll, List.append_nil, renderAll, String.append_empty]
      exact hfirst
    · exact hfirst.append hz hothers

end

end

theorem Template.parse_eq_ok {source : String} {t : Template} :
    Template.parse source = .ok t ↔
      t.source = source ∧ (Parser.parseWith Parser.Form.all source).result = .ok t.nodes := by
  rw [Template.parse, Outcome.bind_eq_ok]
  constructor
  · rintro ⟨ns, hns, h⟩
    cases h
    exact ⟨rfl, hns⟩
  · rintro ⟨rfl, hns⟩
    exact ⟨_, hns, rfl⟩

/-- When no string in the data holds an opening brace, what a template writes is a template of text
and references, those that were written out, and prints as it stands for any data. -/
theorem Template.second_pass {source : String} {t : Template} {data : Value}
    (h : Template.parse source = .ok t) (hdata : data.Braceless) :
    ∃ u, Template.parse (t.render data) = .ok u ∧ (∀ n ∈ u.nodes, n.isInert = true) ∧
      u.nodes.filterMap Node.reference? = t.emitted data ∧
      ∀ other, u.render other = t.render data := by
  have hspelled := (Parser.parseWith_eq_ok_iff Parser.Form.mem_all).mp (Template.parse_eq_ok.mp h).2
  have hwrites := writes_of_spellsNodes hdata hdata hspelled
  obtain ⟨ns, hns⟩ := hwrites.refers.exists_rereads
  have hparse := (Parser.parseWith_eq_ok_iff Parser.Form.mem_all).mpr hns.spelled
  exact ⟨⟨t.render data, ns⟩, Template.parse_eq_ok.mpr ⟨rfl, hparse⟩, hns.inert, hns.names,
    fun other => String.toList_inj.mp (hns.printed other other)⟩

/-- The content of a block begins with a reference and ends with a brace and a blank; its items are
followed by a closing brace. -/
theorem Template.second_pass_items :
    let row : Path := ⟨["row"], by simp⟩
    let source := "\x7b\x7b#a\x7d\x7d\x7b\x7b>row\x7d\x7d\x7b \x7b\x7b/a\x7d\x7d" ++
      "\x7b\x7b!-\x7d\x7d\x7b\x7bb\x7d\x7d"
    let t : Template := ⟨source, [.block ⟨["a"], by simp⟩ [.reference row, .text "\x7b "] false,
      .comment "-", .var ⟨["b"], by simp⟩ false none .context]⟩
    let data : Value := .map [("a", .list [.null, .bool true]), ("b", .string "\x7d")]
    Template.parse source = .ok t ∧ data.Braceless ∧ t.emitted data = [row, row] ∧
      ∃ u, Template.parse (t.render data) = .ok u ∧ (∀ n ∈ u.nodes, n.isInert = true) ∧
        u.nodes.filterMap Node.reference? = t.emitted data ∧
        ∀ other, u.render other = t.render data := by
  intro row source t data
  have h : Template.parse source = .ok t := by decide +kernel
  have hdata : data.Braceless := by
    refine .map (List.forall_mem_cons.mpr ⟨.list ?_, List.forall_mem_singleton.mpr (.string ?_)⟩)
    · exact List.forall_mem_cons.mpr ⟨.null, List.forall_mem_singleton.mpr (.bool true)⟩
    · decide
  exact ⟨h, hdata, rfl, Template.second_pass h hdata⟩

end Stencil
