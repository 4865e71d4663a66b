import Stencil.Parser.Progress
import Stencil.Template

/-!
# What a parsed template is written in

Every name in a tag of a parsed template, at any depth, is a chain of words, and so is every type
name (`Template.inWords_of_parse`). `Gives P p` says that whatever `p` reads has the property `P`.
-/

namespace Stencil

namespace Node

mutual

/-- `P` holds of the node and of all nodes inside it. -/
def Each (P : Node → Prop) : Node → Prop
  | .text s => P (.text s)
  | .var n r a s => P (.var n r a s)
  | .dot r => P (.dot r)
  | .block n c o => P (.block n c o) ∧ EachOf P c
  | .inverted n c => P (.inverted n c) ∧ EachOf P c
  | .comment s => P (.comment s)
  | .reference n => P (.reference n)

/-- `P` holds of all nodes of a run, at any depth. -/
def EachOf (P : Node → Prop) : List Node → Prop
  | [] => True
  | n :: ns => n.Each P ∧ EachOf P ns

end

end Node

namespace Parser

variable {α β : Type} {P : α → Prop} {Q : β → Prop} {p : Parser α}

def IsWord (s : String) : Prop := s ≠ "" ∧ ∀ c ∈ s.toList, isWordChar c = true

instance (s : String) : Decidable (IsWord s) :=
  decidable_of_iff (s ≠ "" ∧ s.toList.all isWordChar = true) (and_congr_right fun _ =>
    List.all_eq_true)

/-- Whatever `p` reads has the property `P`. -/
def Gives (P : α → Prop) (p : Parser α) : Prop := ∀ c a c', (p c).result = .ok (a, c') → P a

namespace Gives

theorem any (p : Parser α) : Gives (fun _ => True) p := fun _ _ _ _ => trivial

theorem pure {a : α} (h : P a) : Gives P (Pure.pure a : Parser α) := by
  intro c a' c' h'
  cases h'
  exact h

theorem raise (cause : Cause) : Gives P (Parser.raise cause : Parser α) := by
  intro c a c' h
  cases h

theorem bind {f : α → Parser β} (hp : Gives P p) (hf : ∀ a, P a → Gives Q (f a)) :
    Gives Q (p >>= f) := by
  intro c b c'' h
  obtain ⟨a, c', ha, hb⟩ := bind_eq_ok.mp h
  exact hf a (hp c a c' ha) c' b c'' hb

theorem after {f : α → Parser β} (hf : ∀ a, Gives Q (f a)) : Gives Q (p >>= f) :=
  (any p).bind fun a _ => hf a

theorem ite {q : Parser α} {b : Prop} [Decidable b] (hp : b → Gives P p) (hq : ¬ b → Gives P q) :
    Gives P (if b then p else q) := by
  split
  · exact hp ‹_›
  · exact hq ‹_›

theorem takeWhile (test : Char → Bool) :
    Gives (fun cs => ∀ c ∈ cs, test c = true) (read (List.takeWhile test)) := by
  intro c cs c' h
  cases h
  exact List.all_eq_true.mp List.all_takeWhile

end Gives

/-! ### Words in tags -/

/-- The pieces between separators have the characters of the text, without the separators. -/
theorem mem_of_mem_splitOn {sep : Char} {cs piece : List Char} (h : piece ∈ cs.splitOn sep) :
    ∀ c ∈ piece, c ∈ cs ∧ c ≠ sep := by
  induction cs generalizing piece with
  | nil =>
    rw [List.splitOn_nil, List.mem_singleton] at h
    rw [h]
    exact fun c hc => nomatch hc
  | cons d cs ih =>
    have hcs : ∀ q ∈ cs.splitOn sep, ∀ c ∈ q, c ∈ d :: cs ∧ c ≠ sep := fun q hq c hc =>
      ⟨List.mem_cons_of_mem _ (ih hq c hc).1, (ih hq c hc).2⟩
    rw [List.splitOn_cons_eq_if_modifyHead] at h
    split at h
    · rcases List.mem_cons.mp h with rfl | h
      · exact fun c hc => nomatch hc
      · exact hcs piece h
    · rename_i hd
      obtain ⟨q, qs, hq⟩ := List.exists_cons_of_ne_nil (List.splitOn_ne_nil sep cs)
      rw [hq] at h hcs
      rcases List.mem_cons.mp h with rfl | h
      · intro c hc
        rcases List.mem_cons.mp hc with rfl | hc
        · exact ⟨List.mem_cons_self .., by simpa using hd⟩
        · exact hcs q (List.mem_cons_self ..) c hc
      · exact hcs piece (List.mem_cons_of_mem _ h)

/-- Names without dots are read again from the text of their chain. -/
theorem segmentsOf_join {names : List String} (h : ∀ s ∈ names, s ≠ "" ∧ '.' ∉ s.toList) :
    Path.segmentsOf (Path.join names).toList = names := by
  cases names with
  | nil => rfl
  | cons name rest =>
    have hsplit : (Path.join (name :: rest)).toList.splitOn '.' =
        (name :: rest).map String.toList := by
      rw [Path.join, String.toList_intercalate]
      refine List.splitOn_intercalate '.' (fun cs hcs => ?_) (List.cons_ne_nil _ _)
      obtain ⟨s, hs, rfl⟩ := List.mem_map.mp hcs
      exact (h s hs).2
    rw [Path.segmentsOf, hsplit, List.filter_eq_self.mpr fun cs hcs => ?_, List.map_map]
    · simp [Function.comp_def]
    · obtain ⟨s, hs, rfl⟩ := List.mem_map.mp hcs
      simpa using (h s hs).1

theorem isWord_of_mem_segmentsOf {raw : List Char} (hraw : ∀ c ∈ raw, isPathChar c = true)
    {s : String} (hs : s ∈ Path.segmentsOf raw) : IsWord s := by
  obtain ⟨piece, hp, rfl⟩ := List.mem_map.mp hs
  obtain ⟨hp, hne⟩ := List.mem_filter.mp hp
  have hne : piece ≠ [] := by simpa using hne
  refine ⟨by simpa using hne, fun c hc => ?_⟩
  rw [String.toList_ofList] at hc
  obtain ⟨hc, hdot⟩ := mem_of_mem_splitOn hp c hc
  have := hraw c hc
  simp only [isPathChar, Bool.or_eq_true, beq_iff_eq] at this
  exact this.resolve_right hdot

def PathInWords (p : Path) : Prop := ∀ s ∈ p.segments, IsWord s

/-- What the tag of the node itself names is in words. -/
def TagInWords : Node → Prop
  | .text _ | .dot _ | .comment _ => True
  | .var name _ type _ => PathInWords name ∧ ∀ t ∈ type, ∀ s ∈ t.alternatives, IsWord s
  | .block name _ _ | .inverted name _ | .reference name => PathInWords name

theorem gives_path : Gives PathInWords path := by
  unfold path
  refine .after fun _ => .bind (.takeWhile isPathChar) fun raw hraw => .ite (fun _ => .raise _)
    fun _ => ?_
  cases hp : Path.ofSegments? (Path.segmentsOf raw) with
  | none => exact .raise _
  | some p =>
    refine .pure fun s hs => isWord_of_mem_segmentsOf hraw ?_
    rwa [← Path.ofSegments?_eq_some_iff.mp hp]

theorem gives_typeNames (bound : Nat) : ∀ seen, (∀ s ∈ seen, IsWord s) →
    Gives (fun names => ∀ s ∈ names, IsWord s) (typeNames bound seen) := by
  induction bound with
  | zero => intro seen _; exact .raise _
  | succ bound ih =>
    intro seen hseen
    unfold typeNames
    refine .after fun _ => .bind (.takeWhile isWordChar) fun word hword => .ite (fun _ => .raise _)
      fun hne => ?_
    have hnew : IsWord (String.ofList word) := ⟨by simpa using hne, by simpa using hword⟩
    have hall : ∀ s ∈ (if String.ofList word ∈ seen then seen else seen ++ [String.ofList word]),
        IsWord s := by
      split
      · exact hseen
      · intro s hs
        rcases List.mem_append.mp hs with hs | hs
        · exact hseen s hs
        · exact List.mem_singleton.mp hs ▸ hnew
    exact .after fun _ => .after fun _ => .ite (fun _ => ih _ hall) fun _ => .pure hall

theorem gives_typesIf (annotated : Bool) :
    Gives (fun names => ∀ s ∈ names, IsWord s) (typesIf annotated) :=
  .ite (fun _ c => gives_typeNames _ [] (fun _ hs => nomatch hs) c)
    fun _ => .pure fun _ hs => nomatch hs

theorem gives_variableTag (raw : Bool) : Gives (Node.Each TagInWords) (variableTag raw) := by
  have hbody : Gives (fun x : Path × Option ValueType × Scope =>
      PathInWords x.1 ∧ ∀ t ∈ x.2.1, ∀ s ∈ t.alternatives, IsWord s) variableBody := by
    unfold variableBody
    refine .after fun _ => .after fun _ => .bind gives_path fun name hname => .after fun _ =>
      .after fun _ => .after fun _ => .after fun _ => .bind (gives_typesIf _) fun types htypes =>
      .after fun _ => .pure ⟨hname, fun t ht => ?_⟩
    split at ht
    · cases ht; exact htypes
    · cases ht
  unfold variableTag
  exact .after fun _ => .bind hbody fun _ h => .after fun _ => .pure h

variable {body : Parser (List Node)}

theorem gives_blockTag (h : Gives (Node.EachOf TagInWords) body) :
    Gives (Node.Each TagInWords) (blockTag body) := by
  unfold blockTag
  exact .after fun _ => .bind gives_path fun _ hname => .after fun _ => .after fun _ =>
    .after fun _ => .after fun _ => .after fun _ => .bind h fun _ hcontent => .after fun _ =>
    .after fun _ => .pure ⟨hname, hcontent⟩

theorem gives_invertedTag (h : Gives (Node.EachOf TagInWords) body) :
    Gives (Node.Each TagInWords) (invertedTag body) := by
  unfold invertedTag
  exact .after fun _ => .bind gives_path fun _ hname => .after fun _ => .after fun _ =>
    .bind h fun _ hcontent => .after fun _ => .pure ⟨hname, hcontent⟩

theorem gives_referenceTag : Gives (Node.Each TagInWords) referenceTag := by
  unfold referenceTag
  exact .after fun _ => .bind gives_path fun _ hname => .after fun _ => .after fun _ => .pure hname

theorem gives_commentTag : Gives (Node.Each TagInWords) commentTag := by
  unfold commentTag
  exact .after fun _ => .after fun _ => .after fun _ => .pure trivial

theorem gives_dotTag : Gives (Node.Each TagInWords) dotTag := by
  unfold dotTag
  exact .after fun _ => .after fun _ => .after fun _ => .after fun _ => .after fun _ =>
    .pure trivial

theorem gives_plainText : Gives (Node.Each TagInWords) plainText := by
  unfold plainText
  exact .after fun _ => .ite (fun _ => .raise _) fun _ => .pure trivial

theorem gives_form (h : Gives (Node.EachOf TagInWords) body) (f : Form) :
    Gives (Node.Each TagInWords) (f.parse body) := by
  cases f with
  | rawVar | var => exact gives_variableTag _
  | block => exact gives_blockTag h
  | inverted => exact gives_invertedTag h
  | comment => exact gives_commentTag
  | reference => exact gives_referenceTag
  | dot => exact gives_dotTag
  | text => exact gives_plainText

theorem gives_node (forms : List Form) (h : Gives (Node.EachOf TagInWords) body) :
    Gives (Node.Each TagInWords) (node forms body) := by
  intro c n c' hc
  obtain ⟨f, -, hf⟩ := exists_form_of_node hc
  exact gives_form h f c n c' hf

theorem gives_nodesWithin (forms : List Form) (bound : Nat) :
    ∀ inside, Gives (Node.EachOf TagInWords) (nodesWithin forms bound inside) := by
  induction bound with
  | zero => intro inside; exact .raise _
  | succ bound ih =>
    intro inside c
    unfold nodesWithin
    split
    · split
      · exact Gives.raise _ c
      · exact Gives.pure (P := Node.EachOf TagInWords) (a := []) trivial c
    · split
      · exact Gives.pure (P := Node.EachOf TagInWords) (a := []) trivial c
      · exact Gives.bind (gives_node forms (ih true)) (fun _ hn =>
          .bind (ih inside) fun _ hns => .pure ⟨hn, hns⟩) c

end Parser

/-- All names and types in the tags of a parsed template are words. -/
theorem Template.inWords_of_parse {source : String} {t : Template}
    (h : Template.parse source = .ok t) : Node.EachOf Parser.TagInWords t.nodes := by
  unfold Template.parse Parser.parseWith at h
  rw [Traced.result_bind] at h
  cases hr : (Parser.nodes Parser.Form.all false (.start source)).result with
  | error e => rw [hr] at h; cases h
  | ok x =>
    obtain ⟨ns, c⟩ := x
    rw [hr] at h
    cases h
    exact Parser.gives_nodesWithin _ _ false _ _ _ hr

end Stencil
