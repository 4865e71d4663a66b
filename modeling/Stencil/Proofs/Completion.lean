import Stencil.Proofs.Concatenation

/-!
# Texts that end too early

That the text ends too early is told at its very end, and only of texts that could go on: some text
behind it makes it a template (`Template.parse_completed`). What is put behind begins with a blank.
So it continues neither a path nor a word, and a brace at the end of text does not become a part of
the tag that closes a block.
-/

namespace Stencil

open Grammar Text

variable {α β : Type}

/-! ### Where the end is told -/

/-- The offset of the end of the text. -/
def Cursor.stop (c : Cursor) : Nat := c.position.offset + byteSize c.rest

theorem Cursor.stop_skip (c : Cursor) (k : Nat) : (c.skip k).stop = c.stop := by
  have hsize : byteSize (c.rest.take k) + byteSize (c.rest.drop k) = byteSize c.rest := by
    rw [← byteSize_append, List.take_append_drop]
  rw [stop, stop, offset_skip, rest_skip, Nat.add_assoc]
  exact congrArg _ hsize

theorem Cursor.stop_start (s : String) : (Cursor.start s).stop = s.utf8ByteSize := by
  rw [stop, start, byteSize_toList]
  exact Nat.zero_add _

namespace Parser

variable {p : Parser α} {body : Parser (List Node)} {forms : List Form}

/-- The text left after a success still ends at `stop`, and that it ends too early is told there. -/
inductive Late (stop : Nat) : Except ParseError (α × Cursor) → Prop
  | ok (a : α) {c : Cursor} (h : c.stop = stop) : Late stop (.ok (a, c))
  | error {e : ParseError} (h : ∀ hint, e.cause = .endOfText hint → e.offset = stop) :
      Late stop (.error e)

theorem Late.raise {c : Cursor} (cause : Cause) (h : c.rest = []) :
    Late c.stop ((Parser.raise cause : Parser α) c).result :=
  .error fun _ _ => by rw [Cursor.stop, h]; rfl

/-- The parser tells that the text ends too early only where it ends. -/
def TellsLate (p : Parser α) : Prop := ∀ c, Late c.stop (p c).result

namespace TellsLate

theorem raise {cause : Cause} (h : ∀ hint, cause ≠ .endOfText hint) :
    TellsLate (Parser.raise cause : Parser α) :=
  fun _ => .error fun hint he => absurd he (h hint)

theorem bind {f : α → Parser β} (hp : TellsLate p) (hf : ∀ a, TellsLate (f a)) :
    TellsLate (p >>= f) := by
  intro c
  have hresult := hp c
  rw [bind_apply, Traced.result_bind]
  generalize (p c).result = r at hresult ⊢
  cases hresult with
  | ok a h => exact h ▸ hf a _
  | error h => exact .error h

end TellsLate

theorem missing_ne_endOfText {mark rest : List Char} {hint : String} (h : rest ≠ []) :
    missing mark rest ≠ .endOfText hint := by
  rw [missing, if_neg h]
  nofun

theorem Direct.tellsLate (h : Direct body p) (hbody : TellsLate body) : TellsLate p := by
  induction h with
  | pure a => exact fun c => .ok a rfl
  | raise _ hend => exact .raise hend
  | read _ => exact fun c => .ok _ (c.stop_skip _)
  | accept mark =>
    intro c
    unfold Parser.accept
    split
    · exact .ok true (c.stop_skip _)
    · exact .ok false rfl
  | expect mark =>
    intro c
    unfold Parser.expect
    split
    · exact .ok () (c.stop_skip _)
    · by_cases hrest : c.rest = []
      · exact .raise _ hrest
      · exact TellsLate.raise (fun _ => missing_ne_endOfText hrest) c
  | body => exact hbody
  | look _ ih => exact fun c => ih c.rest c
  | bind _ _ ihp ihf => exact ihp.bind ihf

theorem late_firstOf {ps : List (Parser α)} (hps : ∀ p ∈ ps, TellsLate p) {c : Cursor}
    {e : ParseError} (he : ∀ hint, e.cause = .endOfText hint → e.offset = c.stop) :
    Late c.stop (firstOf e ps c).result := by
  cases hr : (firstOf e ps c).result with
  | ok x =>
    obtain ⟨p, hp, hpc⟩ := exists_of_firstOf hr
    exact hpc ▸ hps p hp c
  | error e' =>
    rcases (firstOf_eq_error hr).1 with rfl | ⟨p, hp, hpc⟩
    · exact .error he
    · exact hpc ▸ hps p hp c

theorem tellsLate_node (hbody : TellsLate body) : TellsLate (node forms body) := by
  intro c
  have hforms : ∀ p ∈ forms.map (Form.parse body), TellsLate p := fun p hp => by
    obtain ⟨f, -, rfl⟩ := List.mem_map.mp hp
    exact (direct_form f).tellsLate hbody
  unfold node
  rw [Traced.result_bind]
  exact late_firstOf hforms nofun

theorem tellsLate_nodesWithin (bound : Nat) :
    ∀ inside, TellsLate (nodesWithin forms bound inside) := by
  induction bound with
  | zero => exact fun _ => .raise nofun
  | succ bound ih =>
    intro inside c
    unfold nodesWithin
    split
    · rename_i hrest
      split
      · exact .raise _ hrest
      · exact .ok [] rfl
    · split
      · exact .ok [] rfl
      · exact TellsLate.bind (tellsLate_node (ih true))
          (fun n => (ih inside).bind fun ns c => .ok (n :: ns) rfl) c

/-! ### Where parsers run out of text -/

/-- The parser fails because the text ends too early. -/
def RunsOut (p : Parser α) (c : Cursor) : Prop :=
  ∃ e hint, (p c).result = .error e ∧ e.cause = .endOfText hint

/-- The parser never fails because the text ends too early. -/
def Enough (p : Parser α) : Prop := ∀ c, ¬ RunsOut p c

variable {c c' : Cursor}

theorem runsOut_bind {f : α → Parser β} (h : RunsOut (p >>= f) c) :
    RunsOut p c ∨ ∃ a c', (p c).result = .ok (a, c') ∧ RunsOut (f a) c' := by
  obtain ⟨e, hint, he, hcause⟩ := h
  rw [bind_apply, Traced.result_bind] at he
  rcases Outcome.bind_eq_error.mp he with he | ⟨⟨a, c'⟩, ha, he⟩
  · exact .inl ⟨e, hint, he, hcause⟩
  · exact .inr ⟨a, c', ha, e, hint, he, hcause⟩

theorem rest_of_runsOut_expect {mark : List Char} (h : RunsOut (expect mark) c) : c.rest = [] := by
  obtain ⟨e, hint, he, hcause⟩ := h
  unfold expect at he
  split at he
  · cases he
  · by_contra hrest
    cases he
    exact missing_ne_endOfText hrest hcause

namespace Enough

theorem pure (a : α) : Enough (Pure.pure a : Parser α) := by
  rintro c ⟨e, hint, he, -⟩
  cases he

theorem raise {cause : Cause} (h : ∀ hint, cause ≠ .endOfText hint) :
    Enough (Parser.raise cause : Parser α) := by
  rintro c ⟨e, hint, he, hcause⟩
  cases he
  exact h hint hcause

theorem read (select : List Char → List Char) : Enough (Parser.read select) := by
  rintro c ⟨e, hint, he, -⟩
  cases he

theorem accept (mark : List Char) : Enough (Parser.accept mark) := by
  rintro c ⟨e, hint, he, -⟩
  unfold Parser.accept at he
  split at he <;> cases he

theorem bind {f : α → Parser β} (hp : Enough p) (hf : ∀ a, Enough (f a)) : Enough (p >>= f) :=
  fun c h => (runsOut_bind h).elim (hp c) fun ⟨a, c', _, h⟩ => hf a c' h

theorem ite {q : Parser α} {b : Prop} [Decidable b] (hp : Enough p) (hq : Enough q) :
    Enough (if b then p else q) := by
  split
  · exact hp
  · exact hq

/-- It is what comes behind that runs out of text. -/
theorem exists_of_bind {f : α → Parser β} (hp : Enough p) (h : RunsOut (p >>= f) c) :
    ∃ a c', (p c).result = .ok (a, c') ∧ RunsOut (f a) c' :=
  (runsOut_bind h).resolve_left (hp c)

end Enough

theorem enough_blanks : Enough blanks := .bind (.read _) fun _ => .pure _

theorem enough_path : Enough path := by
  unfold path
  refine .bind enough_blanks fun _ => .bind (.read _) fun raw => .ite (.raise nofun) ?_
  cases Path.ofSegments? (Path.segmentsOf raw) with
  | none => exact .raise nofun
  | some p => exact .pure p

theorem enough_typeNames (bound : Nat) : ∀ seen, Enough (typeNames bound seen) := by
  induction bound with
  | zero => exact fun _ => .raise nofun
  | succ bound ih =>
    intro seen
    unfold typeNames
    exact .bind enough_blanks fun _ => .bind (.read _) fun word => .ite (.raise nofun) <|
      .bind enough_blanks fun _ => .bind (.accept _) fun _ => .ite (ih _) (.pure _)

theorem enough_typesIf (annotated : Bool) : Enough (typesIf annotated) :=
  .ite (fun c => enough_typeNames _ [] c) (.pure _)

theorem enough_variableBody : Enough variableBody := by
  unfold variableBody
  exact .bind enough_blanks fun _ => .bind (.accept _) fun _ => .bind enough_path fun _ =>
    .bind enough_blanks fun _ => .bind (.accept _) fun _ => .bind enough_blanks fun _ =>
    .bind (.accept _) fun _ => .bind (enough_typesIf _) fun _ => .bind enough_blanks fun _ =>
    .pure _

theorem enough_plainText : Enough plainText :=
  .bind (.read _) fun _ => .ite (.raise nofun) (.pure _)

end Parser

/-! ### Spellings that a blank and more complete -/

namespace Grammar

section
variable {x y part mark : List Char} {name : Path} {n : Node}

theorem apart_blank (t : List Char) : Apart (' ' :: t) := by
  intro c hc
  cases hc
  decide

theorem Blanks.completed (h : Blanks x []) (y : List Char) : Blanks (x ++ ' ' :: y) y :=
  (h.append (' ' :: y)).trans (blanks_blank y)

theorem SpellsVariable.completed {type : Option ValueType} {scope : Scope}
    (h : SpellsVariable x name type scope []) (y : List Char) :
    SpellsVariable (x ++ ' ' :: y) name type scope y := by
  obtain ⟨b₁, root, path, b₂, opt, b₃, typed, b₄⟩ := h.append_apart (apart_blank y)
  exact .mk b₁ root path b₂ opt b₃ typed (b₄.trans (blanks_blank y))

/-- The blank keeps what is behind it from beginning a mark further in front. -/
theorem UpTo.completed (h : UpTo mark x part []) (hmark : ' ' ∉ mark) (hne : mark ≠ [])
    (y : List Char) : UpTo mark (x ++ ' ' :: y) (part ++ [' ']) y := by
  obtain ⟨hx, hfirst⟩ := h
  rw [List.append_nil] at hx
  subst hx
  refine ⟨by simp, fun n hn hprefix => ?_⟩
  rw [List.length_append, List.length_singleton] at hn
  rw [List.drop_append_of_le_length (by omega)] at hprefix
  rcases Nat.lt_or_ge (x.drop n).length mark.length with hlt | hle
  · -- the mark reaches over the blank
    have hblank : x.drop n ++ [' '] <+: mark := by
      refine List.prefix_of_prefix_length_le ?_ hprefix ?_
      · exact (List.prefix_append_right_inj _).mpr ⟨y, rfl⟩
      · rw [List.length_append]
        exact hlt
    exact hmark (hblank.subset (by simp))
  · have hinside : mark <+: x.drop n :=
      List.prefix_of_prefix_length_le hprefix (List.prefix_append ..) hle
    refine hfirst n ?_ hinside
    by_contra hge
    rw [List.drop_eq_nil_of_le (by omega)] at hinside
    exact hne (List.prefix_nil.mp hinside)

/-- A tag that ends a block. Its path need not be that of the block. -/
def closing : List Char := Parser.endMark ++ 'a' :: Parser.closeMark

theorem spellsEnd_closing (y : List Char) : SpellsEnd (closing ++ y) y := by
  have hrun : LongestRun Parser.isPathChar ('a' :: (Parser.closeMark ++ y)) ['a']
      (Parser.closeMark ++ y) := by
    refine ⟨⟨rfl, List.forall_mem_singleton.mpr (by decide)⟩, fun c hc => ?_⟩
    cases hc
    decide
  have hpath : SpellsPath ('a' :: (Parser.closeMark ++ y)) ⟨["a"], by simp⟩
      (Parser.closeMark ++ y) :=
    .mk (.refl _) hrun ⟨'a', List.mem_singleton_self _, by decide⟩ (by decide)
  exact .mk hpath (.refl _) (.absent _) (.refl _)

theorem endMark_prefix_closing (y : List Char) : Parser.endMark <+: closing ++ y :=
  ⟨'a' :: (Parser.closeMark ++ y), rfl⟩

/-- The text is the beginning of a node: with a blank and more behind it, it spells one. -/
def StartsNode (x : List Char) : Prop := ∃ t n, ∀ z, SpellsNode (x ++ ' ' :: (t ++ z)) n z

/-- The text is the beginning of a run of nodes, to the end of the block around them or, outside of
blocks, of the text. -/
def StartsNodes (inside : Bool) (x : List Char) : Prop :=
  ∃ t ns, ∀ z, (if inside then Parser.endMark <+: z else z = []) →
    SpellsNodes (x ++ ' ' :: (t ++ z)) ns z

/-- The text is the beginning of the content of a block and of the tag that ends it. -/
def StartsContent (x : List Char) : Prop :=
  ∃ t ns, ∀ z, ∃ y, SpellsNodes (x ++ ' ' :: (t ++ z)) ns y ∧ SpellsEnd y z

theorem StartsNode.nodes (h : StartsNode x) (inside : Bool) : StartsNodes inside x := by
  obtain ⟨t, n, h⟩ := h
  exact ⟨t, [n], fun z _ => .cons (h z) (.nil z)⟩

theorem StartsNodes.cons {inside : Bool} (h : StartsNodes inside y) (first : SpellsNode x n y)
    (hy : y ≠ []) : StartsNodes inside x := by
  obtain ⟨t, ns, h⟩ := h
  exact ⟨t, n :: ns, fun z hz => .cons (first.append_apart (apart_blank _) (.inl hy)) (h z hz)⟩

/-- At the end of the text, inside a block, text is made longer by the blank. -/
theorem spellsNode_text_completed (h : UpTo Parser.openMark x part []) {z : List Char}
    (hz : Parser.endMark <+: z) :
    SpellsNode (x ++ ' ' :: z) (.text (String.ofList (part ++ [' ']))) z :=
  .text (h.completed (by decide) (by decide) z) (by simp)
    (.inr ((List.prefix_append Parser.openMark ['/']).trans hz))

theorem startsNodes_nil : StartsNodes true [] := by
  have hempty : UpTo Parser.openMark [] [] [] := ⟨rfl, fun n hn => absurd hn n.not_lt_zero⟩
  exact ⟨[], _, fun z hz => .cons (spellsNode_text_completed hempty hz) (.nil z)⟩

/-- Behind the last node the blank is a text of its own, or belongs to the text that is there. -/
theorem startsNodes_of_spellsNode (h : SpellsNode x n []) : StartsNodes true x := by
  by_cases hn : ∃ s, n = .text s
  · obtain ⟨s, rfl⟩ := hn
    cases h with
    | text upTo => exact ⟨[], _, fun z hz => .cons (spellsNode_text_completed upTo hz) (.nil z)⟩
  · obtain ⟨t, ns, hblank⟩ := startsNodes_nil
    have hn : ∀ s, n ≠ .text s := fun s hs => hn ⟨s, hs⟩
    exact ⟨t, n :: ns, fun z hz =>
      .cons (h.append_apart (apart_blank _) (.inr (.inl hn))) (hblank z hz)⟩

end

end Grammar

namespace Parser

variable {c : Cursor}

theorem rest_of_runsOut_close {mark : List Char} {a : α}
    (h : RunsOut (expect mark >>= fun _ => pure a) c) : c.rest = [] := by
  rcases runsOut_bind h with h | ⟨_, c', -, h⟩
  · exact rest_of_runsOut_expect h
  · exact absurd h (Enough.pure a c')

/-- Where the text goes on, only what comes behind a mark can run out of it. -/
theorem exists_of_expect {mark : List Char} {f : Unit → Parser α} (hne : c.rest ≠ [])
    (h : RunsOut (expect mark >>= f) c) :
    ∃ c', c.rest = mark ++ c'.rest ∧ RunsOut (f ()) c' := by
  obtain ⟨_, c', ho, h⟩ := (runsOut_bind h).resolve_left fun h => hne (rest_of_runsOut_expect h)
  exact ⟨c', expect_eq_ok ho, h⟩

theorem startsNode_of_variableTag {raw : Bool} (hne : c.rest ≠ [])
    (h : RunsOut (variableTag raw) c) : StartsNode c.rest := by
  obtain ⟨c₁, hopen, h⟩ := exists_of_expect hne h
  obtain ⟨⟨name, type, scope⟩, c₂, hbody, h⟩ := enough_variableBody.exists_of_bind h
  have hbody := spellsVariable_of_variableBody hbody
  rw [rest_of_runsOut_close h] at hbody
  rw [hopen]
  refine ⟨closeOf raw, .var name raw type scope, fun z => ?_⟩
  rw [List.append_assoc]
  exact .var raw (hbody.completed _)

theorem startsNode_of_dotTag (hne : c.rest ≠ []) (h : RunsOut dotTag c) : StartsNode c.rest := by
  have hopening : ¬ RunsOut opening c := fun h => by
    obtain ⟨raw, c', ha, h⟩ := (Enough.accept _).exists_of_bind h
    cases raw with
    | true => exact Enough.pure true c' h
    | false =>
      rcases accept_eq_ok ha with ⟨⟨⟩, -⟩ | ⟨-, hrest, -⟩
      exact hne (hrest ▸ rest_of_runsOut_close h)
  obtain ⟨raw, c₁, ho, h⟩ := (runsOut_bind h).resolve_left hopening
  obtain ⟨_, c₂, hb₁, h⟩ := enough_blanks.exists_of_bind h
  have hb₁ := blanks_of_blanks hb₁
  rw [openOf_of_opening ho]
  rcases runsOut_bind h with h | ⟨_, c₃, hdot, h⟩
  · -- the dot is missing
    rw [rest_of_runsOut_expect h] at hb₁
    refine ⟨'.' :: closeOf raw, .dot raw, fun z => ?_⟩
    rw [List.append_assoc]
    exact .dot raw (hb₁.completed _) (.refl _)
  · obtain ⟨_, c₄, hb₂, h⟩ := enough_blanks.exists_of_bind h
    have hb₂ := blanks_of_blanks hb₂
    rw [rest_of_runsOut_close h] at hb₂
    rw [expect_eq_ok hdot] at hb₁
    refine ⟨closeOf raw, .dot raw, fun z => ?_⟩
    rw [List.append_assoc]
    exact .dot raw (hb₁.append _) (hb₂.completed _)

theorem startsNode_of_commentTag (hne : c.rest ≠ []) (h : RunsOut commentTag c) :
    StartsNode c.rest := by
  obtain ⟨c₁, hopen, h⟩ := exists_of_expect hne h
  obtain ⟨part, c₂, hpart, h⟩ := (Enough.read _).exists_of_bind h
  have hpart := (upTo_of_read hpart).1
  rw [rest_of_runsOut_close h] at hpart
  rw [hopen]
  exact ⟨closeMark, _, fun z => .comment (hpart.completed (by decide) (by decide) _)⟩

theorem startsNode_of_referenceTag (hne : c.rest ≠ []) (h : RunsOut referenceTag c) :
    StartsNode c.rest := by
  obtain ⟨c₁, hopen, h⟩ := exists_of_expect hne h
  obtain ⟨name, c₂, hpath, h⟩ := enough_path.exists_of_bind h
  obtain ⟨_, c₃, hb, h⟩ := enough_blanks.exists_of_bind h
  have hb := blanks_of_blanks hb
  rw [rest_of_runsOut_close h] at hb
  rw [hopen]
  exact ⟨closeMark, .reference name, fun z =>
    .reference ((spellsPath_of_path hpath).append_apart (apart_blank _)) (hb.completed _)⟩

theorem spellsEnd_of_runsOut (hne : c.rest ≠ []) (h : RunsOut endTag c) (z : List Char) :
    SpellsEnd (c.rest ++ ' ' :: (closeMark ++ z)) z := by
  obtain ⟨c₁, hopen, h⟩ := exists_of_expect hne h
  obtain ⟨name, c₂, hpath, h⟩ := enough_path.exists_of_bind h
  obtain ⟨_, c₃, hb₁, h⟩ := enough_blanks.exists_of_bind h
  obtain ⟨marked, c₄, hm, h⟩ := (Enough.accept _).exists_of_bind h
  obtain ⟨_, c₅, hb₂, h⟩ := enough_blanks.exists_of_bind h
  have hb₂ := blanks_of_blanks hb₂
  rw [rest_of_runsOut_close h] at hb₂
  rw [hopen, List.append_assoc]
  exact .mk ((spellsPath_of_path hpath).append_apart (apart_blank _))
    ((blanks_of_blanks hb₁).append _) ((optionally_of_accept hm).append _) (hb₂.completed _)

section
variable {body : Parser (List Node)}
  (hspells : ∀ {c ns c'}, (body c).result = .ok (ns, c') →
    SpellsNodes c.rest ns c'.rest ∧ endMark <+: c'.rest)
  (hruns : ∀ {c}, RunsOut body c → StartsNodes true c.rest)
include hspells hruns

/-- The text ends inside the content of a block, or inside the tag that ends it. -/
theorem startsContent_of_body {f : List Node → Path → Parser α} (hf : ∀ ns name, Enough (f ns name))
    (h : RunsOut (body >>= fun ns => endTag >>= f ns) c) : StartsContent c.rest := by
  rcases runsOut_bind h with h | ⟨content, c', hcontent, h⟩
  · obtain ⟨t, ns, h⟩ := hruns h
    refine ⟨t ++ closing, ns, fun z => ⟨closing ++ z, ?_, spellsEnd_closing z⟩⟩
    rw [List.append_assoc]
    exact h _ (endMark_prefix_closing z)
  · obtain ⟨hspelled, hend⟩ := hspells hcontent
    have hne : c'.rest ≠ [] := fun hnil => by
      rw [hnil] at hend
      cases List.prefix_nil.mp hend
    rcases runsOut_bind h with h | ⟨name, c'', -, h⟩
    · exact ⟨closeMark, content, fun z => ⟨_, hspelled.append_apart (apart_blank _) (.inl hne),
        spellsEnd_of_runsOut hne h z⟩⟩
    · exact absurd h (hf content name c'')

theorem startsNode_of_blockTag (hne : c.rest ≠ []) (h : RunsOut (blockTag body) c) :
    StartsNode c.rest := by
  obtain ⟨c₁, hopen, h⟩ := exists_of_expect hne h
  obtain ⟨name, c₂, hpath, h⟩ := enough_path.exists_of_bind h
  obtain ⟨_, c₃, hb₁, h⟩ := enough_blanks.exists_of_bind h
  obtain ⟨optional, c₄, hopt, h⟩ := (Enough.accept _).exists_of_bind h
  obtain ⟨_, c₅, hb₂, h⟩ := enough_blanks.exists_of_bind h
  have hpath := fun t => (spellsPath_of_path hpath).append_apart (apart_blank t)
  have hb₁ := fun t => (blanks_of_blanks hb₁).append t
  have hopt := fun t => (optionally_of_accept hopt).append t
  have hb₂ := blanks_of_blanks hb₂
  rw [hopen]
  rcases runsOut_bind h with h | ⟨_, c₆, hclose, h⟩
  · -- the tag itself is not finished, so the block can be left empty
    rw [rest_of_runsOut_expect h] at hb₂
    refine ⟨closeMark ++ closing ++ ['\n'], .block name [] optional, fun z => ?_⟩
    simp only [List.append_assoc]
    exact .block (hpath _) (hb₁ _) (hopt _) (hb₂.completed _)
      (.absent (by simp [closing, endMark])) (.nil _) (spellsEnd_closing _) (.written z)
  · obtain ⟨_, c₇, hlf, h⟩ := (Enough.accept _).exists_of_bind h
    have hafter : ∀ (ns : List Node) (_ : Path), Enough (do
        let _ ← accept ['\n']
        pure (Node.block name ns optional)) := fun ns _ => .bind (.accept _) fun _ => .pure _
    obtain ⟨t, content, h⟩ := startsContent_of_body hspells hruns hafter h
    rw [expect_eq_ok hclose] at hb₂
    refine ⟨t ++ ['\n'], .block name content optional, fun z => ?_⟩
    obtain ⟨y, hcontent, hend⟩ := h ('\n' :: z)
    have hclosed := hb₂.append (' ' :: (t ++ '\n' :: z))
    rw [List.append_assoc] at hclosed
    rw [List.append_assoc t]
    exact .block (hpath _) (hb₁ _) (hopt _) hclosed
      ((lineFeed_of_accept hlf).append_apart (apart_blank _)) hcontent hend (.written z)

theorem startsNode_of_invertedTag (hne : c.rest ≠ []) (h : RunsOut (invertedTag body) c) :
    StartsNode c.rest := by
  obtain ⟨c₁, hopen, h⟩ := exists_of_expect hne h
  obtain ⟨name, c₂, hpath, h⟩ := enough_path.exists_of_bind h
  obtain ⟨_, c₃, hb, h⟩ := enough_blanks.exists_of_bind h
  have hpath := fun t => (spellsPath_of_path hpath).append_apart (apart_blank t)
  have hb := blanks_of_blanks hb
  rw [hopen]
  rcases runsOut_bind h with h | ⟨_, c₄, hclose, h⟩
  · rw [rest_of_runsOut_expect h] at hb
    refine ⟨closeMark ++ closing, .inverted name [], fun z => ?_⟩
    rw [List.append_assoc]
    exact .inverted (hpath _) (hb.completed _) (.nil _) (spellsEnd_closing z)
  · obtain ⟨t, content, h⟩ := startsContent_of_body hspells hruns (fun _ _ => .pure _) h
    rw [expect_eq_ok hclose] at hb
    refine ⟨t, .inverted name content, fun z => ?_⟩
    obtain ⟨y, hcontent, hend⟩ := h z
    have hclosed := hb.append (' ' :: (t ++ z))
    rw [List.append_assoc] at hclosed
    exact .inverted (hpath _) hclosed hcontent hend

theorem startsNode_of_form {f : Form} (hne : c.rest ≠ []) (h : RunsOut (f.parse body) c) :
    StartsNode c.rest := by
  cases f with
  | rawVar | var => exact startsNode_of_variableTag hne h
  | block => exact startsNode_of_blockTag hspells hruns hne h
  | inverted => exact startsNode_of_invertedTag hspells hruns hne h
  | comment => exact startsNode_of_commentTag hne h
  | reference => exact startsNode_of_referenceTag hne h
  | dot => exact startsNode_of_dotTag hne h
  | text => exact absurd h (enough_plainText c)

theorem startsNode_of_node {forms : List Form} (hne : c.rest ≠ [])
    (h : RunsOut (node forms body) c) : StartsNode c.rest := by
  obtain ⟨e, hint, he, hcause⟩ := h
  unfold node at he
  rw [Traced.result_bind] at he
  rcases (firstOf_eq_error he).1 with rfl | ⟨p, hp, hpc⟩
  · cases hcause
  · obtain ⟨f, -, rfl⟩ := List.mem_map.mp hp
    exact startsNode_of_form hspells hruns hne ⟨e, hint, hpc, hcause⟩

end

theorem enough_nodesWithin_zero (forms : List Form) (inside : Bool) :
    Enough (nodesWithin forms 0 inside) := by
  unfold nodesWithin
  refine .raise fun hint h => ?_
  cases h

/-- Outside of blocks the end of the text is no surprise. -/
theorem rest_ne_nil_of_runsOut {forms : List Form} {bound : Nat}
    (h : RunsOut (nodesWithin forms bound false) c) : c.rest ≠ [] := fun hnil => by
  cases bound with
  | zero => exact enough_nodesWithin_zero forms false c h
  | succ bound =>
    rw [nodesWithin_succ] at h
    have h : RunsOut (nodesFrom forms bound false c) c := h
    rw [nodesFrom, if_pos hnil] at h
    exact Enough.pure [] c h

/-- A run of nodes that runs out of text has read the beginning of such a run. -/
theorem startsNodes_of_nodesWithin {forms : List Form} {bound : Nat} {inside : Bool}
    (h : RunsOut (nodesWithin forms bound inside) c) : StartsNodes inside c.rest := by
  induction bound generalizing inside c with
  | zero => exact absurd h (enough_nodesWithin_zero forms inside c)
  | succ bound ih =>
    rw [nodesWithin_succ] at h
    have h : RunsOut (nodesFrom forms bound inside c) c := h
    unfold nodesFrom at h
    split at h
    · rename_i hnil
      cases inside with
      | true => exact hnil ▸ startsNodes_nil
      | false => exact absurd h (Enough.pure [] c)
    · rename_i hne
      split at h
      · exact absurd h (Enough.pure [] c)
      · rcases runsOut_bind h with h | ⟨n, c', hn, h⟩
        · exact (startsNode_of_node spellsNodes_of_nodesWithin ih hne h).nodes inside
        · obtain ⟨f, -, hf⟩ := exists_form_of_node hn
          have hfirst := (spellsNode_of_form (fun hb => (spellsNodes_of_nodesWithin hb).1) hf).1
          have h : RunsOut (nodesWithin forms bound inside) c' :=
            (runsOut_bind h).resolve_right fun ⟨_, c'', _, h⟩ => Enough.pure _ c'' h
          by_cases hrest : c'.rest = []
          · cases inside with
            | true => exact startsNodes_of_spellsNode (hrest ▸ hfirst)
            | false => exact absurd hrest (rest_ne_nil_of_runsOut h)
          · exact (ih h).cons hfirst hrest

end Parser

/-! ### Templates -/

/-- A text that is refused because it ends too early is refused at its end, and is the beginning of
a template. -/
theorem Template.parse_completed {s hint : String} {e : ParseError}
    (h : Template.parse s = .error e) (he : e.cause = .endOfText hint) :
    e.offset = s.utf8ByteSize ∧ ∃ t a, Template.parse (s ++ t) = .ok a := by
  have hnodes := Template.parse_eq_error_iff.mp h
  constructor
  · have hlate : Parser.Late (Cursor.start s).stop
        (Parser.nodes Parser.Form.all false (.start s)).result :=
      Parser.tellsLate_nodesWithin _ false _
    rw [hnodes, Cursor.stop_start] at hlate
    cases hlate with
    | error hlate => exact hlate hint he
  · obtain ⟨t, ns, hspelled⟩ := Parser.startsNodes_of_nodesWithin ⟨e, hint, hnodes, he⟩
    refine ⟨String.ofList (' ' :: t), ⟨_, ns⟩, Template.parse_eq_ok.mpr ⟨rfl, ?_⟩⟩
    refine (Parser.parseWith_eq_ok_iff Parser.Form.mem_all).mpr ?_
    have hwhole : SpellsNodes (s.toList ++ ' ' :: (t ++ [])) ns [] := hspelled [] rfl
    rwa [List.append_nil, ← String.toList_ofList (l := ' ' :: t), ← String.toList_append] at hwhole

/-- The text stops inside two blocks, with a brace that must not join those of the tag to come. -/
theorem Template.parse_completed_brace :
    let s := "\x7b\x7b#a?\x7d\x7d\né\x7b\x7b^b\x7d\x7d\x7b\x7b!c\x7d\x7d\x7b"
    let e : ParseError := ⟨2, 16, 23, .endBefore (some "\x7b\x7b/")⟩
    Template.parse s = .error e ∧ e.offset = s.utf8ByteSize ∧
      ∃ t a, Template.parse (s ++ t) = .ok a := by
  intro s e
  have h : Template.parse s = .error e := by decide +kernel
  exact ⟨h, Template.parse_completed h rfl⟩

end Stencil
