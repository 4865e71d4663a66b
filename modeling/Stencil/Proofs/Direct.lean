import Stencil.Parser.Progress

/-!
# Parsers that go straight on

Apart from `node`, which tries forms one after the other, all parsers look, move and stop, and never
go back: they are `Direct`. Blocks leave their content to a parser `body`, so every form is direct
with `body` as one more step. What holds of the steps holds of such parsers by one induction.
-/

namespace Stencil

/-! ### Going forward -/

namespace Cursor

/-- The second cursor is some characters further on, within the text left. -/
def Ahead (c c' : Cursor) : Prop := ∃ k ≤ c.rest.length, c' = c.skip k

theorem offset_skip (c : Cursor) (k : Nat) : (c.skip k).position.offset =
    c.position.offset + (String.ofList (c.rest.take k)).utf8ByteSize :=
  Position.offset_advance ..

theorem offset_lt_skip {c : Cursor} {k : Nat} (h : c.rest ≠ []) (hk : 0 < k) :
    c.position.offset < (c.skip k).position.offset := by
  obtain ⟨a, x, hx⟩ := List.exists_cons_of_ne_nil h
  obtain ⟨l, rfl⟩ : ∃ l, k = l + 1 := ⟨k - 1, by omega⟩
  have ha := Char.utf8Size_pos a
  rw [offset_skip, hx, List.take_succ_cons, String.ofList_cons, String.utf8ByteSize_append,
    String.utf8ByteSize_singleton]
  omega

theorem offset_skip_lt {c : Cursor} {k l : Nat} (hkl : k < l) (hl : l ≤ c.rest.length) :
    (c.skip k).position.offset < (c.skip l).position.offset := by
  obtain ⟨m, rfl⟩ := Nat.exists_eq_add_of_lt hkl
  rw [Nat.add_assoc, ← skip_skip]
  refine offset_lt_skip ?_ (Nat.succ_pos m)
  rw [rest_skip, ne_eq, List.drop_eq_nil_iff]
  omega

namespace Ahead

variable {c c' c'' : Cursor}

theorem refl (c : Cursor) : c.Ahead c := ⟨0, Nat.zero_le _, c.skip_zero.symm⟩

theorem trans (h : c.Ahead c') (h' : c'.Ahead c'') : c.Ahead c'' := by
  obtain ⟨k, hk, rfl⟩ := h
  obtain ⟨l, hl, rfl⟩ := h'
  rw [rest_skip, List.length_drop] at hl
  exact ⟨k + l, by omega, skip_skip ..⟩

theorem offset_le (h : c.Ahead c') : c.position.offset ≤ c'.position.offset := by
  obtain ⟨k, -, rfl⟩ := h
  rw [offset_skip]
  exact Nat.le_add_right ..

theorem length_le (h : c.Ahead c') : c'.rest.length ≤ c.rest.length := by
  obtain ⟨k, -, rfl⟩ := h
  simp

end Ahead

end Cursor

namespace Parser

/-- The cause of the error that a node falls back to. -/
def noForm : Cause := .expected "a tag or text"

/-- The parser looks, moves, stops and reads a `body`, one after the other. -/
inductive Direct (body : Parser (List Node)) : {α : Type} → Parser α → Prop
  | pure {α : Type} (a : α) : Direct body (Pure.pure a : Parser α)
  /-- Only where a mark is expected can the text turn out to end too early. -/
  | raise {α : Type} {cause : Cause} (h : cause ≠ noForm) (hend : ∀ hint, cause ≠ .endOfText hint) :
      Direct body (raise cause : Parser α)
  | read {select : List Char → List Char} (h : ∀ cs, select cs <+: cs) : Direct body (read select)
  | accept (mark : List Char) : Direct body (accept mark)
  | expect (mark : List Char) : Direct body (expect mark)
  | body : Direct body body
  /-- How to go on may depend on the text left, but not on the position. -/
  | look {α : Type} {f : List Char → Parser α} (h : ∀ x, Direct body (f x)) :
      Direct body fun c => f c.rest c
  | bind {α β : Type} {p : Parser α} {f : α → Parser β} (hp : Direct body p)
      (hf : ∀ a, Direct body (f a)) : Direct body (p >>= f)

variable {α : Type} {body : Parser (List Node)}

namespace Direct

theorem ite {p q : Parser α} {b : Prop} [Decidable b] (hp : Direct body p) (hq : Direct body q) :
    Direct body (if b then p else q) := by
  split
  · exact hp
  · exact hq

theorem takeWhile (test : Char → Bool) : Direct body (Parser.read (List.takeWhile test)) :=
  .read fun _ => List.takeWhile_prefix _

theorem before (mark : List Char) : Direct body (Parser.read (Text.before mark)) :=
  .read fun _ => Text.before_isPrefix ..

end Direct

/-! ### The parts of tags -/

theorem direct_blanks : Direct body blanks := .bind (.takeWhile _) fun _ => .pure _

theorem direct_path : Direct body path := by
  unfold path
  refine .bind direct_blanks fun _ => .bind (.takeWhile _) fun raw =>
    .ite (.raise (by decide) nofun) ?_
  cases Path.ofSegments? (Path.segmentsOf raw) with
  | none => exact .raise (by decide) nofun
  | some p => exact .pure p

theorem direct_typeNames (bound : Nat) : ∀ seen, Direct body (typeNames bound seen) := by
  induction bound with
  | zero => exact fun _ => .raise (by decide) nofun
  | succ bound ih =>
    intro seen
    unfold typeNames
    exact .bind direct_blanks fun _ => .bind (.takeWhile _) fun word =>
      .ite (.raise (by decide) nofun) <| .bind direct_blanks fun _ => .bind (.accept _) fun _ =>
        .ite (ih _) (.pure _)

theorem direct_typesIf (annotated : Bool) : Direct body (typesIf annotated) :=
  .ite (.look (f := fun x => typeNames (x.length + 1) []) fun _ => direct_typeNames _ _)
    (.pure _)

theorem direct_variableBody : Direct body variableBody := by
  unfold variableBody
  exact .bind direct_blanks fun _ => .bind (.accept _) fun _ => .bind direct_path fun _ =>
    .bind direct_blanks fun _ => .bind (.accept _) fun _ => .bind direct_blanks fun _ =>
    .bind (.accept _) fun _ => .bind (direct_typesIf _) fun _ => .bind direct_blanks fun _ =>
    .pure _

theorem direct_endTag : Direct body endTag := by
  unfold endTag
  exact .bind (.expect _) fun _ => .bind direct_path fun _ => .bind direct_blanks fun _ =>
    .bind (.accept _) fun _ => .bind direct_blanks fun _ => .bind (.expect _) fun _ => .pure _

theorem direct_opening : Direct body opening := by
  unfold opening
  exact .bind (.accept _) fun _ => .ite (.pure _) <| .bind (.expect _) fun _ => .pure _

theorem direct_dotTag : Direct body dotTag := by
  unfold dotTag
  exact .bind direct_opening fun _ => .bind direct_blanks fun _ => .bind (.expect _) fun _ =>
    .bind direct_blanks fun _ => .bind (.expect _) fun _ => .pure _

theorem direct_plainText : Direct body plainText := by
  unfold plainText
  exact .bind (.before _) fun _ => .ite (.raise (by decide) nofun) (.pure _)

/-- The parser expects `mark` and then goes straight on. -/
def DirectBehind (body : Parser (List Node)) (mark : List Char) (p : Parser α) : Prop :=
  ∃ inside : Unit → Parser α, p = expect mark >>= inside ∧ ∀ u, Direct body (inside u)

theorem DirectBehind.direct {mark : List Char} {p : Parser α} (h : DirectBehind body mark p) :
    Direct body p := by
  obtain ⟨inside, rfl, h⟩ := h
  exact .bind (.expect mark) h

theorem direct_variableTag (raw : Bool) :
    DirectBehind body (if raw then rawOpenMark else openMark) (variableTag raw) :=
  ⟨_, rfl, fun _ => .bind direct_variableBody fun _ => .bind (.expect _) fun _ => .pure _⟩

theorem direct_blockTag : DirectBehind body ['{', '{', '#'] (blockTag body) :=
  ⟨_, rfl, fun _ => .bind direct_path fun _ => .bind direct_blanks fun _ => .bind (.accept _)
    fun _ => .bind direct_blanks fun _ => .bind (.expect _) fun _ => .bind (.accept _) fun _ =>
    .bind .body fun _ => .bind direct_endTag fun _ => .bind (.accept _) fun _ => .pure _⟩

theorem direct_invertedTag : DirectBehind body ['{', '{', '^'] (invertedTag body) :=
  ⟨_, rfl, fun _ => .bind direct_path fun _ => .bind direct_blanks fun _ => .bind (.expect _)
    fun _ => .bind .body fun _ => .bind direct_endTag fun _ => .pure _⟩

theorem direct_commentTag : DirectBehind body ['{', '{', '!'] commentTag :=
  ⟨_, rfl, fun _ => .bind (.before _) fun _ => .bind (.expect _) fun _ => .pure _⟩

theorem direct_referenceTag : DirectBehind body ['{', '{', '>'] referenceTag :=
  ⟨_, rfl, fun _ => .bind direct_path fun _ => .bind direct_blanks fun _ => .bind (.expect _)
    fun _ => .pure _⟩

theorem direct_form (f : Form) : Direct body (f.parse body) := by
  cases f with
  | rawVar | var => exact (direct_variableTag _).direct
  | block => exact direct_blockTag.direct
  | inverted => exact direct_invertedTag.direct
  | comment => exact direct_commentTag.direct
  | reference => exact direct_referenceTag.direct
  | dot => exact direct_dotTag
  | text => exact direct_plainText

end Parser

end Stencil
