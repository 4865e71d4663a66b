import Stencil.Proofs.Direct
import Stencil.Proofs.Outcome
import Stencil.Proofs.Spelling
import Stencil.Template

/-!
# The error that is reported

A text that is no template is refused with the first of the errors that are furthest into it, among
all that come up while it is read (`Template.error_furthest`). A node compares the errors of its own
forms only, so the errors of nodes that were read in the end must not count: they lie before the end
of their node, because no form looks beyond a closing brace before it fails
(`offset_lt_of_other_form`).
-/

namespace Stencil

namespace ParseError

/-- `e` is the first of the errors that are furthest into the text. -/
def Furthest (e : ParseError) (errors : List ParseError) : Prop :=
  ∃ before after, errors = before ++ e :: after ∧ (∀ d ∈ before, d.offset < e.offset) ∧
    ∀ d ∈ after, d.offset ≤ e.offset

namespace Furthest

variable {e e' d : ParseError} {errors others : List ParseError}

theorem singleton (e : ParseError) : e.Furthest [e] := ⟨[], [], rfl, nofun, nofun⟩

theorem mem (h : e.Furthest errors) : e ∈ errors := by
  obtain ⟨before, after, rfl, -, -⟩ := h
  simp

theorem le (h : e.Furthest errors) (hd : d ∈ errors) : d.offset ≤ e.offset := by
  obtain ⟨before, after, rfl, hbefore, hafter⟩ := h
  rcases List.mem_append.mp hd with hd | hd
  · exact Nat.le_of_lt (hbefore d hd)
  · rcases List.mem_cons.mp hd with rfl | hd
    · exact Nat.le_refl _
    · exact hafter d hd

theorem append_left (h : e.Furthest errors) (hlt : ∀ d ∈ others, d.offset < e.offset) :
    e.Furthest (others ++ errors) := by
  obtain ⟨before, after, rfl, hbefore, hafter⟩ := h
  exact ⟨others ++ before, after, by simp, List.forall_mem_append.mpr ⟨hlt, hbefore⟩, hafter⟩

theorem append_right (h : e.Furthest errors) (hle : ∀ d ∈ others, d.offset ≤ e.offset) :
    e.Furthest (errors ++ others) := by
  obtain ⟨before, after, rfl, hbefore, hafter⟩ := h
  exact ⟨before, after ++ others, by simp, hbefore, List.forall_mem_append.mpr ⟨hafter, hle⟩⟩

theorem further (h : e.Furthest errors) (h' : e'.Furthest others) :
    (e.further e').Furthest (errors ++ others) := by
  unfold ParseError.further
  split
  · rename_i hlt
    exact h'.append_left fun d hd => Nat.lt_of_le_of_lt (h.le hd) hlt
  · rename_i hle
    exact h.append_right fun d hd => Nat.le_trans (h'.le hd) (Nat.le_of_not_lt hle)

end Furthest

theorem le_further_left (e e' : ParseError) : e.offset ≤ (e.further e').offset := by
  unfold further
  split <;> omega

theorem le_further_right (e e' : ParseError) : e'.offset ≤ (e.further e').offset := by
  unfold further
  split <;> omega

theorem further_eq (e e' : ParseError) : e.further e' = e ∨ e.further e' = e' := by
  unfold further
  split
  · exact .inr rfl
  · exact .inl rfl

end ParseError

namespace Parser

open Grammar

variable {α β : Type} {bound : Nat} {p : Parser α} {c c' : Cursor} {body : Parser (List Node)}

/-! ### Errors in order -/

/-- How a run from `c` reports errors. Those of a run that succeeds lie before the place it comes
to. One that fails does so with the first of the furthest, which is no fallback. -/
structure Reports (c : Cursor) (x : Traced ParseError ParseError (α × Cursor)) : Prop where
  ok : ∀ a c', x.result = .ok (a, c') →
    c.Ahead c' ∧ ∀ d ∈ x.trail, d.offset < c'.position.offset
  error : ∀ e, x.result = .error e →
    c.position.offset ≤ e.offset ∧ e.Furthest x.trail ∧ e.cause ≠ noForm

/-- On texts shorter than the bound, all runs of `p` report errors as they should. -/
def Tells (bound : Nat) (p : Parser α) : Prop :=
  ∀ c : Cursor, c.rest.length < bound → Reports c (p c)

namespace Reports

theorem pure (a : α) (c : Cursor) : Reports c ((Pure.pure a : Parser α) c) := by
  refine ⟨fun a' c' h => ?_, nofun⟩
  cases h
  exact ⟨.refl c, nofun⟩

theorem raise {cause : Cause} (h : cause ≠ noForm) (c : Cursor) :
    Reports c ((Parser.raise cause : Parser α) c) := by
  refine ⟨nofun, fun e he => ?_⟩
  cases he
  exact ⟨Nat.le_refl _, .singleton _, h⟩

theorem moved {k : Nat} (a : α) (hk : k ≤ c.rest.length) :
    Reports c (Pure.pure (a, c.skip k)) := by
  refine ⟨fun a' c' h => ?_, nofun⟩
  cases h
  exact ⟨⟨k, hk, rfl⟩, nofun⟩

theorem bind {f : α → Parser β} (hp : Reports c (p c))
    (hf : ∀ a c', (p c).result = .ok (a, c') → Reports c' (f a c')) :
    Reports c ((p >>= f) c) := by
  rw [bind_apply]
  cases h : (p c).result with
  | error e =>
    rw [Traced.bind_of_error h]
    refine ⟨nofun, fun e' he => ?_⟩
    cases he
    exact hp.error e h
  | ok x =>
    obtain ⟨a, c'⟩ := x
    rw [Traced.bind_of_ok h]
    obtain ⟨hahead, hbefore⟩ := hp.ok a c' h
    refine ⟨fun b c'' hb => ?_, fun e he => ?_⟩
    · obtain ⟨hahead', hbefore'⟩ := (hf a c' h).ok b c'' hb
      refine ⟨hahead.trans hahead', List.forall_mem_append.mpr ⟨fun d hd => ?_, hbefore'⟩⟩
      exact Nat.lt_of_lt_of_le (hbefore d hd) hahead'.offset_le
    · obtain ⟨hle, hfurthest, hcause⟩ := (hf a c' h).error e he
      refine ⟨Nat.le_trans hahead.offset_le hle, hfurthest.append_left fun d hd => ?_, hcause⟩
      exact Nat.lt_of_lt_of_le (hbefore d hd) hle

end Reports

theorem missing_ne_noForm (mark rest : List Char) : missing mark rest ≠ noForm := by
  unfold missing noForm
  split
  · nofun
  · intro h
    have h := congrArg String.toList (Cause.expected.inj h)
    simp [String.toList_append] at h

theorem Direct.tells (h : Direct body p) (hbody : Tells bound body) : Tells bound p := by
  induction h with
  | pure a => exact fun c _ => .pure a c
  | raise h _ => exact fun c _ => .raise h c
  | read h => exact fun c _ => .moved _ (h c.rest).length_le
  | accept mark =>
    intro c _
    unfold Parser.accept
    split
    · rename_i hm
      exact .moved _ hm.length_le
    · exact .pure false c
  | expect mark =>
    intro c _
    unfold Parser.expect
    split
    · rename_i hm
      exact .moved _ hm.length_le
    · exact .raise (missing_ne_noForm _ _) c
  | body => exact hbody
  | look _ ih => exact fun c hc => ih c.rest c hc
  | bind _ _ ihp ihf =>
    refine fun c hc => (ihp c hc).bind fun a c' h => ihf a c' ?_
    exact Nat.lt_of_le_of_lt ((ihp c hc).ok a c' h).1.length_le hc

/-- Behind a mark, less text is left. -/
theorem DirectBehind.tells {mark : List Char} (h : DirectBehind body mark p) (hmark : mark ≠ [])
    (hbody : Tells bound body) : Tells (bound + 1) p := by
  obtain ⟨inside, rfl, h⟩ := h
  have hexpect : Direct (Pure.pure []) (Parser.expect mark) := .expect mark
  refine fun c hc => (hexpect.tells (fun c _ => .pure [] c) c hc).bind fun u c' hu => ?_
  refine (h u).tells hbody c' ?_
  obtain ⟨k, hk, hkl, rfl⟩ := Moves.expect mark c u c' hu
  have := List.length_pos_iff.mpr hmark
  rw [Cursor.rest_skip, List.length_drop]
  omega

theorem tells_form (hbody : Tells bound body) (f : Form) : Tells (bound + 1) (f.parse body) := by
  have hpure : Tells (bound + 1) (pure [] : Parser (List Node)) := fun c _ => .pure [] c
  cases f with
  | rawVar => exact (direct_variableTag true).tells (by decide) hbody
  | var => exact (direct_variableTag false).tells (by decide) hbody
  | block => exact direct_blockTag.tells (by decide) hbody
  | inverted => exact direct_invertedTag.tells (by decide) hbody
  | comment => exact direct_commentTag.tells (by decide) hbody
  | reference => exact direct_referenceTag.tells (by decide) hbody
  | dot => exact direct_dotTag.tells hpure
  | text => exact direct_plainText.tells hpure

/-! ### Several attempts -/

section
variable {ps : List (Parser α)} {e e' d : ParseError}

theorem mem_trail_firstOf (h : d ∈ (firstOf e ps c).trail) : ∃ p ∈ ps, d ∈ (p c).trail := by
  induction ps generalizing e with
  | nil => cases h
  | cons p ps ih =>
    unfold firstOf at h
    cases hp : (p c).result with
    | ok x =>
      rw [Traced.handle_of_ok hp] at h
      exact ⟨p, List.mem_cons_self .., h⟩
    | error e' =>
      rw [Traced.handle_of_error hp] at h
      rcases List.mem_append.mp h with h | h
      · exact ⟨p, List.mem_cons_self .., h⟩
      · obtain ⟨q, hq, hd⟩ := ih h
        exact ⟨q, List.mem_cons_of_mem _ hq, hd⟩

/-- Where all attempts fail, the error is one of theirs or the one so far, and is as far as any. -/
theorem firstOf_eq_error (h : (firstOf e ps c).result = .error e') :
    (e' = e ∨ ∃ p ∈ ps, (p c).result = .error e') ∧ e.offset ≤ e'.offset ∧
      ∀ p ∈ ps, ∃ d, (p c).result = .error d ∧ d.offset ≤ e'.offset := by
  induction ps generalizing e with
  | nil =>
    cases h
    exact ⟨.inl rfl, Nat.le_refl _, nofun⟩
  | cons p ps ih =>
    unfold firstOf at h
    cases hp : (p c).result with
    | ok x => rw [Traced.handle_of_ok hp] at h; cases h
    | error d =>
      rw [Traced.handle_of_error hp] at h
      obtain ⟨hfrom, hle, hall⟩ := ih h
      refine ⟨?_, Nat.le_trans (e.le_further_left d) hle, List.forall_mem_cons.mpr
        ⟨⟨d, hp, Nat.le_trans (e.le_further_right d) hle⟩, hall⟩⟩
      rcases hfrom with rfl | ⟨q, hq, hqc⟩
      · rcases e.further_eq d with heq | heq
        · exact .inl heq
        · exact .inr ⟨p, List.mem_cons_self .., by rw [hp, heq]⟩
      · exact .inr ⟨q, List.mem_cons_of_mem _ hq, hqc⟩

theorem furthest_firstOf {seen : List ParseError}
    (hps : ∀ p ∈ ps, ∀ d, (p c).result = .error d → d.Furthest (p c).trail)
    (he : e.Furthest seen) (h : (firstOf e ps c).result = .error e') :
    e'.Furthest (seen ++ (firstOf e ps c).trail) := by
  induction ps generalizing e seen with
  | nil =>
    cases h
    simpa [firstOf] using he
  | cons p ps ih =>
    unfold firstOf at h ⊢
    cases hp : (p c).result with
    | ok x => rw [Traced.handle_of_ok hp] at h; cases h
    | error d =>
      rw [Traced.handle_of_error hp] at h ⊢
      have hd := hps p (List.mem_cons_self ..) d hp
      rw [← List.append_assoc]
      exact ih (fun q hq => hps q (List.mem_cons_of_mem _ hq)) (he.further hd) h

end

/-! ### No form looks beyond a closing brace before it fails -/

/-- The errors of `p` are raised where no closing brace has been passed. -/
def ErrsEarly (p : Parser α) : Prop :=
  ∀ c, ∀ d ∈ (p c).trail, ∃ k ≤ c.rest.length, '}' ∉ c.rest.take k ∧
    d.offset = (c.skip k).position.offset

/-- `p` passes no closing brace. -/
structure Shy (p : Parser α) : Prop where
  errors : ErrsEarly p
  moves : ∀ c a c', (p c).result = .ok (a, c') →
    ∃ k ≤ c.rest.length, '}' ∉ c.rest.take k ∧ c' = c.skip k

/-- Whenever `p` succeeds, it has passed a closing brace. -/
def Crosses (p : Parser α) : Prop :=
  ∀ c a c', (p c).result = .ok (a, c') → ∃ k ≤ c.rest.length, '}' ∈ c.rest.take k ∧ c' = c.skip k

theorem errsEarly_raise (cause : Cause) : ErrsEarly (raise cause : Parser α) := by
  intro c d hd
  cases List.mem_singleton.mp hd
  exact ⟨0, Nat.zero_le _, by simp, by rw [c.skip_zero]; rfl⟩

theorem errsEarly_expect (mark : List Char) : ErrsEarly (expect mark) := by
  intro c d hd
  unfold expect at hd
  split at hd
  · cases hd
  · exact errsEarly_raise (α := Unit) _ c d hd

theorem not_mem_take_add {rest : List Char} {k l : Nat} (h : '}' ∉ rest.take k)
    (h' : '}' ∉ (rest.drop k).take l) : '}' ∉ rest.take (k + l) := by
  rw [List.take_add, List.mem_append]
  exact fun hm => hm.elim h h'

namespace Shy

theorem errsEarly_bind {f : α → Parser β} (hp : Shy p) (hf : ∀ a, ErrsEarly (f a)) :
    ErrsEarly (p >>= f) := by
  intro c d hd
  rw [bind_apply] at hd
  cases h : (p c).result with
  | error e =>
    rw [Traced.bind_of_error h] at hd
    exact hp.errors c d hd
  | ok x =>
    obtain ⟨a, c'⟩ := x
    rw [Traced.bind_of_ok h] at hd
    rcases List.mem_append.mp hd with hd | hd
    · exact hp.errors c d hd
    · obtain ⟨k, hk, hbrace, rfl⟩ := hp.moves c a c' h
      obtain ⟨l, hl, hbrace', hoffset⟩ := hf a _ d hd
      rw [Cursor.rest_skip, List.length_drop] at hl
      exact ⟨k + l, by omega, not_mem_take_add hbrace hbrace', by rw [hoffset, Cursor.skip_skip]⟩

theorem bind {f : α → Parser β} (hp : Shy p) (hf : ∀ a, Shy (f a)) : Shy (p >>= f) := by
  refine ⟨hp.errsEarly_bind fun a => (hf a).errors, fun c b c'' h => ?_⟩
  obtain ⟨a, c', ha, hb⟩ := bind_eq_ok.mp h
  obtain ⟨k, hk, hbrace, rfl⟩ := hp.moves c a c' ha
  obtain ⟨l, hl, hbrace', rfl⟩ := (hf a).moves _ b c'' hb
  rw [Cursor.rest_skip, List.length_drop] at hl
  exact ⟨k + l, by omega, not_mem_take_add hbrace hbrace', Cursor.skip_skip ..⟩

theorem pure (a : α) : Shy (Pure.pure a : Parser α) := by
  refine ⟨nofun, fun c a' c' h => ?_⟩
  cases h
  exact ⟨0, Nat.zero_le _, by simp, c.skip_zero.symm⟩

theorem raise (cause : Cause) : Shy (Parser.raise cause : Parser α) :=
  ⟨errsEarly_raise cause, nofun⟩

theorem takeWhile {test : Char → Bool} (h : test '}' = false) :
    Shy (Parser.read (List.takeWhile test)) := by
  refine ⟨nofun, fun c cs c' hc => ?_⟩
  cases hc
  have hprefix := List.takeWhile_prefix (l := c.rest) test
  refine ⟨_, hprefix.length_le, fun hm => ?_, rfl⟩
  rw [← List.prefix_iff_eq_take.mp hprefix] at hm
  exact Bool.false_ne_true (h.symm.trans (List.all_eq_true.mp List.all_takeWhile _ hm))

theorem accept {mark : List Char} (h : '}' ∉ mark) : Shy (Parser.accept mark) := by
  constructor
  · intro c d hd
    unfold Parser.accept at hd
    split at hd <;> cases hd
  · intro c b c' hc
    unfold Parser.accept at hc
    split at hc
    · rename_i hm
      cases hc
      exact ⟨_, hm.length_le, by rwa [← List.prefix_iff_eq_take.mp hm], rfl⟩
    · cases hc
      exact ⟨0, Nat.zero_le _, by simp, c.skip_zero.symm⟩

theorem expect {mark : List Char} (h : '}' ∉ mark) : Shy (Parser.expect mark) := by
  refine ⟨errsEarly_expect mark, fun c u c' hc => ?_⟩
  unfold Parser.expect at hc
  split at hc
  · rename_i hm
    cases hc
    exact ⟨_, hm.length_le, by rwa [← List.prefix_iff_eq_take.mp hm], rfl⟩
  · cases hc

theorem ite {q : Parser α} {b : Prop} [Decidable b] (hp : Shy p) (hq : Shy q) :
    Shy (if b then p else q) := by
  split
  · exact hp
  · exact hq

end Shy

theorem shy_blanks : Shy blanks := .bind (.takeWhile rfl) fun _ => .pure _

theorem shy_path : Shy path := by
  unfold path
  refine .bind shy_blanks fun _ => .bind (.takeWhile rfl) fun raw => .ite (.raise _) ?_
  cases Path.ofSegments? (Path.segmentsOf raw) with
  | none => exact .raise _
  | some p => exact .pure p

theorem shy_typeNames (bound : Nat) : ∀ seen, Shy (typeNames bound seen) := by
  induction bound with
  | zero => exact fun _ => .raise _
  | succ bound ih =>
    intro seen
    unfold typeNames
    exact .bind shy_blanks fun _ => .bind (.takeWhile rfl) fun word => .ite (.raise _) <|
      .bind shy_blanks fun _ => .bind (.accept (by decide)) fun _ => .ite (ih _) (.pure _)

theorem shy_alternatives : Shy alternatives :=
  ⟨fun c => (shy_typeNames _ []).errors c, fun c => (shy_typeNames _ []).moves c⟩

theorem shy_variableBody : Shy variableBody := by
  unfold variableBody
  exact .bind shy_blanks fun _ => .bind (.accept (by decide)) fun _ => .bind shy_path fun _ =>
    .bind shy_blanks fun _ => .bind (.accept (by decide)) fun _ => .bind shy_blanks fun _ =>
    .bind (.accept (by decide)) fun _ => .bind (.ite shy_alternatives (.pure _)) fun _ =>
    .bind shy_blanks fun _ => .pure _

/-- The last mark may be a closing brace. -/
theorem errsEarly_close (mark : List Char) (a : α) :
    ErrsEarly (expect mark >>= fun _ => pure a) := by
  intro c d hd
  rw [bind_apply] at hd
  refine errsEarly_expect mark c d ?_
  cases h : (expect mark c).result with
  | error e => rwa [Traced.bind_of_error h] at hd
  | ok x =>
    rw [Traced.bind_of_ok h] at hd
    simpa [pure_apply] using hd

theorem errsEarly_variableTag (raw : Bool) : ErrsEarly (variableTag raw) := by
  unfold variableTag
  refine (Shy.expect ?_).errsEarly_bind fun _ => shy_variableBody.errsEarly_bind fun _ =>
    errsEarly_close _ _
  cases raw <;> decide

theorem errsEarly_dotTag : ErrsEarly dotTag := by
  have hopening : Shy opening :=
    .bind (.accept (by decide)) fun _ => .ite (.pure _) <| .bind (.expect (by decide)) fun _ =>
      .pure _
  unfold dotTag
  exact hopening.errsEarly_bind fun _ => shy_blanks.errsEarly_bind fun _ =>
    (Shy.expect (by decide)).errsEarly_bind fun _ => shy_blanks.errsEarly_bind fun _ =>
    errsEarly_close _ _

namespace Crosses

theorem expect {mark : List Char} (h : '}' ∈ mark) : Crosses (Parser.expect mark) := by
  intro c u c' hc
  unfold Parser.expect at hc
  split at hc
  · rename_i hm
    cases hc
    exact ⟨_, hm.length_le, by rwa [← List.prefix_iff_eq_take.mp hm], rfl⟩
  · cases hc

theorem before {f : α → Parser β} (hp : Crosses p) (hf : ∀ a, Moves 0 (f a)) :
    Crosses (p >>= f) := by
  intro c b c'' h
  obtain ⟨a, c', ha, hb⟩ := bind_eq_ok.mp h
  obtain ⟨k, hk, hbrace, rfl⟩ := hp c a c' ha
  obtain ⟨l, -, hl, rfl⟩ := hf a _ b c'' hb
  rw [Cursor.rest_skip, List.length_drop] at hl
  refine ⟨k + l, by omega, ?_, Cursor.skip_skip ..⟩
  rw [List.take_add]
  exact List.mem_append_left _ hbrace

theorem behind {f : α → Parser β} (hp : Moves 0 p) (hf : ∀ a, Crosses (f a)) :
    Crosses (p >>= f) := by
  intro c b c'' h
  obtain ⟨a, c', ha, hb⟩ := bind_eq_ok.mp h
  obtain ⟨k, -, hk, rfl⟩ := hp c a c' ha
  obtain ⟨l, hl, hbrace, rfl⟩ := hf a _ b c'' hb
  rw [Cursor.rest_skip, List.length_drop] at hl
  refine ⟨k + l, by omega, ?_, Cursor.skip_skip ..⟩
  rw [List.take_add]
  exact List.mem_append_right _ hbrace

theorem close {mark : List Char} (h : '}' ∈ mark) (a : α) :
    Crosses (Parser.expect mark >>= fun _ => pure a) :=
  (Crosses.expect h).before fun _ => .pure a

end Crosses

theorem moves_expect (mark : List Char) : Moves 0 (expect mark) :=
  (Moves.expect mark).mono (Nat.zero_le _)

theorem crosses_form (hbody : Moves 0 body) {f : Form} (hf : f ≠ .text) :
    Crosses (f.parse body) := by
  have htag (raw : Bool) : Crosses (variableTag raw) :=
    .behind (moves_expect _) fun _ => .behind moves_variableBody fun _ =>
      .close (by cases raw <;> decide) _
  cases f with
  | rawVar | var => exact htag _
  | block =>
    exact .behind (moves_expect _) fun _ => .behind moves_path fun _ =>
      .behind moves_blanks fun _ =>
      .behind (.accept _) fun _ => .behind moves_blanks fun _ =>
      .before (.expect (by decide)) fun _ => .then_ (.accept _) fun _ => .then_ hbody fun _ =>
      .then_ (moves_endTag.mono (Nat.zero_le _)) fun _ => .then_ (.accept _) fun _ => .pure _
  | inverted =>
    exact .behind (moves_expect _) fun _ => .behind moves_path fun _ =>
      .behind moves_blanks fun _ =>
      .before (.expect (by decide)) fun _ => .then_ hbody fun _ =>
      .then_ (moves_endTag.mono (Nat.zero_le _)) fun _ => .pure _
  | comment =>
    exact .behind (moves_expect _) fun _ =>
      .behind (.read fun cs => (Text.before_isPrefix _ cs).length_le) fun _ =>
      .close (by decide) _
  | reference =>
    exact .behind (moves_expect _) fun _ => .behind moves_path fun _ =>
      .behind moves_blanks fun _ => .close (by decide) _
  | dot =>
    exact .behind (moves_opening.mono (Nat.zero_le _)) fun raw => .behind moves_blanks fun _ =>
      .behind (moves_expect _) fun _ => .behind moves_blanks fun _ =>
      .close (by cases raw <;> decide) _
  | text => exact absurd rfl hf

/-! ### Abandoned forms -/

theorem formBehind_ne_text (x : List Char) : formBehind x ≠ some .text := by
  have hite (b : Bool) {f : Form} (hf : f ≠ .text) : some (if b then .dot else f) ≠ some .text := by
    cases b
    · simpa using hf
    · simp
  unfold formBehind
  split
  all_goals first
    | exact hite _ (by decide)
    | simp

theorem openMark_prefix_iff {f : Form} (h : formAt c.rest = some f) :
    openMark <+: c.rest ↔ f ≠ .text := by
  unfold formAt at h
  split at h
  · rename_i x hx
    rw [hx]
    refine iff_of_true (List.prefix_append openMark x) ?_
    rintro rfl
    exact formBehind_ne_text x h
  · rename_i hx
    cases h
    refine iff_of_false ?_ (not_not_intro rfl)
    rintro ⟨x, hopen⟩
    exact hx x hopen.symm

section
variable {mark : List Char} {d : ParseError}

theorem offset_of_missing (hp : DirectBehind body mark p) (hm : ¬ mark <+: c.rest)
    (hd : d ∈ (p c).trail) : d.offset = c.position.offset := by
  obtain ⟨inside, rfl, -⟩ := hp
  have hexpect : expect mark c = raise (missing mark c.rest) c := if_neg hm
  rw [bind_apply, hexpect, Traced.bind_of_error rfl] at hd
  cases List.mem_singleton.mp hd
  rfl

theorem offset_of_dotTag (hm : ¬ openMark <+: c.rest) (hd : d ∈ (dotTag c).trail) :
    d.offset = c.position.offset := by
  have hraw : accept rawOpenMark c = pure (false, c) :=
    if_neg fun h => hm ((List.prefix_append openMark ['{']).trans h)
  have hexpect : expect openMark c = raise (missing openMark c.rest) c := if_neg hm
  have hopening : opening c = raise (missing openMark c.rest) c := by
    unfold opening
    rw [bind_apply, hraw, pure_bind]
    show (expect openMark >>= fun _ => pure false) c = _
    rw [bind_apply, hexpect, Traced.bind_of_error rfl]
    rfl
  unfold dotTag at hd
  rw [bind_apply, hopening, Traced.bind_of_error rfl] at hd
  cases List.mem_singleton.mp hd
  rfl

theorem offset_of_plainText (hm : openMark <+: c.rest) (hd : d ∈ (plainText c).trail) :
    d.offset = c.position.offset := by
  have hread : read (Text.before openMark) c = pure ([], c) := by
    unfold read
    rw [Text.before_of_mark hm, List.length_nil, c.skip_zero]
  unfold plainText at hd
  rw [bind_apply, hread, pure_bind, if_pos rfl] at hd
  cases List.mem_singleton.mp hd
  rfl

/-- The errors of other forms lie before the end of a node that is read. -/
theorem offset_lt_of_other_form {f g : Form} {n : Node}
    (hspelled : ∀ {c ns c'}, (body c).result = .ok (ns, c') → SpellsNodes c.rest ns c'.rest)
    (hbody : Moves 0 body) (hg : (g.parse body c).result = .ok (n, c')) (hfg : f ≠ g)
    (hd : d ∈ (f.parse body c).trail) : d.offset < c'.position.offset := by
  have hform : formAt c.rest = some g := by
    obtain ⟨hn, rfl⟩ := spellsNode_of_form hspelled hg
    exact formAt_of_spellsNode hn
  have hopen := openMark_prefix_iff hform
  have hother : formAt c.rest ≠ some f := fun h => hfg (Option.some.inj (h.symm.trans hform))
  -- a form that does not fit where it starts fails there
  have hhere : d.offset = c.position.offset → d.offset < c'.position.offset := by
    intro heq
    obtain ⟨k, hk, hkl, rfl⟩ := moves_form hbody g c n c' hg
    rw [heq]
    exact Cursor.offset_lt_skip (List.ne_nil_of_length_pos (by omega)) hk
  -- a form that is shy fails before the brace that ends the node
  have hearly : ErrsEarly (f.parse body) → g ≠ .text → d.offset < c'.position.offset := by
    intro hf htext
    obtain ⟨k, hk, hbrace, heq⟩ := hf c d hd
    obtain ⟨l, hl, hclosed, rfl⟩ := crosses_form hbody htext c n c' hg
    rw [heq]
    refine Cursor.offset_skip_lt (Nat.lt_of_not_le fun hle => hbrace ?_) hl
    exact (List.take_prefix_take_left hle).subset hclosed
  have hmissing {mark : List Char} (hp : DirectBehind body mark (f.parse body))
      (hm : ¬ mark <+: c.rest) : d.offset < c'.position.offset :=
    hhere (offset_of_missing hp hm hd)
  have hmarked {mark : List Char} (hp : DirectBehind body mark (f.parse body))
      (hmark : ∀ x, formAt (mark ++ x) = some f) : d.offset < c'.position.offset :=
    hmissing hp fun ⟨x, hx⟩ => hother (hx ▸ hmark x)
  cases f with
  | rawVar =>
    by_cases htext : g = .text
    · refine hmissing (direct_variableTag true) fun h => hopen.mp ?_ htext
      exact (List.prefix_append openMark ['{']).trans h
    · exact hearly (errsEarly_variableTag true) htext
  | var =>
    by_cases htext : g = .text
    · exact hmissing (direct_variableTag false) fun h => hopen.mp h htext
    · exact hearly (errsEarly_variableTag false) htext
  | dot =>
    by_cases htext : g = .text
    · exact hhere (offset_of_dotTag (fun h => hopen.mp h htext) hd)
    · exact hearly errsEarly_dotTag htext
  | block => exact hmarked direct_blockTag fun _ => rfl
  | inverted => exact hmarked direct_invertedTag fun _ => rfl
  | comment => exact hmarked direct_commentTag fun _ => rfl
  | reference => exact hmarked direct_referenceTag fun _ => rfl
  | text => exact hhere (offset_of_plainText (hopen.mpr hfg.symm) hd)

end

/-! ### Nodes -/

/-- Behind its mark, a parser fails further on. -/
theorem DirectBehind.offset_lt {mark : List Char} {e : ParseError} (hp : DirectBehind body mark p)
    (hmark : mark ≠ []) (hm : mark <+: c.rest) (hbody : Tells bound body)
    (hc : c.rest.length < bound + 1) (he : (p c).result = .error e) :
    c.position.offset < e.offset := by
  obtain ⟨inside, rfl, h⟩ := hp
  have hexpect : expect mark c = pure ((), c.skip mark.length) := if_pos hm
  have hpos := List.length_pos_iff.mpr hmark
  have hrest := hm.length_le
  rw [bind_apply, hexpect, pure_bind] at he
  have hreports : Reports (c.skip mark.length) (inside () (c.skip mark.length)) := by
    refine (h ()).tells hbody _ ?_
    rw [Cursor.rest_skip, List.length_drop]
    omega
  refine Nat.lt_of_lt_of_le (Cursor.offset_lt_skip ?_ hpos) (hreports.error e he).1
  exact List.ne_nil_of_length_pos (by omega)

theorem exists_ok_of_plainText (hne : c.rest ≠ []) (hopen : ¬ openMark <+: c.rest) :
    ∃ x, (plainText c).result = .ok x := by
  obtain ⟨a, x, hx⟩ := List.exists_cons_of_ne_nil hne
  have hread : Text.before openMark c.rest ≠ [] := by
    rw [hx] at hopen ⊢
    rw [Text.before_cons_of_not_mark hopen]
    exact List.cons_ne_nil _ _
  unfold plainText read
  rw [bind_apply, pure_bind, if_neg hread]
  exact ⟨_, rfl⟩

variable {forms : List Form}

/-- A node fails with an error of one of its forms: text that no tag begins is read, and behind the
braces of a tag a form fails further on. -/
theorem cause_of_firstOf {e : ParseError} (hall : ∀ f, f ∈ forms) (hbody : Tells bound body)
    (hc : c.rest.length < bound + 1) (hne : c.rest ≠ [])
    (h : (firstOf (c.error noForm) (forms.map (Form.parse body)) c).result = .error e) :
    e.cause ≠ noForm := by
  obtain ⟨hfrom, -, hforms⟩ := firstOf_eq_error h
  have hfails (f : Form) : ∃ d, (f.parse body c).result = .error d ∧ d.offset ≤ e.offset :=
    hforms _ (List.mem_map_of_mem (hall f))
  have hopen : openMark <+: c.rest := by
    obtain ⟨d, hd, -⟩ := hfails .text
    by_contra hopen
    obtain ⟨x, hx⟩ := exists_ok_of_plainText hne hopen
    cases hd.symm.trans hx
  have hfurther : c.position.offset < e.offset := by
    obtain ⟨d, hd, hle⟩ := hfails .var
    exact Nat.lt_of_lt_of_le
      ((direct_variableTag false).offset_lt (by decide) hopen hbody hc hd) hle
  rcases hfrom with rfl | ⟨p, hp, hpc⟩
  · exact absurd hfurther (Nat.lt_irrefl _)
  · obtain ⟨f, -, rfl⟩ := List.mem_map.mp hp
    exact ((tells_form hbody f c hc).error e hpc).2.2

theorem reports_node
    (hspelled : ∀ {c ns c'}, (body c).result = .ok (ns, c') → SpellsNodes c.rest ns c'.rest)
    (hmoves : Moves 0 body) (hall : ∀ f, f ∈ forms) (hbody : Tells bound body)
    (hc : c.rest.length < bound + 1) (hne : c.rest ≠ []) : Reports c (node forms body c) := by
  have hreports (f : Form) : Reports c (f.parse body c) := tells_form hbody f c hc
  have hnode : node forms body c =
      ⟨c.error noForm :: (firstOf (c.error noForm) (forms.map (Form.parse body)) c).trail,
        (firstOf (c.error noForm) (forms.map (Form.parse body)) c).result⟩ :=
    Traced.bind_of_ok (x := Traced.write (c.error noForm)) rfl _
  refine ⟨fun n c' h => ?_, fun e h => ?_⟩
  · obtain ⟨g, -, hg⟩ := exists_form_of_node h
    have hahead := (hreports g).ok n c' hg
    refine ⟨hahead.1, fun d hd => ?_⟩
    rw [hnode] at hd
    rcases List.mem_cons.mp hd with rfl | hd
    · obtain ⟨k, hk, -, rfl⟩ := moves_form hmoves g c n c' hg
      exact Cursor.offset_lt_skip hne hk
    · obtain ⟨p, hp, hd⟩ := mem_trail_firstOf hd
      obtain ⟨f, -, rfl⟩ := List.mem_map.mp hp
      by_cases hfg : f = g
      · exact hahead.2 d (hfg ▸ hd)
      · exact offset_lt_of_other_form hspelled hmoves hg hfg hd
  · rw [hnode] at h ⊢
    obtain ⟨-, hle, -⟩ := firstOf_eq_error h
    refine ⟨hle, ?_, cause_of_firstOf hall hbody hc hne h⟩
    have hfallback : (c.error noForm).Furthest [c.error noForm] := .singleton _
    refine furthest_firstOf (fun p hp d hd => ?_) hfallback h
    obtain ⟨f, -, rfl⟩ := List.mem_map.mp hp
    exact ((hreports f).error d hd).2.1

theorem tells_nodesWithin (hall : ∀ f, f ∈ forms) (bound : Nat) :
    ∀ inside, Tells bound (nodesWithin forms bound inside) := by
  induction bound with
  | zero => exact fun _ _ hc => absurd hc (Nat.not_lt_zero _)
  | succ bound ih =>
    intro inside c hc
    unfold nodesWithin
    split
    · split
      · exact .raise (by decide) c
      · exact .pure [] c
    · rename_i hne
      split
      · exact .pure [] c
      · refine Reports.bind (reports_node (fun h => (spellsNodes_of_nodesWithin h).1)
          (moves_nodesWithin forms bound true) hall (ih true) hc hne) fun n c' hn => ?_
        obtain ⟨k, hk, -, rfl⟩ := moves_node forms (moves_nodesWithin forms bound true) c n c' hn
        refine Reports.bind (ih inside _ ?_) fun ns c'' _ => .pure (n :: ns) c''
        have := List.length_pos_iff.mpr hne
        rw [Cursor.rest_skip, List.length_drop]
        omega

theorem reports_nodes (hall : ∀ f, f ∈ forms) (inside : Bool) (c : Cursor) :
    Reports c (nodes forms inside c) :=
  tells_nodesWithin hall _ inside c (Nat.lt_succ_self _)

theorem furthest_parseWith (hall : ∀ f, f ∈ forms) {source : String} {e : ParseError}
    (h : (parseWith forms source).result = .error e) :
    e.Furthest (parseWith forms source).trail ∧ e.cause ≠ noForm := by
  unfold parseWith at h ⊢
  cases hnodes : (nodes forms false (.start source)).result with
  | error e' =>
    rw [Traced.bind_of_error hnodes] at h ⊢
    cases h
    exact ((reports_nodes hall false (.start source)).error e hnodes).2
  | ok x =>
    rw [Traced.bind_of_ok hnodes] at h
    cases h

end Parser

theorem Template.parse_eq_error {source : String} {e : ParseError}
    (h : Template.parse source = .error e) :
    (Parser.parseWith Parser.Form.all source).result = .error e := by
  unfold Template.parse at h
  cases hr : (Parser.parseWith Parser.Form.all source).result with
  | error e' => rw [hr] at h; cases h; rfl
  | ok ns => rw [hr] at h; cases h

theorem Parser.Form.mem_all (f : Parser.Form) : f ∈ Parser.Form.all := by cases f <;> decide

/-- A text that is no template is refused with the first of the errors furthest into it, of all that
come up while it is read. It is never the error that a node falls back to. -/
theorem Template.error_furthest {source : String} {e : ParseError}
    (h : Template.parse source = .error e) :
    e.Furthest (Template.diagnostics source) ∧ e.cause ≠ .expected "a tag or text" :=
  Parser.furthest_parseWith Parser.Form.mem_all (Template.parse_eq_error h)

/-- Two forms fail at the same place, inside a block; the tag before the block is read by the last
form that is tried. -/
theorem Template.error_furthest_tie :
    let source := "\x7b\x7b.\x7d\x7d\x7b\x7b#a\x7d\x7d\nx\x7b\x7b \x7d\x7d"
    let e : ParseError := ⟨2, 5, 16, .expected "path"⟩
    Template.parse source = .error e ∧
      ⟨2, 5, 16, .expected "'.', found '\x7d\x7d'"⟩ ∈ Template.diagnostics source ∧
      e.Furthest (Template.diagnostics source) ∧ e.cause ≠ .expected "a tag or text" := by
  intro source e
  have h : Template.parse source = .error e := by decide +kernel
  exact ⟨h, by decide +kernel, Template.error_furthest h⟩

end Stencil
