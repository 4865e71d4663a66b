import Stencil.Proofs.Direct

/-!
# Reading behind other text

What a parser does depends on the text left only. Started on the same text at a position that is
`d` bytes further on, it gives the same answer, or fails for the same cause, `d` bytes further on
(`shifts_nodes`). Choosing between alternatives compares offsets, and these all move together.
-/

namespace Stencil

variable {α β : Type} {d : Nat}

structure Cursor.Shifted (d : Nat) (c c' : Cursor) : Prop where
  rest : c'.rest = c.rest
  offset : c'.position.offset = c.position.offset + d

structure ParseError.Shifted (d : Nat) (e e' : ParseError) : Prop where
  cause : e'.cause = e.cause
  offset : e'.offset = e.offset + d

theorem Cursor.Shifted.skip {c c' : Cursor} (h : c.Shifted d c') (k : Nat) :
    (c.skip k).Shifted d (c'.skip k) := by
  refine ⟨by rw [rest_skip, rest_skip, h.rest], ?_⟩
  rw [offset_skip, offset_skip, h.rest, h.offset]
  omega

theorem Cursor.Shifted.error {c c' : Cursor} (h : c.Shifted d c') (cause : Cause) :
    (c.error cause).Shifted d (c'.error cause) := ⟨rfl, h.offset⟩

theorem ParseError.Shifted.further {e e' f f' : ParseError} (he : e.Shifted d e')
    (hf : f.Shifted d f') : (e.further f).Shifted d (e'.further f') := by
  unfold ParseError.further
  have hlt : e'.offset < f'.offset ↔ e.offset < f.offset := by
    rw [he.offset, hf.offset]
    omega
  simp only [hlt]
  split
  · exact hf
  · exact he

namespace Parser

/-- The second result is the first one, `d` bytes further on. -/
inductive Shifted (d : Nat) :
    Except ParseError (α × Cursor) → Except ParseError (α × Cursor) → Prop
  | ok (a : α) {c c' : Cursor} (h : c.Shifted d c') : Shifted d (.ok (a, c)) (.ok (a, c'))
  | error {e e' : ParseError} (h : e.Shifted d e') : Shifted d (.error e) (.error e')

/-- The parser does the same `d` bytes further on. -/
def Shifts (d : Nat) (p : Parser α) : Prop :=
  ∀ c c', c.Shifted d c' → Shifted d (p c).result (p c').result

variable {p : Parser α} {body : Parser (List Node)} {forms : List Form}

namespace Shifts

theorem pure (a : α) : Shifts d (Pure.pure a : Parser α) := fun _ _ h => .ok a h

theorem raise (cause : Cause) : Shifts d (Parser.raise cause : Parser α) :=
  fun _ _ h => .error (h.error cause)

theorem read (select : List Char → List Char) : Shifts d (Parser.read select) := by
  intro c c' h
  have hskip := h.skip (select c.rest).length
  show Shifted d (.ok (select c.rest, _)) (.ok (select c'.rest, _))
  rw [h.rest]
  exact .ok _ hskip

theorem accept (mark : List Char) : Shifts d (Parser.accept mark) := by
  intro c c' h
  unfold Parser.accept
  rw [h.rest]
  split
  · exact .ok true (h.skip _)
  · exact .ok false h

theorem expect (mark : List Char) : Shifts d (Parser.expect mark) := by
  intro c c' h
  unfold Parser.expect
  rw [h.rest]
  split
  · exact .ok () (h.skip _)
  · exact Shifts.raise _ c c' h

theorem bind {f : α → Parser β} (hp : Shifts d p) (hf : ∀ a, Shifts d (f a)) :
    Shifts d (p >>= f) := by
  intro c c' h
  have hresult := hp c c' h
  rw [bind_apply, bind_apply, Traced.result_bind, Traced.result_bind]
  generalize (p c).result = r at hresult ⊢
  generalize (p c').result = r' at hresult ⊢
  cases hresult with
  | ok a hc => exact hf a _ _ hc
  | error he => exact .error he

end Shifts

theorem Direct.shifts (h : Direct body p) (hbody : Shifts d body) : Shifts d p := by
  induction h with
  | pure a => exact .pure a
  | raise _ _ => exact .raise _
  | read _ => exact .read _
  | accept mark => exact .accept mark
  | expect mark => exact .expect mark
  | body => exact hbody
  | @look _ f _ ih =>
    intro c c' h
    show Shifted d (f c.rest c).result (f c'.rest c').result
    rw [h.rest]
    exact ih c.rest c c' h
  | bind _ _ ihp ihf => exact ihp.bind ihf

theorem shifted_firstOf {ps : List (Parser α)} (hps : ∀ p ∈ ps, Shifts d p) {e e' : ParseError}
    (he : e.Shifted d e') {c c' : Cursor} (h : c.Shifted d c') :
    Shifted d (firstOf e ps c).result (firstOf e' ps c').result := by
  induction ps generalizing e e' with
  | nil => exact .error he
  | cons p ps ih =>
    obtain ⟨hp, hps⟩ := List.forall_mem_cons.mp hps
    have hresult := hp c c' h
    unfold firstOf
    generalize hr : (p c).result = r at hresult
    generalize hr' : (p c').result = r' at hresult
    cases hresult with
    | ok a hc =>
      rw [Traced.handle_of_ok hr, Traced.handle_of_ok hr']
      exact .ok a hc
    | error hf =>
      rw [Traced.handle_of_error hr, Traced.handle_of_error hr']
      exact ih hps (he.further hf)

theorem shifts_node (hbody : Shifts d body) : Shifts d (node forms body) := by
  intro c c' h
  have hforms : ∀ p ∈ forms.map (Form.parse body), Shifts d p := fun p hp => by
    obtain ⟨f, -, rfl⟩ := List.mem_map.mp hp
    exact (direct_form f).shifts hbody
  unfold node
  rw [Traced.result_bind, Traced.result_bind]
  exact shifted_firstOf hforms (h.error noForm) h

theorem shifts_nodesWithin (bound : Nat) : ∀ inside, Shifts d (nodesWithin forms bound inside) := by
  induction bound with
  | zero => exact fun _ => .raise _
  | succ bound ih =>
    intro inside c c' h
    unfold nodesWithin
    rw [h.rest]
    split
    · split
      · exact Shifts.raise _ c c' h
      · exact .ok [] h
    · split
      · exact .ok [] h
      · exact Shifts.bind (shifts_node (ih true))
          (fun n => (ih inside).bind fun ns => .pure (n :: ns)) c c' h

theorem shifts_nodes (inside : Bool) : Shifts d (nodes forms inside) := by
  intro c c' h
  unfold nodes
  rw [h.rest]
  exact shifts_nodesWithin _ inside c c' h

end Parser

end Stencil
