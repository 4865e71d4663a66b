import Stencil.Parser.Nodes

/-!
# Progress

A parser moves its cursor forward over the text. `Moves n p` says that it takes at least `n`
characters whenever it succeeds. Since every node takes one, the bound on a run of nodes is never
reached: `nodes_eq` describes runs without it.
-/

namespace Stencil.Parser

variable {α β : Type}

/-- Whenever `p` succeeds it has moved over `n` characters or more. -/
def Moves (n : Nat) (p : Parser α) : Prop :=
  ∀ c a c', (p c).result = .ok (a, c') → ∃ k, n ≤ k ∧ k ≤ c.rest.length ∧ c' = c.skip k

/-- `p` and `q` do the same on every text shorter than `n`. -/
def AgreeBelow (n : Nat) (p q : Parser α) : Prop :=
  ∀ c : Cursor, c.rest.length < n → p c = q c

theorem bind_apply (p : Parser α) (f : α → Parser β) (c : Cursor) :
    (p >>= f) c = p c >>= fun x => f x.1 x.2 := rfl

theorem pure_apply (a : α) (c : Cursor) : (pure a : Parser α) c = pure (a, c) := rfl

theorem bind_eq_ok {p : Parser α} {f : α → Parser β} {c c'' : Cursor} {b : β} :
    ((p >>= f) c).result = .ok (b, c'') ↔
      ∃ a c', (p c).result = .ok (a, c') ∧ (f a c').result = .ok (b, c'') := by
  rw [bind_apply, Traced.result_bind]
  cases (p c).result with
  | error e => simp [bind, Except.bind]
  | ok x =>
    constructor
    · intro h; exact ⟨x.1, x.2, rfl, h⟩
    · rintro ⟨a, c', ⟨⟩, h⟩; exact h

theorem exists_of_firstOf {ps : List (Parser α)} {e : ParseError} {c c' : Cursor} {a : α}
    (h : (firstOf e ps c).result = .ok (a, c')) : ∃ p ∈ ps, (p c).result = .ok (a, c') := by
  induction ps generalizing e with
  | nil => cases h
  | cons p ps ih =>
    unfold firstOf at h
    cases hp : (p c).result with
    | ok x =>
      rw [Traced.handle_of_ok hp] at h
      exact ⟨p, List.mem_cons_self .., hp.trans h⟩
    | error e' =>
      rw [Traced.handle_of_error hp] at h
      obtain ⟨q, hq, hqc⟩ := ih h
      exact ⟨q, List.mem_cons_of_mem _ hq, hqc⟩

/-- A node that is read was read by one of the forms. -/
theorem exists_form_of_node {forms : List Form} {body : Parser (List Node)} {c c' : Cursor}
    {n : Node} (h : (node forms body c).result = .ok (n, c')) :
    ∃ f ∈ forms, (f.parse body c).result = .ok (n, c') := by
  unfold node at h
  rw [Traced.result_bind] at h
  obtain ⟨p, hp, hpc⟩ := exists_of_firstOf h
  obtain ⟨f, hf, rfl⟩ := List.mem_map.mp hp
  exact ⟨f, hf, hpc⟩

namespace Moves

theorem mono {n m : Nat} {p : Parser α} (h : Moves n p) (hm : m ≤ n) : Moves m p := by
  intro c a c' hc
  obtain ⟨k, hk, hle, rfl⟩ := h c a c' hc
  exact ⟨k, Nat.le_trans hm hk, hle, rfl⟩

theorem pure (a : α) : Moves 0 (Pure.pure a : Parser α) := by
  intro c a' c' h
  cases h
  exact ⟨0, Nat.le_refl _, Nat.zero_le _, (c.skip_zero).symm⟩

theorem raise (n : Nat) (cause : Cause) : Moves n (Parser.raise cause : Parser α) := by
  intro c a c' h
  cases h

theorem bind {n m : Nat} {p : Parser α} {f : α → Parser β} (hp : Moves n p)
    (hf : ∀ a, Moves m (f a)) : Moves (n + m) (p >>= f) := by
  intro c b c'' h
  obtain ⟨a, c', ha, hb⟩ := bind_eq_ok.mp h
  obtain ⟨k, hk, hkl, rfl⟩ := hp c a c' ha
  obtain ⟨l, hl, hll, rfl⟩ := hf a _ b c'' hb
  rw [Cursor.rest_skip, List.length_drop] at hll
  exact ⟨k + l, by omega, by omega, Cursor.skip_skip ..⟩

theorem then_ {m : Nat} {p : Parser α} {f : α → Parser β} (hp : Moves 0 p)
    (hf : ∀ a, Moves m (f a)) : Moves m (p >>= f) := by
  simpa using hp.bind hf

theorem ite {n : Nat} {p q : Parser α} {b : Prop} [Decidable b] (hp : Moves n p) (hq : Moves n q) :
    Moves n (if b then p else q) := by
  split
  · exact hp
  · exact hq

theorem read {select : List Char → List Char} (h : ∀ cs, (select cs).length ≤ cs.length) :
    Moves 0 (Parser.read select) := by
  intro c a c' hc
  cases hc
  exact ⟨_, Nat.zero_le _, h _, rfl⟩

theorem accept (mark : List Char) : Moves 0 (Parser.accept mark) := by
  intro c a c' h
  unfold Parser.accept at h
  split at h
  · rename_i hm
    cases h
    exact ⟨_, Nat.zero_le _, hm.length_le, rfl⟩
  · cases h
    exact ⟨0, Nat.le_refl _, Nat.zero_le _, (c.skip_zero).symm⟩

theorem expect (mark : List Char) : Moves mark.length (Parser.expect mark) := by
  intro c a c' h
  unfold Parser.expect at h
  split at h
  · rename_i hm
    cases h
    exact ⟨_, Nat.le_refl _, hm.length_le, rfl⟩
  · cases h

end Moves

/-! ### The parts of tags -/

theorem moves_blanks : Moves 0 blanks :=
  .then_ (.read fun _ => (List.takeWhile_prefix _).length_le) fun _ => .pure _

theorem moves_path : Moves 0 path := by
  unfold path
  refine .then_ moves_blanks fun _ => .then_ (.read fun _ => (List.takeWhile_prefix _).length_le)
    fun raw => .ite (.raise _ _) ?_
  cases Path.ofSegments? (Path.segmentsOf raw) with
  | none => exact .raise _ _
  | some p => exact .pure p

theorem moves_typeNames (bound : Nat) : ∀ seen, Moves 0 (typeNames bound seen) := by
  induction bound with
  | zero => intro seen; exact .raise _ _
  | succ bound ih =>
    intro seen
    unfold typeNames
    refine .then_ moves_blanks fun _ => .then_ (.read fun _ => (List.takeWhile_prefix _).length_le)
      fun word => .ite (.raise _ _) ?_
    exact .then_ moves_blanks fun _ => .then_ (.accept _) fun b => .ite (ih _) (.pure _)

theorem moves_alternatives : Moves 0 alternatives := fun c => moves_typeNames _ _ c

theorem moves_typesIf (annotated : Bool) : Moves 0 (typesIf annotated) :=
  .ite moves_alternatives (.pure _)

theorem moves_variableBody : Moves 0 variableBody := by
  unfold variableBody
  exact .then_ moves_blanks fun _ => .then_ (.accept _) fun _ => .then_ moves_path fun _ =>
    .then_ moves_blanks fun _ => .then_ (.accept _) fun _ => .then_ moves_blanks fun _ =>
    .then_ (.accept _) fun _ => .then_ (moves_typesIf _) fun _ =>
    .then_ moves_blanks fun _ => .pure _

/-! ### Nodes -/

theorem moves_variableTag (raw : Bool) : Moves 2 (variableTag raw) := by
  unfold variableTag
  refine .bind (m := 0) (.mono (.expect _) ?_) fun _ => .then_ moves_variableBody fun _ =>
    .then_ (.mono (.expect _) (Nat.zero_le _)) fun _ => .pure _
  cases raw <;> decide

theorem moves_opening : Moves 2 opening := by
  intro c raw c' h
  unfold opening at h
  obtain ⟨b, d, hb, h⟩ := bind_eq_ok.mp h
  unfold accept at hb
  split at hb
  · rename_i hm
    cases hb
    cases h
    exact ⟨_, by decide, hm.length_le, rfl⟩
  · cases hb
    obtain ⟨_, _, he, h⟩ := bind_eq_ok.mp h
    cases h
    exact Moves.expect openMark _ _ _ he

theorem moves_dotTag : Moves 2 dotTag := by
  unfold dotTag
  exact .bind (m := 0) moves_opening fun _ => .then_ moves_blanks fun _ =>
    .then_ (.mono (.expect _) (Nat.zero_le _)) fun _ => .then_ moves_blanks fun _ =>
    .then_ (.mono (.expect _) (Nat.zero_le _)) fun _ => .pure _

theorem moves_endTag : Moves 3 endTag := by
  unfold endTag
  exact .bind (m := 0) (.expect endMark) fun _ => .then_ moves_path fun _ =>
    .then_ moves_blanks fun _ => .then_ (.accept _) fun _ => .then_ moves_blanks fun _ =>
    .then_ (.mono (.expect _) (Nat.zero_le _)) fun _ => .pure _

theorem moves_blockTag {body : Parser (List Node)} (h : Moves 0 body) :
    Moves 3 (blockTag body) := by
  unfold blockTag
  exact .bind (m := 0) (.expect _) fun _ => .then_ moves_path fun _ => .then_ moves_blanks fun _ =>
    .then_ (.accept _) fun _ => .then_ moves_blanks fun _ =>
    .then_ (.mono (.expect _) (Nat.zero_le _)) fun _ => .then_ (.accept _) fun _ =>
    .then_ h fun _ => .then_ (moves_endTag.mono (Nat.zero_le _)) fun _ =>
    .then_ (.accept _) fun _ => .pure _

theorem moves_invertedTag {body : Parser (List Node)} (h : Moves 0 body) :
    Moves 3 (invertedTag body) := by
  unfold invertedTag
  exact .bind (m := 0) (.expect _) fun _ => .then_ moves_path fun _ => .then_ moves_blanks fun _ =>
    .then_ (.mono (.expect _) (Nat.zero_le _)) fun _ => .then_ h fun _ =>
    .then_ (moves_endTag.mono (Nat.zero_le _)) fun _ => .pure _

theorem moves_commentTag : Moves 3 commentTag := by
  unfold commentTag
  exact .bind (m := 0) (.expect _) fun _ =>
    .then_ (.read fun cs => (Text.before_isPrefix _ cs).length_le) fun _ =>
    .then_ (.mono (.expect _) (Nat.zero_le _)) fun _ => .pure _

theorem moves_referenceTag : Moves 3 referenceTag := by
  unfold referenceTag
  exact .bind (m := 0) (.expect _) fun _ => .then_ moves_path fun _ => .then_ moves_blanks fun _ =>
    .then_ (.mono (.expect _) (Nat.zero_le _)) fun _ => .pure _

theorem moves_plainText : Moves 1 plainText := by
  intro c n c' h
  unfold plainText at h
  obtain ⟨cs, d, hr, h⟩ := bind_eq_ok.mp h
  cases hr
  split at h
  · cases h
  · rename_i hne
    cases h
    exact ⟨_, List.length_pos_iff.mpr hne, (Text.before_isPrefix _ _).length_le, rfl⟩

theorem moves_form {body : Parser (List Node)} (h : Moves 0 body) (f : Form) :
    Moves 1 (f.parse body) := by
  cases f with
  | rawVar | var => exact (moves_variableTag _).mono (by decide)
  | block => exact (moves_blockTag h).mono (by decide)
  | inverted => exact (moves_invertedTag h).mono (by decide)
  | comment => exact moves_commentTag.mono (by decide)
  | reference => exact moves_referenceTag.mono (by decide)
  | dot => exact moves_dotTag.mono (by decide)
  | text => exact moves_plainText

theorem moves_node (forms : List Form) {body : Parser (List Node)} (h : Moves 0 body) :
    Moves 1 (node forms body) := by
  intro c n c' hc
  obtain ⟨f, -, hf⟩ := exists_form_of_node hc
  exact moves_form h f c n c' hf

theorem moves_nodesWithin (forms : List Form) (bound : Nat) :
    ∀ inside, Moves 0 (nodesWithin forms bound inside) := by
  induction bound with
  | zero => intro inside; exact .raise _ _
  | succ bound ih =>
    intro inside c
    unfold nodesWithin
    split
    · split
      · exact Moves.raise 0 _ c
      · exact Moves.pure [] c
    · split
      · exact Moves.pure [] c
      · exact Moves.then_ ((moves_node forms (ih true)).mono (Nat.zero_le _)) (fun _ =>
          .then_ (ih inside) fun _ => .pure _) c

/-! ### The bound is never reached -/

namespace AgreeBelow

theorem refl (n : Nat) (p : Parser α) : AgreeBelow n p p := fun _ _ => rfl

theorem mono {n m : Nat} {p q : Parser α} (h : AgreeBelow n p q) (hm : m ≤ n) :
    AgreeBelow m p q := fun c hc => h c (Nat.lt_of_lt_of_le hc hm)

theorem bind {n m k : Nat} {p q : Parser α} {f g : α → Parser β} (hpq : AgreeBelow n p q)
    (hk : Moves k p) (hm : n ≤ m + k) (hfg : ∀ a, AgreeBelow m (f a) (g a)) :
    AgreeBelow n (p >>= f) (q >>= g) := by
  intro c hc
  rw [bind_apply, bind_apply, ← hpq c hc]
  cases h : (p c).result with
  | error e => rw [Traced.bind_of_error h, Traced.bind_of_error h]
  | ok x =>
    obtain ⟨a, c'⟩ := x
    obtain ⟨l, hl, hll, rfl⟩ := hk c a c' h
    rw [Traced.bind_of_ok h, Traced.bind_of_ok h]
    have : AgreeBelow m (f a) (g a) := hfg a
    rw [this _ (by rw [Cursor.rest_skip, List.length_drop]; omega)]

theorem after {n : Nat} {p : Parser α} {f g : α → Parser β} (hp : Moves 0 p)
    (hfg : ∀ a, AgreeBelow n (f a) (g a)) : AgreeBelow n (p >>= f) (p >>= g) :=
  bind (refl n p) hp (Nat.le_refl _) hfg

theorem before {n : Nat} {p q : Parser α} (f : α → Parser β) (hp : Moves 0 p)
    (hpq : AgreeBelow n p q) : AgreeBelow n (p >>= f) (q >>= f) :=
  bind hpq hp (Nat.le_refl _) fun _ => refl n _

theorem firstOf {n : Nat} {ι : Type} (is : List ι) {f g : ι → Parser α}
    (h : ∀ i, AgreeBelow n (f i) (g i)) (e : ParseError) :
    AgreeBelow n (Parser.firstOf e (is.map f)) (Parser.firstOf e (is.map g)) := by
  induction is generalizing e with
  | nil => exact refl n _
  | cons i is ih =>
    intro c hc
    show ((f i c).handle _ : Traced _ _ _) = (g i c).handle _
    rw [h i c hc]
    congr 1
    funext e'
    exact ih _ c hc

end AgreeBelow

variable {n : Nat} {body body' : Parser (List Node)}

theorem agreeBelow_blockTag (hb : Moves 0 body) (h : AgreeBelow n body body') :
    AgreeBelow (n + 3) (blockTag body) (blockTag body') := by
  unfold blockTag
  exact .bind (.refl _ _) (.expect _) (by simp) fun _ => .after moves_path fun _ =>
    .after moves_blanks fun _ => .after (.accept _) fun _ => .after moves_blanks fun _ =>
    .after (.mono (.expect _) (Nat.zero_le _)) fun _ => .after (.accept _) fun _ =>
    .before _ hb h

theorem agreeBelow_invertedTag (hb : Moves 0 body) (h : AgreeBelow n body body') :
    AgreeBelow (n + 3) (invertedTag body) (invertedTag body') := by
  unfold invertedTag
  exact .bind (.refl _ _) (.expect _) (by simp) fun _ => .after moves_path fun _ =>
    .after moves_blanks fun _ => .after (.mono (.expect _) (Nat.zero_le _)) fun _ =>
    .before _ hb h

/-- A node asks its body only about the text behind the opening of a block. -/
theorem agreeBelow_node (forms : List Form) (hb : Moves 0 body) (h : AgreeBelow n body body') :
    AgreeBelow (n + 3) (node forms body) (node forms body') := by
  intro c hc
  unfold node
  refine congrArg (Traced.write _ >>= ·) (funext fun _ => ?_)
  refine AgreeBelow.firstOf forms (fun f => ?_) _ c hc
  cases f with
  | block => exact agreeBelow_blockTag hb h
  | inverted => exact agreeBelow_invertedTag hb h
  | rawVar | var | comment | reference | dot | text => exact .refl _ _

/-- Two bounds above the length of the text give the same run. -/
theorem nodesWithin_agree (forms : List Form) : ∀ (bound bound' : Nat) (inside : Bool),
    AgreeBelow (min bound bound') (nodesWithin forms bound inside) (nodesWithin forms bound' inside)
  | 0, _, _ => fun c hc => by simp at hc
  | _ + 1, 0, _ => fun c hc => by simp at hc
  | bound + 1, bound' + 1, inside => by
    have ih := nodesWithin_agree forms bound bound'
    intro c hc
    unfold nodesWithin
    split
    · rfl
    · split
      · rfl
      · have inner := moves_nodesWithin forms bound true
        refine AgreeBelow.bind (n := min bound bound' + 1) (m := min bound bound') (k := 1) ?_
          (moves_node forms inner) (by omega) (fun _ => ?_) c (by omega)
        · exact (agreeBelow_node forms inner (ih true)).mono (by omega)
        · exact .before _ (moves_nodesWithin forms bound inside) (ih inside)

theorem nodesWithin_eq_nodes {forms : List Form} {bound : Nat} {inside : Bool} {c : Cursor}
    (h : c.rest.length < bound) : nodesWithin forms bound inside c = nodes forms inside c :=
  nodesWithin_agree forms bound (c.rest.length + 1) inside c (by omega)

theorem moves_nodes (forms : List Form) (inside : Bool) : Moves 0 (nodes forms inside) :=
  fun c => moves_nodesWithin _ _ _ c

theorem nodes_eq (forms : List Form) (inside : Bool) (c : Cursor) :
    nodes forms inside c =
      if c.rest = [] then
        if inside then raise (.endBefore (some (String.ofList endMark))) c else pure ([], c)
      else if inside = true ∧ endMark <+: c.rest then pure ([], c)
      else (do
        let first ← node forms (nodes forms true)
        let others ← nodes forms inside
        pure (first :: others) : Parser (List Node)) c := by
  show nodesWithin forms (c.rest.length + 1) inside c = _
  unfold nodesWithin
  split
  · rfl
  · split
    · rfl
    · refine AgreeBelow.bind (n := c.rest.length + 1) (m := c.rest.length) (k := 1) ?_
        (moves_node forms (moves_nodesWithin _ _ _)) (by omega) (fun _ => ?_) c (by omega)
      · refine (agreeBelow_node forms (n := c.rest.length) (moves_nodesWithin _ _ _) ?_).mono
          (by omega)
        exact fun d hd => nodesWithin_eq_nodes hd
      · exact .before _ (moves_nodesWithin _ _ _) fun d hd => nodesWithin_eq_nodes hd

end Stencil.Parser
