import Mathlib.Data.List.Forall2

/-!
# Outcomes of computations that can fail

When a sequence succeeds, when a list of computations does. Both the reader and the shapes gather
words in order of their first occurrence (`eraseDups_append_singleton`).
-/

namespace Stencil

theorem eraseDups_append_singleton (words : List String) (word : String) :
    (words ++ [word]).eraseDups =
      if word ∈ words.eraseDups then words.eraseDups else words.eraseDups ++ [word] := by
  rw [List.eraseDups_append]
  by_cases h : word ∈ words <;> simp [List.removeAll, h, List.eraseDups_cons]

end Stencil

namespace Stencil.Outcome

variable {ε ε' α β : Type}

theorem bind_eq_ok {x : Except ε α} {f : α → Except ε β} {b : β} :
    x >>= f = .ok b ↔ ∃ a, x = .ok a ∧ f a = .ok b := by
  cases x with
  | error e => simp [bind, Except.bind]
  | ok a => simp [bind, Except.bind]

theorem bind_eq_error {x : Except ε α} {f : α → Except ε β} {e : ε} :
    x >>= f = .error e ↔ x = .error e ∨ ∃ a, x = .ok a ∧ f a = .error e := by
  cases x with
  | error e' => simp [bind, Except.bind]
  | ok a => simp [bind, Except.bind]

theorem exists_bind_ok_iff {x : Except ε α} {f : α → β} {P : β → Prop} :
    (∃ b, (x >>= fun a => .ok (f a)) = .ok b ∧ P b) ↔ ∃ a, x = .ok a ∧ P (f a) := by
  cases x with
  | error e => simp [bind, Except.bind]
  | ok a => simp [bind, Except.bind]

theorem mapError_eq_ok {f : ε → ε'} {x : Except ε α} {a : α} :
    x.mapError f = .ok a ↔ x = .ok a := by
  cases x <;> simp [Except.mapError]

theorem mapM_eq_ok {f : α → Except ε β} {as : List α} {bs : List β} :
    as.mapM f = .ok bs ↔ List.Forall₂ (fun a b => f a = .ok b) as bs := by
  induction as generalizing bs with
  | nil =>
    rw [List.mapM_nil]
    constructor
    · rintro ⟨⟩; exact .nil
    · rintro ⟨⟩; rfl
  | cons a as ih =>
    rw [List.mapM_cons, bind_eq_ok]
    constructor
    · rintro ⟨b, hb, h⟩
      obtain ⟨bs', hbs, h⟩ := bind_eq_ok.mp h
      cases h
      exact .cons hb (ih.mp hbs)
    · rintro (_ | ⟨hb, hbs⟩)
      exact ⟨_, hb, bind_eq_ok.mpr ⟨_, ih.mpr hbs, rfl⟩⟩

theorem exists_of_mem_left {R : α → β → Prop} {as : List α} {bs : List β}
    (h : List.Forall₂ R as bs) {a : α} (ha : a ∈ as) : ∃ b ∈ bs, R a b := by
  induction h with
  | nil => cases ha
  | cons hab _ ih =>
    rcases List.mem_cons.mp ha with rfl | ha
    · exact ⟨_, List.mem_cons_self .., hab⟩
    · obtain ⟨b, hb, h⟩ := ih ha
      exact ⟨b, List.mem_cons_of_mem _ hb, h⟩

theorem exists_of_mem_right {R : α → β → Prop} {as : List α} {bs : List β}
    (h : List.Forall₂ R as bs) {b : β} (hb : b ∈ bs) : ∃ a ∈ as, R a b :=
  exists_of_mem_left h.flip hb

theorem mapM_cases {f : α → Except ε β} {R : α → β → Prop} {failed : ε → Prop} {as : List α}
    (h : ∀ a ∈ as, (∃ b, f a = .ok b ∧ R a b) ∨ ∃ e, f a = .error e ∧ failed e) :
    (∃ bs, as.mapM f = .ok bs ∧ List.Forall₂ R as bs) ∨ ∃ e, as.mapM f = .error e ∧ failed e := by
  induction as with
  | nil => exact .inl ⟨[], rfl, .nil⟩
  | cons a as ih =>
    rw [List.mapM_cons]
    rcases h a (List.mem_cons_self ..) with ⟨b, hb, hab⟩ | ⟨e, he, hf⟩
    · rw [hb]
      rcases ih fun a' ha => h a' (List.mem_cons_of_mem _ ha) with ⟨bs, hbs, hR⟩ | ⟨e, he, hf⟩
      · exact .inl ⟨b :: bs, by rw [hbs]; rfl, .cons hab hR⟩
      · exact .inr ⟨e, by rw [he]; rfl, hf⟩
    · exact .inr ⟨e, by rw [he]; rfl, hf⟩

/-- If every step of a fold keeps `motive` or fails in a known way, `motive` holds at the end or the
fold fails in that way. `motive` speaks of the elements behind the fold and of what it reached. -/
theorem foldlM_cases {f : β → α → Except ε β} {motive : List α → β → Prop} {failed : ε → Prop}
    {start : β} {as : List α} (init : motive [] start)
    (step : ∀ seen a rest b, as = seen ++ a :: rest → motive seen b →
      (∃ b', f b a = .ok b' ∧ motive (seen ++ [a]) b') ∨ ∃ e, f b a = .error e ∧ failed e) :
    (∃ b, as.foldlM f start = .ok b ∧ motive as b) ∨
      ∃ e, as.foldlM f start = .error e ∧ failed e := by
  have go : ∀ (rest seen : List α) (b : β), as = seen ++ rest → motive seen b →
      (∃ b', rest.foldlM f b = .ok b' ∧ motive as b') ∨
        ∃ e, rest.foldlM f b = .error e ∧ failed e := by
    intro rest
    induction rest with
    | nil =>
      intro seen b hs hb
      rw [List.append_nil] at hs
      exact .inl ⟨b, rfl, hs ▸ hb⟩
    | cons a rest ih =>
      intro seen b hs hb
      rw [List.foldlM_cons]
      rcases step seen a rest b hs hb with ⟨b', hb', hm⟩ | ⟨e, he, hf⟩
      · rw [hb']
        exact ih (seen ++ [a]) b' (by rw [hs, List.append_assoc]; rfl) hm
      · exact .inr ⟨e, by rw [he]; rfl, hf⟩
  exact go as [] start rfl init

theorem foldlM_invariant {f : β → α → Except ε β} {motive : List α → β → Prop} {start end_ : β}
    {as : List α} (h : as.foldlM f start = .ok end_) (init : motive [] start)
    (step : ∀ seen a b b', motive seen b → a ∈ as → f b a = .ok b' → motive (seen ++ [a]) b') :
    motive as end_ := by
  have hstep : ∀ seen a rest b, as = seen ++ a :: rest → motive seen b →
      (∃ b', f b a = .ok b' ∧ motive (seen ++ [a]) b') ∨ ∃ e, f b a = .error e ∧ True := by
    intro seen a rest b has hb
    cases hf : f b a with
    | error e => exact .inr ⟨e, rfl, trivial⟩
    | ok b' => exact .inl ⟨b', rfl, step seen a b b' hb (by simp [has]) hf⟩
  rcases foldlM_cases init hstep with ⟨b, hb, hm⟩ | ⟨e, he, _⟩
  · cases h.symm.trans hb
    exact hm
  · cases h.symm.trans he

end Stencil.Outcome
