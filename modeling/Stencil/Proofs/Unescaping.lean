import Stencil.Proofs.Escaping

/-!
# Escaping loses nothing

No spelling of a character begins the spelling of another one, so escaped text falls into spellings
in one way only, whatever references the text held before it was escaped (`escapeChars_inj`). A tag
in double braces therefore tells data apart exactly if the same tag in triple braces does
(`Node.escape_faithful`).
-/

namespace Stencil

namespace Text.Markup

variable {c d : Char} {cs ds : List Char}

theorem spelling_ne_nil (c : Char) : spelling c ≠ [] := by
  by_cases h : c ∈ special
  · have hall : ∀ r ∈ references, r ≠ [] := by decide
    exact hall _ (spelling_mem_references h)
  · rw [spelling_of_not_mem h]
    exact List.cons_ne_nil c []

/-- The spelling of a special character starts like no other character is spelled. -/
theorem head?_spelling (h : c ∈ special) : (spelling c).head? = some '&' := by
  have hall : ∀ r ∈ references, r.head? = some '&' := by decide
  exact hall _ (spelling_mem_references h)

/-- The spellings are a prefix code. -/
theorem spelling_prefixFree (h : spelling c <+: spelling d) : c = d := by
  have hhead : (spelling c).head? = (spelling d).head? := by
    obtain ⟨rest, hrest⟩ := h
    rw [← hrest, List.head?_append_of_ne_nil _ (spelling_ne_nil c)]
  by_cases hc : c ∈ special
  · by_cases hd : d ∈ special
    · have hall : special.all (fun c => special.all fun d =>
          decide (spelling c <+: spelling d → c = d)) = true := by decide
      exact of_decide_eq_true (List.all_eq_true.mp (List.all_eq_true.mp hall c hc) d hd) h
    · rw [head?_spelling hc, spelling_of_not_mem hd] at hhead
      cases hhead
      exact absurd (List.mem_cons_self ..) hd
  · by_cases hd : d ∈ special
    · rw [spelling_of_not_mem hc, head?_spelling hd] at hhead
      cases hhead
      exact absurd (List.mem_cons_self ..) hc
    · rw [spelling_of_not_mem hc, spelling_of_not_mem hd] at hhead
      exact Option.some.inj hhead

/-- A spelling can be split off the front of a text in one way. -/
theorem spelling_append_inj (h : spelling c ++ cs = spelling d ++ ds) : c = d ∧ cs = ds := by
  have hcd : c = d := by
    rcases List.prefix_or_prefix_of_prefix (List.prefix_append (spelling c) cs)
      (h ▸ List.prefix_append (spelling d) ds) with hp | hp
    · exact spelling_prefixFree hp
    · exact (spelling_prefixFree hp).symm
  subst hcd
  exact ⟨rfl, List.append_cancel_left h⟩

theorem escapeChars_inj : escapeChars cs = escapeChars ds ↔ cs = ds := by
  refine ⟨fun h => ?_, fun h => h ▸ rfl⟩
  induction cs generalizing ds with
  | nil =>
    cases ds with
    | nil => rfl
    | cons d ds => exact absurd (List.append_eq_nil_iff.mp h.symm).1 (spelling_ne_nil d)
  | cons c cs ih =>
    cases ds with
    | nil => exact absurd (List.append_eq_nil_iff.mp h).1 (spelling_ne_nil c)
    | cons d ds =>
      obtain ⟨rfl, hrest⟩ := spelling_append_inj h
      rw [ih hrest]

theorem escape_inj {s t : String} : escape s = escape t ↔ s = t := by
  rw [← String.toList_inj, toList_escape, toList_escape, escapeChars_inj, String.toList_inj]

/-- A reference that stands in a text is escaped like the rest of it. -/
example : escape "<" = "&lt;" ∧ escape "&lt;" = "&amp;lt;" := by decide

end Text.Markup

open Text.Markup

theorem Value.place_escaped (found : Option Value) :
    place false found = escape (place true found) := by
  cases found with
  | none => rfl
  | some v => rfl

namespace Node

theorem render_var_escaped (name : Path) (type : Option ValueType) (scope : Scope)
    (root context : Value) : (var name false type scope).render root context =
      escape ((var name true type scope).render root context) := by
  cases scope <;> exact Value.place_escaped _

/-- Different texts stay different when they are escaped. So wherever a variable tag stands, two
pieces of data that print alike escaped also print alike raw. -/
theorem escape_faithful :
    (∀ s t : String, escape s = escape t ↔ s = t) ∧
      ∀ (name : Path) (type : Option ValueType) (scope : Scope)
        (root context root' context' : Value),
        (var name false type scope).render root context =
            (var name false type scope).render root' context' ↔
          (var name true type scope).render root context =
            (var name true type scope).render root' context' := by
  refine ⟨fun s t => escape_inj, fun name type scope root context root' context' => ?_⟩
  rw [render_var_escaped, render_var_escaped, escape_inj]

end Node

end Stencil
