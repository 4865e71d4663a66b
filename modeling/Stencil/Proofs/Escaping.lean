import Stencil.Proofs.Coverage

/-!
# Printed text is safe inside markup

A template whose tags all escape what they print writes text in which markup finds nothing but
plain characters and references, whatever the data (`Template.safe_render`). Text is `Safe` piece by
piece: a reference never runs over the end of the piece that it begins in.
-/

namespace Stencil

namespace Text.Markup

/-- The characters that begin and end tags and the values of attributes. -/
def delimiters : List Char := ['<', '>', '"', '\'']

/-- The characters that markup gives a meaning to. -/
def special : List Char := '&' :: delimiters

/-- How the special characters are written as plain text. -/
def references : List (List Char) :=
  ["&amp;".toList, "&lt;".toList, "&gt;".toList, "&quot;".toList, "&#39;".toList]

/-- Text that markup reads as plain: without delimiters, and every ampersand in it begins a
reference. -/
structure Safe (cs : List Char) : Prop where
  plain : ∀ c ∈ cs, c ∉ delimiters
  reference : ∀ before after, cs = before ++ '&' :: after → ∃ r ∈ references, r <+: '&' :: after

variable {c : Char} {cs ds r : List Char}

namespace Safe

theorem of_plain (h : ∀ c ∈ cs, c ∉ special) : Safe cs := by
  refine ⟨fun c hc hd => h c hc (List.mem_cons_of_mem _ hd), fun before after hcs => ?_⟩
  exact absurd (List.mem_cons_self ..) (h '&' (by simp [hcs]))

theorem nil : Safe [] := of_plain nofun

theorem append (h : Safe cs) (h' : Safe ds) : Safe (cs ++ ds) := by
  refine ⟨fun c hc => ?_, fun before after hcs => ?_⟩
  · rcases List.mem_append.mp hc with hc | hc
    · exact h.plain c hc
    · exact h'.plain c hc
  · rcases List.append_eq_append_iff.mp hcs with ⟨mid, rfl, hds⟩ | ⟨mid, rfl, hmid⟩
    · exact h'.reference mid after hds
    · cases mid with
      | nil => exact h'.reference [] after (by simpa using hmid.symm)
      | cons a mid =>
        obtain ⟨rfl, rfl⟩ := List.cons.inj hmid
        -- the reference ends inside the first text
        obtain ⟨r, hr, hp⟩ := h.reference before mid rfl
        exact ⟨r, hr, hp.trans (List.prefix_append _ ds)⟩

theorem of_mem_references (hr : r ∈ references) : Safe r := by
  have hall : ∀ r ∈ references, r.head? = some '&' ∧
      r.tail.all (fun c => decide (c ∉ special)) = true := by decide
  obtain ⟨hhead, htail⟩ := hall r hr
  obtain ⟨tail, rfl⟩ := List.head?_eq_some_iff.mp hhead
  have htail : ∀ c ∈ tail, c ∉ special := fun c hc =>
    of_decide_eq_true (List.all_eq_true.mp htail c hc)
  refine ⟨fun c hc => ?_, fun before after hcs => ?_⟩
  · rcases List.mem_cons.mp hc with rfl | hc
    · decide
    · exact fun hd => htail c hc (List.mem_cons_of_mem _ hd)
  · cases before with
    | nil => exact ⟨_, hr, hcs ▸ List.prefix_rfl⟩
    | cons b before =>
      obtain ⟨-, rfl⟩ := List.cons.inj hcs
      exact absurd (List.mem_cons_self ..) (htail '&' (by simp))

end Safe

theorem spelling_of_not_mem (h : c ∉ special) : spelling c = [c] := by
  unfold spelling
  split <;> first | rfl | exact absurd (by decide) h

theorem spelling_mem_references (h : c ∈ special) : spelling c ∈ references := by
  simp only [special, delimiters, List.mem_cons, List.not_mem_nil, or_false] at h
  rcases h with rfl | rfl | rfl | rfl | rfl <;> decide

theorem safe_spelling (c : Char) : Safe (spelling c) := by
  by_cases h : c ∈ special
  · exact .of_mem_references (spelling_mem_references h)
  · rw [spelling_of_not_mem h]
    exact .of_plain (by simpa using h)

theorem safe_escapeChars (cs : List Char) : Safe (escapeChars cs) := by
  induction cs with
  | nil => exact .nil
  | cons c cs ih => exact (safe_spelling c).append ih

theorem safe_escape (s : String) : Safe (escape s).toList := by
  rw [toList_escape]
  exact safe_escapeChars _

theorem safe_append {s t : String} (hs : Safe s.toList) (ht : Safe t.toList) :
    Safe (s ++ t).toList := by
  rw [String.toList_append]
  exact hs.append ht

theorem safe_join {ss : List String} (h : ∀ s ∈ ss, Safe s.toList) :
    Safe (String.join ss).toList := by
  induction ss with
  | nil => exact .nil
  | cons s ss ih =>
    obtain ⟨hs, hss⟩ := List.forall_mem_cons.mp h
    rw [String.join_cons]
    exact safe_append hs (ih hss)

end Text.Markup

open Text.Markup

/-! ### Rendering -/

theorem Value.safe_place (found : Option Value) : Safe (Value.place false found).toList := by
  cases found with
  | none => exact .nil
  | some v => exact safe_escape v.print

theorem safe_renderAll {root context : Value} {ns : List Node}
    (h : ∀ n ∈ ns, Safe (n.render root context).toList) :
    Safe (renderAll root context ns).toList := by
  induction ns with
  | nil => exact .nil
  | cons n ns ih =>
    obtain ⟨hn, hns⟩ := List.forall_mem_cons.mp h
    exact safe_append hn (ih hns)

namespace Node

/-- By itself the node prints plain text or escaped data only. -/
def Escapes : Node → Prop
  | .text content => ∀ c ∈ content.toList, c ∉ special
  | .var _ raw _ _ | .dot raw => raw = false
  | .reference _ => False
  | .block .. | .inverted .. | .comment _ => True

theorem safe_render {n : Node} (h : n.Each Escapes) (root context : Value) :
    Safe (n.render root context).toList := by
  induction n using Node.contentInduction generalizing context with
  | text s => exact .of_plain h
  | comment s => exact .nil
  | reference name => exact h.elim
  | dot raw =>
    cases (h : raw = false)
    exact Value.safe_place _
  | var name raw type scope =>
    cases (h : raw = false)
    cases scope <;> exact Value.safe_place _
  | block name content optional ih =>
    refine safe_join fun s hs => ?_
    obtain ⟨item, _, rfl⟩ := List.mem_map.mp hs
    exact safe_renderAll fun m hm => ih m hm (eachOf_iff.mp h.2 m hm) item
  | inverted name content ih =>
    rw [render]
    split
    · exact .nil
    · exact safe_renderAll fun m hm => ih m hm (eachOf_iff.mp h.2 m hm) context

end Node

/-- If all tags of a template escape what they print, and its own text is plain, then what it prints
is safe inside markup, whatever the data. -/
theorem Template.render_safe {t : Template} (h : Node.EachOf Node.Escapes t.nodes) (data : Value) :
    Safe (t.render data).toList :=
  safe_renderAll fun n hn => n.safe_render (Node.eachOf_iff.mp h n hn) data data

/-- Data full of markup, printed inside a list and by a tag that reads from the root. -/
theorem Template.render_safe_tags :
    let tags : Path := ⟨["tags"], by simp⟩
    let name : Path := ⟨["user", "name"], by simp⟩
    let t : Template :=
      ⟨"\x7b\x7b#tags\x7d\x7d\x7b\x7b.\x7d\x7d: \x7b\x7b@user.name\x7d\x7d; " ++
          "\x7b\x7b/tags\x7d\x7d\x7b\x7b^user\x7d\x7dnobody\x7b\x7b/user\x7d\x7d",
        [.block tags [.dot false, .text ": ", .var name false none .root, .text "; "] false,
          .inverted ⟨["user"], by simp⟩ [.text "nobody"]]⟩
    let data : Value := .map
      [("tags", .list [.string "<b>", .list [.string "&", .string "\"lt;"]]),
        ("user", .map [("name", .string "it's &lt")])]
    Template.parse t.source = .ok t ∧ Node.EachOf Node.Escapes t.nodes ∧
      t.render data = "&lt;b&gt;: it&#39;s &amp;lt; &amp;,&quot;lt;: it&#39;s &amp;lt; " ∧
      Safe (t.render data).toList := by
  intro tags name t data
  have hp : Template.parse t.source = .ok t := by decide +kernel
  have hq : Node.EachOf Node.Escapes t.nodes := by
    simp [t, Node.EachOf, Node.Each, Node.Escapes, special, delimiters]
  exact ⟨hp, hq, by decide +kernel, Template.render_safe hq data⟩

end Stencil
