import Stencil.Proofs.Coverage

/-!
# Rendering reads no more than the inferred fields

Data can be cut down to the inferred fields without any effect on what is printed
(`Template.render_prune`), as long as inverted blocks hold no tags: inference does not look at their
content. What the rendering sees of the cut data is the cut of what it saw before, at every context
on the way; printed and tested, a cut value is as good as the whole one.
-/

namespace Stencil

def Fields.named? (fs : Fields) (name : String) : Option (Key × Shape) :=
  fs.find? fun f => f.1.name = name

theorem Fields.named?_of_mem {fs : Fields} {g : Key × Shape}
    (hd : (Shape.object fs).Distinct Key.name) (hg : g ∈ fs) : fs.named? g.1.name = some g := by
  cases hd with
  | object hnames hfields =>
    clear hfields
    induction fs with
    | nil => cases hg
    | cons f fs ih =>
      obtain ⟨hf, hnames⟩ := List.nodup_cons.mp hnames
      rcases List.mem_cons.mp hg with rfl | hg
      · exact List.find?_cons_of_pos (decide_eq_true rfl)
      · have hne : f.1.name ≠ g.1.name := fun h =>
          hf (h ▸ List.mem_map_of_mem (List.mem_map_of_mem hg))
        exact (List.find?_cons_of_neg (by simpa using hne)).trans (ih hg hnames)

theorem Shape.Distinct.of_mem_fields {α : Type} {key : Key → α} {s : Shape} {g : Key × Shape}
    (hs : s.Distinct key) (hg : g ∈ s.fields) : g.2.Distinct key := by
  cases hs with
  | leaf l => cases hg
  | object _ hfields => exact hfields g hg

theorem Shape.Tracks.distinct {α : Type} {key : Key → α} {optional : Bool} {s t : Shape}
    {path : List String} (h : s.Tracks optional path t) (hs : s.Distinct key) : t.Distinct key := by
  induction h with
  | last hg => exact hs.of_mem_fields hg
  | step hg _ _ _ ih => exact ih (hs.of_mem_fields hg)

namespace Value

mutual

/-- The part of the data that a shape describes: the entries of a map that no field is named after
are dropped, and a list is cut item by item. -/
def prune : Value → Shape → Value
  | map entries, .object fs => map (pruneEntries fs entries)
  | list items, .object fs => list (pruneItems (.object fs) items)
  | v, _ => v

def pruneItems (s : Shape) : List Value → List Value
  | [] => []
  | v :: vs => v.prune s :: pruneItems s vs

def pruneEntries (fs : Fields) : List (String × Value) → List (String × Value)
  | [] => []
  | (key, v) :: rest =>
    match fs.named? key with
    | some f => (key, v.prune f.2) :: pruneEntries fs rest
    | none => pruneEntries fs rest

end

theorem pruneItems_eq_map (s : Shape) (vs : List Value) : pruneItems s vs = vs.map (prune · s) := by
  induction vs with
  | nil => rfl
  | cons v vs ih => rw [pruneItems, ih, List.map_cons]

@[simp] theorem prune_leaf (v : Value) (l : Leaf) : v.prune (.leaf l) = v := by
  cases v <;> rfl

theorem prune_of_isScalar {v : Value} (h : v.isScalar = true) (s : Shape) : v.prune s = v := by
  cases v <;> first | rfl | cases h

@[simp] theorem isScalar_prune (v : Value) (s : Shape) : (v.prune s).isScalar = v.isScalar := by
  cases s with
  | leaf l => rw [prune_leaf]
  | object fs => cases v <;> rfl

@[simp] theorem truthy_prune (v : Value) (s : Shape) : (v.prune s).truthy = v.truthy := by
  cases s with
  | leaf l => rw [prune_leaf]
  | object fs =>
    cases v with
    | list items => simp [prune, truthy, pruneItems_eq_map]
    | _ => rfl

mutual

@[simp] theorem print_prune : ∀ (v : Value) (s : Shape), (v.prune s).print = v.print
  | list items, .object fs => by rw [prune, print, print, printAll_pruneItems items]
  | map entries, .object fs => rfl
  | null, .object _ | bool _, .object _ | number _, .object _ | string _, .object _ => rfl
  | v, .leaf l => by rw [prune_leaf]

theorem printAll_pruneItems : ∀ (vs : List Value) (s : Shape),
    printAll (pruneItems s vs) = printAll vs
  | [], _ => rfl
  | v :: vs, s => by rw [pruneItems, printAll, printAll, print_prune v s, printAll_pruneItems vs s]

end

/-! ### Paths through cut data -/

theorem lookup_pruneEntries (fs : Fields) (key : String) (entries : List (String × Value)) :
    (pruneEntries fs entries).lookup key =
      (fs.named? key).bind fun f => (entries.lookup key).map (prune · f.2) := by
  induction entries with
  | nil => cases fs.named? key <;> rfl
  | cons e rest ih =>
    obtain ⟨k, v⟩ := e
    rw [pruneEntries, Entries.lookup_cons_eq]
    split
    · rename_i f hf
      rw [Entries.lookup_cons_eq, ih]
      split
      · rename_i hk; rw [hk, hf]; rfl
      · rfl
    · rename_i hf
      rw [ih]
      split
      · rename_i hk; rw [hk, hf]; rfl
      · rfl

theorem child?_prune {s : Shape} {g : Key × Shape} (v : Value) (hs : s.Distinct Key.name)
    (hg : g ∈ s.fields) (hi : index? g.1.name = none) :
    (v.prune s).child? g.1.name = (v.child? g.1.name).map (prune · g.2) := by
  cases s with
  | leaf l => cases hg
  | object fs =>
    cases v with
    | map entries =>
      have hn := Fields.named?_of_mem hs hg
      rw [prune, child?, child?, lookup_pruneEntries, hn]
      rfl
    | list items => rw [prune, child?, child?, hi]; rfl
    | null | bool | number | string => rfl

theorem resolve?_prune {optional : Bool} {s t : Shape} {path : List String} (v : Value)
    (hs : s.Distinct Key.name) (ht : s.Tracks optional path t) :
    (v.prune s).resolve? path = (v.resolve? path).map (prune · t) := by
  induction ht generalizing v with
  | last hg hi =>
    by_cases hv : v.isScalar = true
    · rw [prune_of_isScalar hv, resolve?_of_isScalar hv, Option.map_some, prune_of_isScalar hv]
    · rw [resolve?, resolve?, isScalar_prune, if_neg hv, if_neg hv, child?_prune v hs hg hi]
      cases v.child? _ <;> rfl
  | step hg hi _ _ ih =>
    by_cases hv : v.isScalar = true
    · rw [prune_of_isScalar hv, resolve?_of_isScalar hv, Option.map_some, prune_of_isScalar hv]
    · rw [resolve?, resolve?, isScalar_prune, if_neg hv, if_neg hv, child?_prune v hs hg hi]
      cases v.child? _ with
      | none => rfl
      | some w => exact ih w (hs.of_mem_fields hg)

/-! ### What a tag does with cut data -/

theorem place_prune (raw : Bool) (found : Option Value) (s : Shape) :
    place raw (found.map (prune · s)) = place raw found := by
  cases found with
  | none => rfl
  | some v => rw [Option.map_some, place, place, print_prune]

theorem isPresent_prune (found : Option Value) (s : Shape) :
    isPresent (found.map (prune · s)) = isPresent found := by
  cases found with
  | none => rfl
  | some v => exact truthy_prune v s

theorem contexts_prune (found : Option Value) (s : Shape) :
    contexts (found.map (prune · s)) = (contexts found).map (prune · s) := by
  have hitem : ∀ v : Value, (if v.truthy = true then [v.prune s] else []) =
      (if v.truthy = true then [v] else []).map (prune · s) := fun v => by split <;> rfl
  cases found with
  | none => rfl
  | some v =>
    cases s with
    | leaf l => simp
    | object fs =>
      cases v with
      | list items => exact pruneItems_eq_map _ items
      | map entries => rfl
      | null => rfl
      | bool b => exact hitem (.bool b)
      | number x => exact hitem (.number x)
      | string t => exact hitem (.string t)

end Value

/-! ### Rendering cut data -/

namespace Node

def IsPlain : Node → Prop
  | .text _ | .comment _ | .reference _ => True
  | .var .. | .dot _ | .block .. | .inverted .. => False

/-- An inverted block holds plain nodes only. -/
def PlainInverted : Node → Prop
  | .inverted _ content => ∀ n ∈ content, n.IsPlain
  | _ => True

theorem IsPlain.render_eq {n : Node} (h : n.IsPlain) (root context root' context' : Value) :
    n.render root context = n.render root' context' := by
  cases n <;> first | rfl | exact h.elim

end Node

theorem renderAll_congr {root context root' context' : Value} {ns : List Node}
    (h : ∀ n ∈ ns, n.render root context = n.render root' context') :
    renderAll root context ns = renderAll root' context' ns := by
  induction ns with
  | nil => rfl
  | cons n ns ih =>
    rw [renderAll, renderAll, h n (List.mem_cons_self ..),
      ih fun m hm => h m (List.mem_cons_of_mem _ hm)]

theorem Node.render_prune_of_covered {root here : Shape} {n : Node} (hq : n.Each PlainInverted)
    (hc : n.Covered root here) (hr : root.Distinct Key.name) (hh : here.Distinct Key.name)
    (data context : Value) :
    n.render (data.prune root) (context.prune here) = n.render data context := by
  induction n using Node.contentInduction generalizing here context with
  | text | comment | reference => rfl
  | dot raw => rw [render, render, Value.place, Value.place, Value.print_prune]
  | var name raw type scope =>
    cases scope with
    | context =>
      obtain ⟨t, ht⟩ := hc
      rw [render, render, Value.resolve?_prune context hh ht, Value.place_prune]
    | root =>
      obtain ⟨t, ht⟩ := hc
      rw [render, render, Value.resolve?_prune data hr ht, Value.place_prune]
  | block name content optional ih =>
    obtain ⟨inner, ht, hcontent⟩ := hc
    have hitem : ∀ item : Value, renderAll (data.prune root) (item.prune inner) content =
        renderAll data item content := fun item => renderAll_congr fun m hm =>
      ih m hm (Node.eachOf_iff.mp hq.2 m hm) (allCovered_iff.mp hcontent m hm)
        (ht.distinct hh) item
    rw [render, render, Value.resolve?_prune context hh ht, Value.contexts_prune, List.map_map]
    exact congrArg String.join (List.map_congr_left fun item _ => hitem item)
  | inverted name content =>
    obtain ⟨t, ht⟩ := hc
    rw [render, render, Value.resolve?_prune context hh ht, Value.isPresent_prune,
      renderAll_congr fun m hm => (hq.1 m hm).render_eq _ _ data context]

/-- A template whose inverted blocks hold no tags prints the same for data cut to its fields. -/
theorem Template.render_prune {source : String} {t : Template} {fs : Fields}
    (h : Template.parse source = .ok t) (hq : Node.EachOf Node.PlainInverted t.nodes)
    (hf : t.fields = .ok fs) (data : Value) :
    t.render (data.prune (.object fs)) = t.render data := by
  obtain ⟨_, _, _, _, hs⟩ := infer_eq_ok.mp hf
  have hd := Fields.distinct_settle hs
  have hc := allCovered_iff.mp (Template.covered h hf)
  exact renderAll_congr fun n hn =>
    n.render_prune_of_covered (Node.eachOf_iff.mp hq n hn) (hc n hn) hd hd data data

/-- A list of which only names are printed, for data that holds more. -/
theorem Template.render_prune_tags :
    let tags : Path := ⟨["tags"], by simp⟩
    let t : Template :=
      ⟨"\x7b\x7b#tags\x7d\x7d\x7b\x7bname\x7d\x7d;\x7b\x7b.\x7d\x7d\x7b\x7b/tags\x7d\x7d" ++
          "\x7b\x7b^tags\x7d\x7dnone\x7b\x7b/tags\x7d\x7d",
        [.block tags [.var ⟨["name"], by simp⟩ false none .context, .text ";", .dot false] false,
          .inverted tags [.text "none"]]⟩
    let fs : Fields :=
      [({ name := "tags", array := true }, .object [({ name := "name" }, .leaf .any)])]
    let item : Value := .map [("age", .null), ("name", .string "Ann")]
    let data : Value := .map [("age", .null), ("tags", .list [item])]
    let pruned : Value := .map [("tags", .list [.map [("name", .string "Ann")]])]
    Template.parse t.source = .ok t ∧ Node.EachOf Node.PlainInverted t.nodes ∧
      t.fields = .ok fs ∧ data.prune (.object fs) = pruned ∧ t.render data = "Ann;" ∧
      t.render pruned = "Ann;" := by
  intro tags t fs item data pruned
  have hp : Template.parse t.source = .ok t := by decide +kernel
  have hq : Node.EachOf Node.PlainInverted t.nodes := by
    simp [t, Node.EachOf, Node.Each, Node.PlainInverted, Node.IsPlain]
  have hpruned : data.prune (.object fs) = pruned := by rfl
  have hdata : t.render data = "Ann;" := by decide +kernel
  have hrender : t.render (data.prune (.object fs)) = t.render data :=
    Template.render_prune hp hq rfl data
  exact ⟨hp, hq, rfl, hpruned, hdata, hpruned ▸ hrender.trans hdata⟩

end Stencil
