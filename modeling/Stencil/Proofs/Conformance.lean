import Stencil.Proofs.Coverage

/-!
# Data of the inferred shape

Rendering is taken apart into the texts it writes and the lookups it makes, in their order
(`printed_events`). When the data is of the inferred shape, no lookup outside inverted blocks comes
back empty unless the tag allows it or its path runs through a list (`Template.found_of_servedBy`).
-/

namespace Stencil

/-! ### Serving a shape -/

namespace Shape

mutual

/-- Data of a shape: a scalar for a leaf, for an object a map that has an entry for each field that
is not optional, and of which each entry with the name of a field is of the shape of that field. -/
def ServedBy : Shape → Value → Prop
  | leaf _, v => v.isScalar = true
  | object fs, v => (∃ entries, v = .map entries) ∧ AllServed v fs

def AllServed (v : Value) : List (Key × Shape) → Prop
  | [] => True
  | (k, s) :: fs =>
    ((k.optional = false → ∃ w, v.get? k.name = some w) ∧
      ∀ w, v.get? k.name = some w →
        if k.array then ∃ items, w = .list items ∧ ∀ item ∈ items, s.ServedBy item
        else s.ServedBy w) ∧
    AllServed v fs

end

structure HeldBy (g : Key × Shape) (v : Value) : Prop where
  present : g.1.optional = false → ∃ w, v.get? g.1.name = some w
  list : g.1.array = true → ∀ w, v.get? g.1.name = some w →
    ∃ items, w = .list items ∧ ∀ item ∈ items, g.2.ServedBy item
  value : g.1.array = false → ∀ w, v.get? g.1.name = some w → g.2.ServedBy w

theorem allServed_iff {v : Value} {fs : List (Key × Shape)} :
    AllServed v fs ↔ ∀ g ∈ fs, HeldBy g v := by
  induction fs with
  | nil => simp [AllServed]
  | cons g fs ih =>
    obtain ⟨⟨name, optional, array⟩, s⟩ := g
    rw [AllServed, ih, List.forall_mem_cons]
    refine and_congr ?_ Iff.rfl
    constructor
    · rintro ⟨hp, hw⟩
      exact ⟨hp, fun ha w h => by simpa [show array = true from ha] using hw w h,
        fun ha w h => by simpa [show array = false from ha] using hw w h⟩
    · rintro ⟨hp, hl, hv⟩
      refine ⟨hp, fun w h => ?_⟩
      cases array with
      | true => exact hl rfl w h
      | false => exact hv rfl w h

theorem ServedBy.of_mem {s : Shape} {g : Key × Shape} {v : Value} (h : s.ServedBy v)
    (hg : g ∈ s.fields) : (∃ entries, v = .map entries) ∧ HeldBy g v := by
  cases s with
  | leaf l => cases hg
  | object fs =>
    rw [ServedBy] at h
    exact ⟨h.1, allServed_iff.mp h.2 g hg⟩

theorem not_servedBy_list {s : Shape} {items : List Value} : ¬ s.ServedBy (.list items) := by
  cases s with
  | leaf l => rw [ServedBy]; exact Bool.false_ne_true
  | object fs => rw [ServedBy]; rintro ⟨⟨_, ⟨⟩⟩, _⟩

end Shape

/-! ### Paths through served data -/

/-- Following the path leads to a list before its end. -/
def Value.PassesList (v : Value) (path : List String) : Prop :=
  ∃ before after items, before ≠ [] ∧ after ≠ [] ∧ path = before ++ after ∧
    v.resolve? before = some (.list items)

namespace Shape

section
variable {optional : Bool} {s t : Shape} {path : List String} {v w : Value}

theorem Tracks.ne_nil (ht : s.Tracks optional path t) : path ≠ [] := by
  cases ht <;> exact List.cons_ne_nil _ _

theorem Tracks.resolve?_list {items : List Value} (ht : s.Tracks optional path t) :
    (Value.list items).resolve? path = none := by
  cases ht with
  | last _ hi | step _ hi => simp [Value.resolve?, Value.isScalar, Value.child?, hi]

theorem Tracks.served (ht : s.Tracks optional path t) (hs : s.ServedBy v)
    (hw : v.resolve? path = some w) :
    t.ServedBy w ∨ ∃ items, w = .list items ∧ ∀ item ∈ items, t.ServedBy item := by
  induction ht generalizing v with
  | @last s g hg hi ho =>
    obtain ⟨⟨entries, rfl⟩, hheld⟩ := hs.of_mem hg
    have hget : (Value.map entries).get? g.1.name = some w := by
      simpa [Value.resolve?, Value.isScalar, Value.child?, Value.get?] using hw
    cases ha : g.1.array with
    | true => exact .inr (hheld.list ha w hget)
    | false => exact .inl (hheld.value ha w hget)
  | @step s t g rest hg hi ho inner ih =>
    obtain ⟨⟨entries, rfl⟩, hheld⟩ := hs.of_mem hg
    obtain ⟨x, hx, hw⟩ : ∃ x, (Value.map entries).get? g.1.name = some x ∧
        x.resolve? rest = some w := Option.bind_eq_some_iff.mp hw
    cases ha : g.1.array with
    | true =>
      obtain ⟨items, rfl, _⟩ := hheld.list ha x hx
      rw [inner.resolve?_list] at hw
      cases hw
    | false => exact ih (hheld.value ha x hx) hw

theorem Tracks.found (ht : s.Tracks false path t) (hs : s.ServedBy v) :
    (∃ w, v.resolve? path = some w) ∨ v.PassesList path := by
  induction ht generalizing v with
  | @last s g hg hi ho =>
    obtain ⟨⟨entries, rfl⟩, hheld⟩ := hs.of_mem hg
    have hreq : g.1.optional = false := by
      cases h : g.1.optional with
      | true => exact (ho h).symm
      | false => rfl
    obtain ⟨w, hw⟩ := hheld.present hreq
    exact .inl ⟨w, Option.bind_eq_some_iff.mpr ⟨w, hw, rfl⟩⟩
  | @step s t g rest hg hi ho inner ih =>
    obtain ⟨⟨entries, rfl⟩, hheld⟩ := hs.of_mem hg
    obtain ⟨x, hx⟩ := hheld.present ho
    cases ha : g.1.array with
    | true =>
      obtain ⟨items, rfl, _⟩ := hheld.list ha x hx
      exact .inr ⟨[g.1.name], rest, items, List.cons_ne_nil _ _, inner.ne_nil, rfl,
        Option.bind_eq_some_iff.mpr ⟨_, hx, rfl⟩⟩
    | false =>
      rcases ih (hheld.value ha x hx) with ⟨w, hw⟩ | ⟨before, after, items, hb, ha', rfl, hl⟩
      · exact .inl ⟨w, Option.bind_eq_some_iff.mpr ⟨x, hx, hw⟩⟩
      · exact .inr ⟨g.1.name :: before, after, items, List.cons_ne_nil _ _, ha', rfl,
          Option.bind_eq_some_iff.mpr ⟨x, hx, hl⟩⟩

theorem Tracks.served_of_mem_contexts (ht : s.Tracks optional path t) (hs : s.ServedBy v)
    (hw : w ∈ Value.contexts (v.resolve? path)) : t.ServedBy w := by
  cases hv : v.resolve? path with
  | none => rw [hv] at hw; cases hw
  | some x =>
    rw [hv] at hw
    rcases ht.served hs hv with hx | ⟨items, rfl, hitems⟩
    · cases x with
      | list items => exact absurd hx not_servedBy_list
      | null | bool | number | string | map =>
        rw [Value.contexts] at hw
        split at hw
        · exact List.mem_singleton.mp hw ▸ hx
        · cases hw
        · nofun
    · exact hitems w hw

end

end Shape

/-! ### The lookups of a rendering -/

/-- A variable tag on its turn, with the data that its path starts from. -/
structure Lookup where
  base : Value
  name : Path
  raw : Bool
  type : Option ValueType
  /-- The tag stands inside an inverted block. -/
  inverted : Bool

def Lookup.found (l : Lookup) : Option Value := l.base.resolve? l.name.segments

/-- The tag allows that nothing is found. -/
def Lookup.optional (l : Lookup) : Bool := l.type.elim false ValueType.optional

inductive Event where
  | text (content : String)
  | lookup (l : Lookup)

def Event.printed : Event → String
  | text content => content
  | lookup l => Value.place l.raw l.found

mutual

def Node.events (root context : Value) (inverted : Bool) : Node → List Event
  | .text content => [.text content]
  | .var name raw type scope =>
    let base := match scope with
      | .context => context
      | .root => root
    [.lookup { base, name, raw, type, inverted }]
  | .dot raw => [.text (Value.place raw (some context))]
  | .block name content _ =>
    (Value.contexts (context.resolve? name.segments)).flatMap fun item =>
      eventsAll root item inverted content
  | .inverted name content =>
    if Value.isPresent (context.resolve? name.segments) then []
    else eventsAll root context true content
  | .comment _ => []
  | .reference name => [.text name.reference]

def eventsAll (root context : Value) (inverted : Bool) : List Node → List Event
  | [] => []
  | n :: ns => n.events root context inverted ++ eventsAll root context inverted ns

end

def Template.events (t : Template) (data : Value) : List Event := eventsAll data data false t.nodes

section
variable {root context : Value} {inverted : Bool} {n : Node} {ns : List Node}

theorem mem_eventsAll_iff {e : Event} :
    e ∈ eventsAll root context inverted ns ↔ ∃ n ∈ ns, e ∈ n.events root context inverted := by
  induction ns with
  | nil => simp [eventsAll]
  | cons n ns ih => simp [eventsAll, ih]

theorem printed_eventsAll_of_nodes
    (h : ∀ n ∈ ns, String.join ((n.events root context inverted).map Event.printed) =
      n.render root context) :
    String.join ((eventsAll root context inverted ns).map Event.printed) =
      renderAll root context ns := by
  induction ns with
  | nil => rfl
  | cons n ns ih =>
    rw [eventsAll, renderAll, List.map_append, String.join_append, h n (List.mem_cons_self ..),
      ih fun m hm => h m (List.mem_cons_of_mem _ hm)]

theorem Node.printed_events (root context : Value) (inverted : Bool) (n : Node) :
    String.join ((n.events root context inverted).map Event.printed) = n.render root context := by
  induction n using Node.contentInduction generalizing context inverted with
  | text s => simp [events, render, Event.printed]
  | comment s => rfl
  | reference name => simp [events, render, Event.printed]
  | dot raw => simp [events, render, Event.printed]
  | var name raw type scope => cases scope <;> simp [events, render, Event.printed, Lookup.found]
  | block name content optional ih =>
    rw [events, render]
    induction Value.contexts (context.resolve? name.segments) with
    | nil => rfl
    | cons item items ihi =>
      rw [List.flatMap_cons, List.map_append, String.join_append, ihi, List.map_cons,
        printed_eventsAll_of_nodes fun m hm => ih m hm item inverted]
      simp
  | inverted name content ih =>
    rw [events, render]
    split
    · rfl
    · exact printed_eventsAll_of_nodes fun m hm => ih m hm context true

theorem Template.printed_events (t : Template) (data : Value) :
    String.join ((t.events data).map Event.printed) = t.render data :=
  printed_eventsAll_of_nodes fun n _ => n.printed_events data data false

end

/-! ### Lookups in data of the inferred shape -/

section
variable {root context : Value} {inverted : Bool} {n : Node} {l : Lookup}

theorem Node.inverted_of_mem_events (h : .lookup l ∈ n.events root context true) :
    l.inverted = true := by
  induction n using Node.contentInduction generalizing context with
  | text | comment | reference | dot => simp [events] at h
  | var name raw type scope =>
    cases scope <;>
    · rw [events, List.mem_singleton] at h
      cases h
      rfl
  | block name content optional ih =>
    rw [events, List.mem_flatMap] at h
    obtain ⟨item, _, h⟩ := h
    obtain ⟨m, hm, h⟩ := mem_eventsAll_iff.mp h
    exact ih m hm h
  | inverted name content ih =>
    rw [events] at h
    split at h
    · cases h
    · obtain ⟨m, hm, h⟩ := mem_eventsAll_iff.mp h
      exact ih m hm h

theorem Node.found_of_covered {rootShape here : Shape} (hc : n.Covered rootShape here)
    (hr : rootShape.ServedBy root) (hh : here.ServedBy context)
    (hl : .lookup l ∈ n.events root context inverted) (hi : l.inverted = false)
    (ho : l.optional = false) :
    (∃ w, l.found = some w) ∨ l.base.PassesList l.name.segments := by
  induction n using Node.contentInduction generalizing here context inverted with
  | text | comment | reference | dot => simp [events] at hl
  | var name raw type scope =>
    cases scope with
    | context =>
      obtain ⟨t, ht⟩ := hc
      rw [events, List.mem_singleton] at hl
      cases hl
      rw [show type.elim false ValueType.optional = false from ho] at ht
      exact ht.found hh
    | root =>
      obtain ⟨t, ht⟩ := hc
      rw [events, List.mem_singleton] at hl
      cases hl
      rw [show type.elim false ValueType.optional = false from ho] at ht
      exact ht.found hr
  | block name content optional ih =>
    obtain ⟨inner, ht, hcontent⟩ := hc
    rw [events, List.mem_flatMap] at hl
    obtain ⟨item, hitem, hl⟩ := hl
    obtain ⟨m, hm, hl⟩ := mem_eventsAll_iff.mp hl
    exact ih m hm (allCovered_iff.mp hcontent m hm) (ht.served_of_mem_contexts hh hitem) hl
  | inverted name content =>
    rw [events] at hl
    split at hl
    · cases hl
    · obtain ⟨m, _, hl⟩ := mem_eventsAll_iff.mp hl
      rw [Node.inverted_of_mem_events hl] at hi
      cases hi

end

/-- Data of the inferred shape is rendered as the texts and the printed lookups of the run, in their
order. Of these lookups, every one of a tag that is neither optional nor inside an inverted block
finds something, unless a part of its path leads to a list. -/
theorem Template.found_of_servedBy {source : String} {t : Template} {fs : Fields} {data : Value}
    (h : Template.parse source = .ok t) (hf : t.fields = .ok fs)
    (hd : (Shape.object fs).ServedBy data) :
    (Stencil.render source data).result = .ok (String.join ((t.events data).map Event.printed)) ∧
      ∀ l, .lookup l ∈ t.events data → l.inverted = false → l.optional = false →
        (∃ w, l.found = some w) ∨ l.base.PassesList l.name.segments := by
  refine ⟨?_, fun l hl hi ho => ?_⟩
  · rw [t.printed_events data, Template.render_of_parse h]
  obtain ⟨n, hn, hl⟩ := mem_eventsAll_iff.mp hl
  exact n.found_of_covered (allCovered_iff.mp (Template.covered h hf) n hn) hd hd hl hi ho

/-- In data that the template is meant for, the name of an item is found; a path through the list of
items finds nothing. -/
theorem Template.found_of_servedBy_tags :
    let tags : Path := ⟨["tags"], by simp⟩
    let name : Path := ⟨["name"], by simp⟩
    let t : Template :=
      ⟨"\x7b\x7b#tags\x7d\x7d\x7b\x7bname\x7d\x7d\x7b\x7b.\x7d\x7d\x7b\x7b/tags\x7d\x7d" ++
          "!\x7b\x7btags.name\x7d\x7d",
        [.block tags [.var name false none .context, .dot false] false, .text "!",
          .var (tags ++ name) false none .context]⟩
    let fs : Fields :=
      [({ name := "tags", array := true }, .object [({ name := "name" }, .leaf .any)])]
    let item : Value := .map [("name", .string "Ann")]
    let data : Value := .map [("tags", .list [item])]
    let inner : Lookup := ⟨item, name, false, none, false⟩
    let outer : Lookup := ⟨data, tags ++ name, false, none, false⟩
    Template.parse t.source = .ok t ∧ t.fields = .ok fs ∧ (Shape.object fs).ServedBy data ∧
      t.events data = [.lookup inner, .text "", .text "!", .lookup outer] ∧
      inner.found = some (.string "Ann") ∧ outer.found = none ∧
      (Stencil.render t.source data).result = .ok "Ann!" ∧
      outer.base.PassesList outer.name.segments := by
  intro tags name t fs item data inner outer
  have hp : Template.parse t.source = .ok t := by decide +kernel
  have hd : (Shape.object fs).ServedBy data := by
    simp [fs, data, item, Shape.ServedBy, Shape.AllServed, Value.get?, Value.isScalar]
  have hevents : t.events data = [.lookup inner, .text "", .text "!", .lookup outer] := by rfl
  obtain ⟨hrender, hfound⟩ := Template.found_of_servedBy hp rfl hd
  rw [hevents] at hrender
  have hl : .lookup outer ∈ t.events data := by simp [hevents]
  have hpasses : outer.base.PassesList outer.name.segments := by
    obtain ⟨w, hw⟩ | hpasses := hfound outer hl rfl rfl
    · cases hw
    · exact hpasses
  exact ⟨hp, rfl, hd, hevents, rfl, rfl, hrender, hpasses⟩

end Stencil
