import Mathlib.Data.List.DropRight
import Stencil.Proofs.Furthest

/-!
# Positions are those of the text

Wherever a parser is on its way, also when it has gone back to try another form, its position tells
how much of the text lies behind it, and what is left of the text is the slice from there on. The
positions of errors are exact for that reason (`Template.positions_exact`). A `Route` lists the
places that a run comes to.
-/

namespace Stencil

/-! ### Slices -/

namespace Text

/-- The number of bytes of UTF-8. -/
def byteSize (cs : List Char) : Nat := (String.ofList cs).utf8ByteSize

@[simp] theorem byteSize_nil : byteSize [] = 0 := rfl

@[simp] theorem byteSize_cons (c : Char) (cs : List Char) :
    byteSize (c :: cs) = c.utf8Size + byteSize cs := by
  rw [byteSize, String.ofList_cons, String.utf8ByteSize_append, String.utf8ByteSize_singleton]
  rfl

@[simp] theorem byteSize_append (cs ds : List Char) :
    byteSize (cs ++ ds) = byteSize cs + byteSize ds := by
  rw [byteSize, String.ofList_append, String.utf8ByteSize_append]
  rfl

@[simp] theorem byteSize_toList (s : String) : byteSize s.toList = s.utf8ByteSize := by
  rw [byteSize, String.ofList_toList]

theorem eq_nil_of_byteSize {cs : List Char} (h : byteSize cs = 0) : cs = [] := by
  cases cs with
  | nil => rfl
  | cons c cs =>
    have := c.utf8Size_pos
    rw [byteSize_cons] at h
    omega

/-- The text in front of an offset and the text behind it. Inside a character and behind the end
there is no place to split. -/
def splitAt? : (offset : Nat) → List Char → Option (List Char × List Char)
  | 0, cs => some ([], cs)
  | _ + 1, [] => none
  | offset + 1, c :: cs =>
    if c.utf8Size ≤ offset + 1 then
      (splitAt? (offset + 1 - c.utf8Size) cs).map fun (front, back) => (c :: front, back)
    else none

/-- The text between two offsets. -/
def slice? (text : List Char) (start stop : Nat) : Option (List Char) :=
  ((splitAt? stop text).bind fun split => splitAt? start split.1).map Prod.snd

theorem splitAt?_byteSize (front back : List Char) :
    splitAt? (byteSize front) (front ++ back) = some (front, back) := by
  induction front with
  | nil => exact splitAt?.eq_1 back
  | cons c front ih =>
    obtain ⟨n, hn⟩ := Nat.exists_eq_add_of_lt c.utf8Size_pos
    have hsize : byteSize (c :: front) = byteSize front + n + 1 := by
      rw [byteSize_cons, hn]
      omega
    have hrest : byteSize front + n + 1 - c.utf8Size = byteSize front := by omega
    rw [hsize, List.cons_append, splitAt?, if_pos (by omega), hrest, ih]
    rfl

theorem slice?_byteSize (front part back : List Char) :
    slice? (front ++ part ++ back) (byteSize front) (byteSize (front ++ part)) = some part := by
  rw [slice?, splitAt?_byteSize, Option.bind_some, splitAt?_byteSize, Option.map_some]

end Text

open Text

/-! ### Places in a text -/

/-- The position behind the text that was read. -/
structure Position.Behind (read : List Char) (p : Position) : Prop where
  offset : p.offset = byteSize read
  line : p.line = 1 + read.count '\n'
  lineStart : p.lineStart + byteSize (read.rtakeWhile (· ≠ '\n')) = p.offset

/-- The error was raised behind the text that was read. Lines and columns count from 1. -/
structure ParseError.Behind (read : List Char) (e : ParseError) : Prop where
  offset : e.offset = byteSize read
  line : e.line = 1 + read.count '\n'
  column : e.column = 1 + byteSize (read.rtakeWhile (· ≠ '\n'))

/-- The cursor stands somewhere in the text, with the position of what lies before. -/
def Cursor.In (source : String) (c : Cursor) : Prop :=
  ∃ read, source.toList = read ++ c.rest ∧ c.position.Behind read

/-- The error was raised somewhere in the text. -/
def ParseError.In (source : String) (e : ParseError) : Prop :=
  ∃ read rest, source.toList = read ++ rest ∧ e.Behind read

namespace Position.Behind

variable {read : List Char} {p : Position}

theorem start : ({} : Position).Behind [] := ⟨rfl, rfl, rfl⟩

theorem next (h : p.Behind read) (c : Char) : (p.next c).Behind (read ++ [c]) := by
  obtain ⟨hoffset, hline, hstart⟩ := h
  unfold Position.next
  by_cases hc : c = '\n'
  · rw [if_pos hc]
    refine ⟨by simp [hoffset], ?_, by simp [hc]⟩
    simp [hc, hline, Nat.add_assoc]
  · rw [if_neg hc]
    refine ⟨by simp [hoffset], by simp [hc, hline], ?_⟩
    simp [hc, ← hstart, Nat.add_assoc]

theorem advance (h : p.Behind read) (cs : List Char) : (p.advance cs).Behind (read ++ cs) := by
  induction cs generalizing p read with
  | nil => rwa [List.append_nil]
  | cons c cs ih =>
    rw [Position.advance_cons, List.append_cons]
    exact ih (h.next c)

end Position.Behind

namespace Cursor.In

variable {source : String} {c d : Cursor}

theorem start (source : String) : (Cursor.start source).In source := ⟨[], rfl, .start⟩

theorem skip (h : c.In source) (k : Nat) : (c.skip k).In source := by
  obtain ⟨read, hsource, hp⟩ := h
  refine ⟨read ++ c.rest.take k, ?_, hp.advance _⟩
  rw [hsource, rest_skip, List.append_assoc, List.take_append_drop]

theorem error (h : c.In source) (cause : Cause) : (c.error cause).In source := by
  obtain ⟨read, hsource, hoffset, hline, hstart⟩ := h
  refine ⟨read, c.rest, hsource, hoffset, hline, ?_⟩
  show c.position.offset - c.position.lineStart + 1 = _
  omega

/-- What is left is the slice from the place on. -/
theorem slice_rest (h : c.In source) :
    slice? source.toList c.position.offset source.utf8ByteSize = some c.rest := by
  obtain ⟨read, hsource, hp⟩ := h
  have hslice := slice?_byteSize read c.rest []
  rwa [List.append_nil, ← hsource, byteSize_toList, ← hp.offset] at hslice

/-- What lies between two places is the slice from the one to the other. -/
theorem slice_between (hc : c.In source) (hd : d.In source)
    (hle : c.position.offset ≤ d.position.offset) :
    ∃ part, slice? source.toList c.position.offset d.position.offset = some part ∧
      c.rest = part ++ d.rest := by
  obtain ⟨read, hsource, hp⟩ := hc
  obtain ⟨read', hsource', hp'⟩ := hd
  rw [hp.offset, hp'.offset] at hle ⊢
  rcases List.append_eq_append_iff.mp (hsource.symm.trans hsource') with
    ⟨part, hread, hrest⟩ | ⟨part, hread, hrest⟩
  · refine ⟨part, ?_, hrest⟩
    rw [hsource', hread]
    exact slice?_byteSize read part d.rest
  · -- the second place is not before the first, so it is the same
    have hpart : part = [] := by
      refine eq_nil_of_byteSize ?_
      rw [hread, byteSize_append] at hle
      omega
    subst hpart
    rw [List.append_nil] at hread
    rw [hread]
    refine ⟨[], ?_, hrest.symm⟩
    rw [hsource']
    simpa using slice?_byteSize read' [] d.rest

end Cursor.In

/-! ### The places that a run comes to -/

/-- The places behind each of the next characters. -/
def Cursor.steps (c : Cursor) (n : Nat) : List Cursor := (List.range n).map fun k => c.skip (k + 1)

namespace Parser

/-- Where a run of the parser from `c` is after `c`, in turn. It moves one character at a time, and
after a failure goes back to try another parser. -/
inductive Route : {α : Type} → Parser α → Cursor → List Cursor → Prop
  | pure {α : Type} (a : α) (c : Cursor) : Route (Pure.pure a : Parser α) c []
  | raise {α : Type} (cause : Cause) (c : Cursor) : Route (raise cause : Parser α) c []
  | read {select : List Char → List Char} {c : Cursor} (h : select c.rest <+: c.rest) :
      Route (read select) c (c.steps (select c.rest).length)
  | accept (mark : List Char) (c : Cursor) :
      Route (accept mark) c (if mark <+: c.rest then c.steps mark.length else [])
  | expect (mark : List Char) (c : Cursor) :
      Route (expect mark) c (if mark <+: c.rest then c.steps mark.length else [])
  | look {α : Type} {f : Cursor → Parser α} {c : Cursor} {places : List Cursor}
      (h : Route (f c) c places) : Route (fun c => f c c) c places
  | note {α : Type} {cause : Cause} {p : Parser α} {c : Cursor} {places : List Cursor}
      (h : Route p c places) : Route (fun c => do Traced.write (c.error cause); p c) c places
  | stop {α β : Type} {p : Parser α} {f : α → Parser β} {c : Cursor} {e : ParseError}
      {places : List Cursor} (h : Route p c places) (he : (p c).result = .error e) :
      Route (p >>= f) c places
  | bind {α β : Type} {p : Parser α} {f : α → Parser β} {c c' : Cursor} {a : α}
      {places others : List Cursor} (h : Route p c places) (ha : (p c).result = .ok (a, c'))
      (h' : Route (f a) c' others) : Route (p >>= f) c (places ++ others)
  | exhausted {α : Type} (e : ParseError) (c : Cursor) : Route (firstOf e [] : Parser α) c []
  | found {α : Type} {e : ParseError} {p : Parser α} {ps : List (Parser α)} {c : Cursor}
      {r : α × Cursor} {places : List Cursor} (h : Route p c places) (hr : (p c).result = .ok r) :
      Route (firstOf e (p :: ps)) c places
  | back {α : Type} {e e' : ParseError} {p : Parser α} {ps : List (Parser α)} {c : Cursor}
      {places others : List Cursor} (h : Route p c places) (he : (p c).result = .error e')
      (h' : Route (firstOf (e.further e') ps) c others) :
      Route (firstOf e (p :: ps)) c (places ++ c :: others)

variable {α β : Type} {p : Parser α} {c : Cursor} {places : List Cursor} {source : String}
  {body : Parser (List Node)}

/-- A run from a place in a text stays in the text and raises its errors there. -/
structure Stays (source : String) (x : Traced ParseError ParseError (α × Cursor))
    (places : List Cursor) : Prop where
  places : ∀ d ∈ places, d.In source
  ok : ∀ a c', x.result = .ok (a, c') → c'.In source
  errors : ∀ e ∈ x.trail, e.In source

namespace Stays

theorem at_ (hc : c.In source) (a : α) : Stays source (Pure.pure (a, c)) [] := by
  refine ⟨nofun, fun a' c' h => ?_, nofun⟩
  cases h
  exact hc

theorem steps (hc : c.In source) (a : α) (n : Nat) :
    Stays source (Pure.pure (a, c.skip n)) (c.steps n) := by
  refine ⟨fun d hd => ?_, (at_ (hc.skip n) a).ok, nofun⟩
  obtain ⟨k, -, rfl⟩ := List.mem_map.mp hd
  exact hc.skip _

theorem raise (hc : c.In source) (cause : Cause) :
    Stays source ((Parser.raise cause : Parser α) c) [] :=
  ⟨nofun, nofun, List.forall_mem_singleton.mpr (hc.error cause)⟩

end Stays

theorem Route.stays (h : Route p c places) (hc : c.In source) : Stays source (p c) places := by
  induction h with
  | pure a c => exact .at_ hc a
  | raise cause c => exact .raise hc cause
  | read h => exact .steps hc _ _
  | accept mark c =>
    unfold Parser.accept
    split
    · exact .steps hc true _
    · exact .at_ hc false
  | expect mark c =>
    unfold Parser.expect
    split
    · exact .steps hc () _
    · exact .raise hc _
  | look _ ih => exact ih hc
  | @note _ cause p c _ _ ih =>
    have hp := ih hc
    have hnote : (Traced.write (c.error cause) >>= fun _ => p c) =
        ⟨c.error cause :: (p c).trail, (p c).result⟩ :=
      Traced.bind_of_ok (x := Traced.write (c.error cause)) rfl _
    show Stays source (Traced.write (c.error cause) >>= fun _ => p c) _
    rw [hnote]
    exact ⟨hp.places, hp.ok, List.forall_mem_cons.mpr ⟨hc.error cause, hp.errors⟩⟩
  | stop _ he ih =>
    have hp := ih hc
    rw [bind_apply, Traced.bind_of_error he]
    exact ⟨hp.places, nofun, hp.errors⟩
  | bind _ ha _ ih ih' =>
    have hp := ih hc
    have hf := ih' (hp.ok _ _ ha)
    rw [bind_apply, Traced.bind_of_ok ha]
    exact ⟨List.forall_mem_append.mpr ⟨hp.places, hf.places⟩, hf.ok,
      List.forall_mem_append.mpr ⟨hp.errors, hf.errors⟩⟩
  | exhausted e c => exact ⟨nofun, nofun, nofun⟩
  | found _ hr ih =>
    have hp := ih hc
    unfold firstOf
    rw [Traced.handle_of_ok hr]
    exact ⟨hp.places, fun a c' h => hp.ok a c' (hr.trans h), hp.errors⟩
  | back _ he _ ih ih' =>
    have hp := ih hc
    have hps := ih' hc
    unfold firstOf
    rw [Traced.handle_of_error he]
    exact ⟨List.forall_mem_append.mpr ⟨hp.places, List.forall_mem_cons.mpr ⟨hc, hps.places⟩⟩,
      hps.ok, List.forall_mem_append.mpr ⟨hp.errors, hps.errors⟩⟩

/-! ### Every run has a route -/

/-- From everywhere, a run of the parser has a route. -/
def Routed (p : Parser α) : Prop := ∀ c, ∃ places, Route p c places

theorem Routed.bind {f : α → Parser β} (hp : Routed p) (hf : ∀ a, Routed (f a)) :
    Routed (p >>= f) := by
  intro c
  obtain ⟨places, hplaces⟩ := hp c
  cases h : (p c).result with
  | error e => exact ⟨_, .stop hplaces h⟩
  | ok x =>
    obtain ⟨others, hothers⟩ := hf x.1 x.2
    exact ⟨_, .bind hplaces h hothers⟩

theorem Direct.routed (h : Direct body p) (hbody : Routed body) : Routed p := by
  induction h with
  | pure a => exact fun c => ⟨_, .pure a c⟩
  | raise _ _ => exact fun c => ⟨_, .raise _ c⟩
  | read h => exact fun c => ⟨_, .read (h c.rest)⟩
  | accept mark => exact fun c => ⟨_, .accept mark c⟩
  | expect mark => exact fun c => ⟨_, .expect mark c⟩
  | body => exact hbody
  | @look _ f _ ih => exact fun c => (ih c.rest c).imp fun _ => .look (f := fun c => f c.rest)
  | bind _ _ ihp ihf => exact ihp.bind ihf

theorem routed_firstOf {ps : List (Parser α)} (h : ∀ p ∈ ps, Routed p) (e : ParseError) :
    Routed (firstOf e ps) := by
  intro c
  induction ps generalizing e with
  | nil => exact ⟨_, .exhausted e c⟩
  | cons p ps ih =>
    obtain ⟨hp, hps⟩ := List.forall_mem_cons.mp h
    obtain ⟨places, hplaces⟩ := hp c
    cases hr : (p c).result with
    | ok r => exact ⟨_, .found hplaces hr⟩
    | error e' =>
      obtain ⟨others, hothers⟩ := ih hps (e.further e')
      exact ⟨_, .back hplaces hr hothers⟩

theorem Route.of_forms {forms : List Form}
    (h : Route (firstOf (c.error noForm) (forms.map (Form.parse body))) c places) :
    Route (node forms body) c places :=
  .look (f := fun d c => do
    Traced.write (c.error noForm)
    firstOf (d.error noForm) (forms.map (Form.parse body)) c) (.note h)

theorem routed_node (forms : List Form) (hbody : Routed body) : Routed (node forms body) := by
  intro c
  have hforms : ∀ p ∈ forms.map (Form.parse body), Routed p := fun p hp => by
    obtain ⟨f, -, rfl⟩ := List.mem_map.mp hp
    exact (direct_form f).routed hbody
  obtain ⟨places, h⟩ := routed_firstOf hforms (c.error noForm) c
  exact ⟨places, h.of_forms⟩

/-- How a run of nodes goes on from the place `c`. -/
def nodesFrom (forms : List Form) (bound : Nat) (inside : Bool) (c : Cursor) :
    Parser (List Node) :=
  if c.rest = [] then
    if inside then raise (.endBefore (some (String.ofList endMark))) else pure []
  else if inside = true ∧ endMark <+: c.rest then pure []
  else do
    let first ← node forms (nodesWithin forms bound true)
    let others ← nodesWithin forms bound inside
    pure (first :: others)

theorem nodesWithin_succ (forms : List Form) (bound : Nat) (inside : Bool) :
    nodesWithin forms (bound + 1) inside = fun c => nodesFrom forms bound inside c c := by
  funext c
  unfold nodesWithin nodesFrom
  split
  · split <;> rfl
  · split <;> rfl

theorem Route.of_nodesFrom {forms : List Form} {bound : Nat} {inside : Bool}
    (h : Route (nodesFrom forms bound inside c) c places) :
    Route (nodesWithin forms (bound + 1) inside) c places := by
  rw [nodesWithin_succ]
  exact .look (f := nodesFrom forms bound inside) h

theorem routed_nodesWithin (forms : List Form) (bound : Nat) :
    ∀ inside, Routed (nodesWithin forms bound inside) := by
  induction bound with
  | zero => exact fun _ c => ⟨_, .raise _ c⟩
  | succ bound ih =>
    intro inside c
    have hfrom : Routed (nodesFrom forms bound inside c) := by
      unfold nodesFrom
      split
      · split
        · exact fun c => ⟨_, .raise _ c⟩
        · exact fun c => ⟨_, .pure [] c⟩
      · split
        · exact fun c => ⟨_, .pure [] c⟩
        · exact (routed_node forms (ih true)).bind fun n => (ih inside).bind fun ns c =>
            ⟨_, .pure (n :: ns) c⟩
    exact (hfrom c).imp fun _ => Route.of_nodesFrom

theorem Route.of_nodesWithin {forms : List Form} {inside : Bool}
    (h : Route (nodesWithin forms (c.rest.length + 1) inside) c places) :
    Route (nodes forms inside) c places :=
  .look (f := fun c => nodesWithin forms (c.rest.length + 1) inside) h

theorem routed_nodes (forms : List Form) (inside : Bool) : Routed (nodes forms inside) := fun c =>
  (routed_nodesWithin forms _ inside c).imp fun _ => Route.of_nodesWithin

/-- A comment that is not closed. Variable and dot tags move over its two braces before they give up,
the comment itself to the end of the text, and after each form the run goes back to the start. -/
theorem exists_route_of_open_comment (body : Parser (List Node)) :
    ∃ places, Route (node Form.all body) (.start "\x7b\x7b!é\nß") places ∧
      places.map (·.position.offset) =
        [0, 1, 2, 0, 0, 0, 1, 2, 3, 5, 6, 8, 0, 0, 1, 2, 0, 0] := by
  let c : Cursor := .start "\x7b\x7b!é\nß"
  have hblanks (c : Cursor) : Route blanks c _ :=
    .bind (.read (List.takeWhile_prefix _)) rfl (.pure ..)
  have hpath : Route path (c.skip 2) _ := .bind (hblanks _) rfl <|
    .bind (.read (List.takeWhile_prefix _)) rfl (.raise (.expected "path") _)
  have hvariable : Route variableBody (c.skip 2) _ :=
    .bind (hblanks _) rfl (.bind (.accept ..) rfl (.stop hpath rfl))
  have hopening : Route opening c _ :=
    .bind (.accept ..) rfl (.bind (.expect ..) rfl (.pure ..))
  -- the forms in the order in which they are tried
  have hrawVar : Route (Form.rawVar.parse body) c _ := .stop (.expect ..) rfl
  have hvar : Route (Form.var.parse body) c _ := .bind (.expect ..) rfl (.stop hvariable rfl)
  have hblock : Route (Form.block.parse body) c _ := .stop (.expect ..) rfl
  have hinverted : Route (Form.inverted.parse body) c _ := .stop (.expect ..) rfl
  have hcomment : Route (Form.comment.parse body) c _ := .bind (.expect ..) rfl <|
    .bind (.read (Text.before_isPrefix ..)) rfl (.stop (.expect ..) rfl)
  have hreference : Route (Form.reference.parse body) c _ := .stop (.expect ..) rfl
  have hdot : Route (Form.dot.parse body) c _ := .bind hopening rfl <|
    .bind (hblanks _) rfl (.stop (.expect ..) rfl)
  have htext : Route (Form.text.parse body) c _ :=
    .bind (.read (Text.before_isPrefix ..)) rfl (.raise (.expected "text") _)
  have hforms : Route (firstOf (c.error noForm) (Form.all.map (Form.parse body))) c _ :=
    .back hrawVar rfl <| .back hvar rfl <| .back hblock rfl <| .back hinverted rfl <|
      .back hcomment rfl <| .back hreference rfl <| .back hdot rfl <| .back htext rfl <|
      .exhausted ..
  exact ⟨_, hforms.of_forms, by decide +kernel⟩

theorem trail_parseWith (forms : List Form) (source : String) :
    (parseWith forms source).trail = (nodes forms false (.start source)).trail := by
  unfold parseWith
  cases h : (nodes forms false (.start source)).result with
  | error e => rw [Traced.bind_of_error h]
  | ok x =>
    rw [Traced.bind_of_ok h]
    exact List.append_nil _

end Parser

theorem ParseError.In.offset_le {source : String} {e : ParseError} (h : e.In source) :
    e.offset ≤ source.utf8ByteSize := by
  obtain ⟨read, rest, hsource, he⟩ := h
  rw [he.offset, ← byteSize_toList, hsource, byteSize_append]
  exact Nat.le_add_right ..

/-- All errors that come up are raised in the text. -/
theorem Template.in_of_mem_diagnostics {source : String} {e : ParseError}
    (h : e ∈ Template.diagnostics source) : e.In source := by
  obtain ⟨places, hplaces⟩ := Parser.routed_nodes Parser.Form.all false (.start source)
  rw [Template.diagnostics, Parser.trail_parseWith] at h
  exact (hplaces.stays (.start source)).errors e h

/-- A text is refused with an error at its exact place. Wherever a run over the text comes to, its
position is that of the text before, and what it has left and what it has moved over are slices of
the text. -/
theorem Template.positions_exact (source : String) :
    (∀ e, Template.parse source = .error e → e.offset ≤ source.utf8ByteSize ∧ e.In source) ∧
    (∃ places, Parser.Route (Parser.nodes Parser.Form.all false) (.start source) places) ∧
    ∀ places, Parser.Route (Parser.nodes Parser.Form.all false) (.start source) places →
      ∀ c ∈ .start source :: places, c.In source ∧
        slice? source.toList c.position.offset source.utf8ByteSize = some c.rest ∧
        ∀ d ∈ .start source :: places, c.position.offset ≤ d.position.offset →
          ∃ part, slice? source.toList c.position.offset d.position.offset = some part ∧
            c.rest = part ++ d.rest := by
  refine ⟨fun e he => ?_, Parser.routed_nodes Parser.Form.all false _, fun places h => ?_⟩
  · have hmem : e ∈ Template.diagnostics source :=
      (Parser.furthest_parseWith Parser.Form.mem_all (Template.parse_eq_error he)).1.mem
    have hin := Template.in_of_mem_diagnostics hmem
    exact ⟨hin.offset_le, hin⟩
  · have hplaces : ∀ c ∈ .start source :: places, c.In source :=
      List.forall_mem_cons.mpr ⟨.start source, (h.stays (.start source)).places⟩
    exact fun c hc => ⟨hplaces c hc, (hplaces c hc).slice_rest,
      fun d hd hle => (hplaces c hc).slice_between (hplaces d hd) hle⟩

/-- Two characters of two bytes, one on each line, in a comment that is not closed. -/
theorem Template.positions_exact_two_lines :
    let source := "\x7b\x7b!é\nß"
    let e : ParseError := ⟨2, 3, 8, .endBefore (some "\x7d\x7d")⟩
    Template.parse source = .error e ∧ e.offset ≤ source.utf8ByteSize ∧ e.In source ∧
      ∃ places, Parser.Route (Parser.nodes Parser.Form.all false) (.start source) places ∧
        places.map (·.position.offset) =
          [0, 1, 2, 0, 0, 0, 1, 2, 3, 5, 6, 8, 0, 0, 1, 2, 0, 0] ∧
        ∀ c ∈ .start source :: places, c.In source ∧
          slice? source.toList c.position.offset source.utf8ByteSize = some c.rest ∧
          ∀ d ∈ .start source :: places, c.position.offset ≤ d.position.offset →
            ∃ part, slice? source.toList c.position.offset d.position.offset = some part ∧
              c.rest = part ++ d.rest := by
  intro source e
  have h : Template.parse source = .error e := by decide +kernel
  obtain ⟨herror, -, hroutes⟩ := Template.positions_exact source
  let c : Cursor := .start source
  let body := Parser.nodesWithin Parser.Form.all c.rest.length true
  obtain ⟨places, hnode, hoffsets⟩ := Parser.exists_route_of_open_comment body
  have hfails : (Parser.node Parser.Form.all body c).result.isOk = false := by decide +kernel
  have hfrom : Parser.Route (Parser.nodesFrom Parser.Form.all c.rest.length false c) c places := by
    rw [Parser.nodesFrom, if_neg (by decide +kernel), if_neg (by decide +kernel)]
    cases hr : (Parser.node Parser.Form.all body c).result with
    | error e => exact .stop hnode hr
    | ok r => rw [hr] at hfails; cases hfails
  have hroute := hfrom.of_nodesFrom.of_nodesWithin
  exact ⟨h, (herror e h).1, (herror e h).2, places, hroute, hoffsets, hroutes places hroute⟩

end Stencil
