import Stencil.Proofs.Demands
import Stencil.Template

/-!
# Which conflicts are noted

What a template asks for is collected tag by tag and then settled. A conflict that settling runs into
is noted for debugging, once and in the words of the conflict; one that comes up earlier is not. So
the conflict of a template is noted exactly if its tags agree mark by mark
(`inferDeclaration_debugRecords`), and a template that is declared leaves no such record.
-/

namespace Stencil

open Outcome

namespace Traced

variable {ε α β : Type} {x : Traced Record ε α} {f : α → Traced Record ε β}

/-- What was noted for debugging, in order. -/
def debugRecords (x : Traced Record ε α) : List Record := x.trail.filter fun r => r.level = .debug

/-- Nothing was noted for debugging. -/
def Quiet (x : Traced Record ε α) : Prop := x.debugRecords = []

theorem debugRecords_bind_of_ok {a : α} (h : x.result = .ok a) :
    (x >>= f).debugRecords = x.debugRecords ++ (f a).debugRecords := by
  rw [bind_of_ok h]
  exact List.filter_append ..

theorem debugRecords_bind_of_error {e : ε} (h : x.result = .error e) :
    (x >>= f).debugRecords = x.debugRecords := by
  rw [bind_of_error h]
  rfl

namespace Quiet

theorem pure (a : α) : (Pure.pure a : Traced Record ε α).Quiet := rfl

theorem ofExcept (r : Except ε α) : (Traced.ofExcept r : Traced Record ε α).Quiet := rfl

theorem write {r : Record} (h : r.level = .trace) :
    (Traced.write r : Traced Record ε Unit).Quiet := by
  simp [Quiet, debugRecords, h]

theorem bind (hx : x.Quiet) (hf : ∀ a, (f a).Quiet) : (x >>= f).Quiet := by
  cases h : x.result with
  | error e => exact (debugRecords_bind_of_error h).trans hx
  | ok a =>
    refine (debugRecords_bind_of_ok h).trans ?_
    rw [show x.debugRecords = [] from hx, show (f a).debugRecords = [] from hf a, List.append_nil]

end Quiet

end Traced

open Traced

section
variable {ns : List Node} {t : Template} {source : String}

/-! ### Collecting is quiet -/

theorem quiet_addHere (r : Requirements) (fs : Fields) : (r.addHere fs).Quiet :=
  (Quiet.ofExcept _).bind fun _ => .pure _

theorem quiet_addRoot (r : Requirements) (fs : Fields) : (r.addRoot fs).Quiet :=
  (Quiet.ofExcept _).bind fun _ => .pure _

theorem quiet_requireAll_of_nodes (h : ∀ n ∈ ns, ∀ r, (n.require r).Quiet) (r : Requirements) :
    (requireAll r ns).Quiet := by
  induction ns generalizing r with
  | nil => exact .pure r
  | cons n ns ih =>
    obtain ⟨hn, hns⟩ := List.forall_mem_cons.mp h
    exact (hn r).bind fun r' => ih hns r'

theorem quiet_require (n : Node) (r : Requirements) : (n.require r).Quiet := by
  induction n using Node.contentInduction generalizing r with
  | text | comment | reference | dot => exact .pure _
  | var name raw type scope =>
    refine (Quiet.ofExcept _).bind fun fs => (Quiet.write rfl).bind fun _ => ?_
    cases scope with
    | context => exact quiet_addHere r fs
    | root => exact quiet_addRoot r fs
  | block name content optional ih =>
    refine (quiet_requireAll_of_nodes ih {}).bind fun inner => ?_
    refine (quiet_addRoot r inner.root).bind fun r' => (Quiet.ofExcept _).bind fun fs => ?_
    exact (Quiet.write rfl).bind fun _ => quiet_addHere r' fs
  | inverted name content => exact (Quiet.ofExcept _).bind fun fs => quiet_addHere r fs

theorem quiet_requireAll (r : Requirements) (ns : List Node) : (requireAll r ns).Quiet :=
  quiet_requireAll_of_nodes (fun n _ => quiet_require n) r

/-! ### What an inference notes -/

/-- A conflict is noted if there were fields to be settled. -/
theorem debugRecords_infer (ns : List Node) : (infer ns).debugRecords =
    match collect ns, (infer ns).result with
    | .ok _, .error c => [.unsettled c]
    | _, _ => [] := by
  have hquiet : (requireAll {} ns).debugRecords = [] := quiet_requireAll {} ns
  rw [infer_eq, infer]
  cases hr : (requireAll {} ns).result with
  | error c =>
    have hcollect : collect ns = .error c := by rw [collect, hr]; rfl
    rw [debugRecords_bind_of_error hr, hquiet, hcollect]
  | ok r =>
    have hcollect : collect ns = r.here.merge r.root := by rw [collect, hr]; rfl
    rw [debugRecords_bind_of_ok hr, hquiet, List.nil_append, hcollect]
    cases r.here.merge r.root with
    | error c => rfl
    | ok asked =>
      rw [debugRecords_bind_of_ok (result_ofExcept _)]
      show _ = match (Except.ok asked : Except Conflict Fields), asked.settle with
        | .ok _, .error c => [Record.unsettled c]
        | _, _ => []
      cases asked.settle <;> rfl

theorem result_inferDeclaration (h : Template.parse source = .ok t) :
    (inferDeclaration source).result = match (infer t.nodes).result with
      | .ok fs => .ok (fs.declaration {})
      | .error c => .error (.conflict c) := by
  rw [inferDeclaration, Template.load_of_parse h, result_bind]
  show ((t.declare {}).result).mapError Failure.conflict = _
  rw [Template.declare, result_bind]
  cases (infer t.nodes).result <;> rfl

theorem debugRecords_inferDeclaration (h : Template.parse source = .ok t) :
    (inferDeclaration source).debugRecords = (infer t.nodes).debugRecords := by
  have hdeclare : (t.declare {}).debugRecords = (infer t.nodes).debugRecords := by
    rw [Template.declare]
    cases hi : (infer t.nodes).result with
    | error c => exact debugRecords_bind_of_error hi
    | ok fs => rw [debugRecords_bind_of_ok hi]; exact List.append_nil _
  rw [inferDeclaration, Template.load_of_parse h, debugRecords_bind_of_ok rfl]
  exact hdeclare

/-- A template that is declared leaves nothing noted for debugging. A conflict is noted once, in its
own words, if the tags of the template agree mark by mark. If they do not there is always a conflict,
and it is never noted. -/
theorem inferDeclaration_debugRecords (h : Template.parse source = .ok t) :
    let run := inferDeclaration source
    (∀ text, run.result = .ok text → run.debugRecords = []) ∧
      (∀ c, run.result = .error (.conflict c) → MarksAgree t.nodes →
        run.debugRecords.map Record.message = [c.message]) ∧
      (¬ MarksAgree t.nodes →
        ∃ c, run.result = .error (.conflict c) ∧ run.debugRecords = []) := by
  intro run
  have hresult : run.result = _ := result_inferDeclaration h
  have hrecords : run.debugRecords = _ := debugRecords_inferDeclaration h
  rw [debugRecords_infer] at hrecords
  rw [hresult, hrecords, ← exists_collect_iff]
  cases hc : collect t.nodes with
  | error c =>
    have hi : (infer t.nodes).result = .error c := by rw [infer_eq, hc]; rfl
    rw [hi]
    refine ⟨nofun, ?_, fun _ => ⟨c, rfl, rfl⟩⟩
    rintro c' - ⟨_, ⟨⟩⟩
  | ok asked =>
    have hagree : ∃ fs, (Except.ok asked : Except Conflict Fields) = .ok fs := ⟨asked, rfl⟩
    cases (infer t.nodes).result with
    | ok fs => exact ⟨fun _ _ => rfl, nofun, fun hn => absurd hagree hn⟩
    | error c =>
      refine ⟨nofun, ?_, fun hn => absurd hagree hn⟩
      rintro _ ⟨⟩ -
      rfl

/-- The marks of a block and of a dotted path keep two uses of one place apart until they are
settled: the conflict is noted. -/
theorem inferDeclaration_debugRecords_user :
    let user : Path := ⟨["user"], by simp⟩
    let age : Path := ⟨["age"], by simp⟩
    let typed : Path → String → Node := fun name type =>
      .var name false (some ⟨[type], false⟩) .context
    let t : Template :=
      ⟨"\x7b\x7b#user?\x7d\x7d\x7b\x7bage: number\x7d\x7d\x7b\x7b/user\x7d\x7d" ++
          "\x7b\x7buser.age: string\x7d\x7d",
        [.block user [typed age "number"] true, typed (user ++ age) "string"]⟩
    let c : Conflict := .scalar ["user", "age"] "number" "string"
    Template.parse t.source = .ok t ∧ MarksAgree t.nodes ∧
      (inferDeclaration t.source).result = .error (.conflict c) ∧
      (inferDeclaration t.source).debugRecords.map Record.message = [c.message] := by
  intro user age typed t c
  have ht : Template.parse t.source = .ok t := by decide +kernel
  have hagree : MarksAgree t.nodes := exists_collect_iff.mp ⟨_, rfl⟩
  have hc : (inferDeclaration t.source).result = .error (.conflict c) := by decide +kernel
  exact ⟨ht, hagree, hc, (inferDeclaration_debugRecords ht).2.1 c hc hagree⟩

/-- Two types for one variable: what both tags ask for is noted, but not the conflict. -/
theorem inferDeclaration_not_noted :
    let source := "\x7b\x7ba: string\x7d\x7d\x7b\x7ba: number\x7d\x7d"
    let a : Path := ⟨["a"], by simp⟩
    let asked (type : String) : Fields := [({ name := "a" }, .leaf (.of [type]))]
    (inferDeclaration source).result = .error (.conflict (.scalar ["a"] "string" "number")) ∧
      (inferDeclaration source).trail =
        [.parsed 2, .variableTag a .context (asked "string"),
          .variableTag a .context (asked "number")] ∧
      (inferDeclaration source).debugRecords = [] := by
  decide +kernel

end

end Stencil
