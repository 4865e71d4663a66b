/-!
# Computations with a trail

`Traced τ ε α` ends with an answer or a failure and keeps the entries written on the way. What was
written before a failure stays on the trail.
-/

namespace Stencil

/-- The outcome of a computation, and what it wrote in order. -/
structure Traced (τ ε α : Type) where
  trail : List τ
  result : Except ε α

namespace Traced

variable {τ ε ε' α β : Type}

/-- Writes `entries` before what `y` wrote. Nothing is copied if `y` wrote nothing. -/
def after (entries : List τ) (y : Traced τ ε α) : Traced τ ε α :=
  match y.trail with
  | [] => ⟨entries, y.result⟩
  | t :: ts => ⟨entries ++ t :: ts, y.result⟩

protected def pure (a : α) : Traced τ ε α := ⟨[], .ok a⟩

protected def bind (x : Traced τ ε α) (f : α → Traced τ ε β) : Traced τ ε β :=
  match x.result with
  | .error e => ⟨x.trail, .error e⟩
  | .ok a => (f a).after x.trail

instance : Monad (Traced τ ε) where
  pure := Traced.pure
  bind := Traced.bind

def write (entry : τ) : Traced τ ε Unit := ⟨[entry], .ok ()⟩

def fail (e : ε) : Traced τ ε α := ⟨[], .error e⟩

def ofExcept (r : Except ε α) : Traced τ ε α := ⟨[], r⟩

/-- Goes on with `h` after a failure. -/
def handle (x : Traced τ ε α) (h : ε → Traced τ ε' α) : Traced τ ε' α :=
  match x.result with
  | .ok a => ⟨x.trail, .ok a⟩
  | .error e => (h e).after x.trail

def mapError (f : ε → ε') (x : Traced τ ε α) : Traced τ ε' α := ⟨x.trail, x.result.mapError f⟩

/-- The answer of a computation that cannot fail. -/
def answer (x : Traced τ Empty α) : α :=
  match x.result with
  | .ok a => a
  | .error e => nomatch e

/-! ### Results and trails of the combinators -/

@[ext] theorem ext {x y : Traced τ ε α} (ht : x.trail = y.trail) (hr : x.result = y.result) :
    x = y := by
  cases x; cases y; simp_all

@[simp] theorem trail_pure (a : α) : (pure a : Traced τ ε α).trail = [] := rfl

@[simp] theorem result_pure (a : α) : (pure a : Traced τ ε α).result = .ok a := rfl

@[simp] theorem trail_write (t : τ) : (write t : Traced τ ε Unit).trail = [t] := rfl

@[simp] theorem result_write (t : τ) : (write t : Traced τ ε Unit).result = .ok () := rfl

@[simp] theorem trail_fail (e : ε) : (fail e : Traced τ ε α).trail = [] := rfl

@[simp] theorem result_fail (e : ε) : (fail e : Traced τ ε α).result = .error e := rfl

@[simp] theorem trail_ofExcept (r : Except ε α) : (ofExcept r : Traced τ ε α).trail = [] := rfl

@[simp] theorem result_ofExcept (r : Except ε α) : (ofExcept r : Traced τ ε α).result = r := rfl

theorem after_eq (entries : List τ) (y : Traced τ ε α) :
    y.after entries = ⟨entries ++ y.trail, y.result⟩ := by
  unfold after
  split <;> simp_all

theorem bind_of_ok {x : Traced τ ε α} {a : α} (h : x.result = .ok a) (f : α → Traced τ ε β) :
    x >>= f = ⟨x.trail ++ (f a).trail, (f a).result⟩ := by
  show Traced.bind x f = _
  simp [Traced.bind, after_eq, h]

theorem bind_of_error {x : Traced τ ε α} {e : ε} (h : x.result = .error e)
    (f : α → Traced τ ε β) : x >>= f = ⟨x.trail, .error e⟩ := by
  show Traced.bind x f = _
  simp [Traced.bind, h]

theorem handle_of_ok {x : Traced τ ε α} {a : α} (h : x.result = .ok a)
    (f : ε → Traced τ ε' α) : x.handle f = ⟨x.trail, .ok a⟩ := by
  simp [handle, h]

theorem handle_of_error {x : Traced τ ε α} {e : ε} (h : x.result = .error e)
    (f : ε → Traced τ ε' α) : x.handle f = ⟨x.trail ++ (f e).trail, (f e).result⟩ := by
  simp [handle, after_eq, h]

@[simp] theorem result_bind (x : Traced τ ε α) (f : α → Traced τ ε β) :
    (x >>= f).result = x.result >>= fun a => (f a).result := by
  cases h : x.result with
  | error e => rw [bind_of_error h]; rfl
  | ok a => rw [bind_of_ok h]; rfl

instance : LawfulMonad (Traced τ ε) := LawfulMonad.mk' _
  (fun x => by
    show Traced.bind x (fun a => Traced.pure a) = x
    cases h : x.result <;> ext1 <;> simp [Traced.bind, Traced.pure, after_eq, h])
  (fun a f => by
    show Traced.bind (Traced.pure a) f = f a
    ext1 <;> simp [Traced.bind, Traced.pure, after_eq])
  (fun x f g => by
    show Traced.bind (Traced.bind x f) g = Traced.bind x fun a => Traced.bind (f a) g
    cases h : x.result with
    | error e => simp [Traced.bind, h]
    | ok a => cases h' : (f a).result <;> simp [Traced.bind, after_eq, h, h'])

end Traced

end Stencil
