import Mathlib.Data.List.Basic

/-- The outcome of a computation: its value, or the code it returned early with, the state it left
and what it put out on the way. An early return undoes neither of the last two. -/
structure Run (σ ω ε α : Type) where
  res : Except ε α
  st : σ
  out : List ω

/-- A computation over a state `σ` that puts out values of `ω` and may return early with an `ε`. -/
def Proc (σ ω ε α : Type) := σ → Run σ ω ε α

namespace Proc

variable {σ τ ω ω' ε α β γ : Type}

protected def bind (x : Proc σ ω ε α) (f : α → Proc σ ω ε β) : Proc σ ω ε β := fun s =>
  match x s with
  | ⟨.ok a, t, o⟩ =>
    match f a t with
    | ⟨r, u, o'⟩ => ⟨r, u, o ++ o'⟩
  | ⟨.error e, t, o⟩ => ⟨.error e, t, o⟩

instance : Monad (Proc σ ω ε) where
  pure a := fun s => ⟨.ok a, s, []⟩
  bind := Proc.bind

/-- Leave the computation with a code. -/
def ret (e : ε) : Proc σ ω ε α := fun s => ⟨.error e, s, []⟩

def read : Proc σ ω ε σ := fun s => ⟨.ok s, s, []⟩

def update (f : σ → σ) : Proc σ ω ε Unit := fun s => ⟨.ok (), f s, []⟩

/-- Put out what the current state calls for. -/
def emit (f : σ → List ω) : Proc σ ω ε Unit := fun s => ⟨.ok (), s, f s⟩

/-- A computation for which leaving early with `e` is a success. -/
def accept [DecidableEq ε] (e : ε) (x : Proc σ ω ε Unit) : Proc σ ω ε Unit := fun s =>
  match x s with
  | ⟨.ok a, t, o⟩ => ⟨.ok a, t, o⟩
  | ⟨.error e', t, o⟩ => if e' = e then ⟨.ok (), t, o⟩ else ⟨.error e', t, o⟩

/-- A computation that returns early with another code. -/
def recode (f : ε → ε) (x : Proc σ ω ε α) : Proc σ ω ε α := fun s =>
  match x s with
  | ⟨.error e, t, o⟩ => ⟨.error (f e), t, o⟩
  | r => r

/-- Run `f` on a value `n` times over, feeding each result to the next run. -/
def times : Nat → (β → Proc σ ω ε β) → β → Proc σ ω ε β
  | 0, _, b => pure b
  | n + 1, f, b => f b >>= times n f

/-- The counted loop `for (i = first; n more times; i++) body(i)`. -/
def count (body : Nat → Proc σ ω ε Unit) : Nat → Nat → Proc σ ω ε Unit
  | _, 0 => pure ()
  | i, n + 1 => body i >>= fun _ => count body (i + 1) n

@[simp] theorem pure_run (a : α) (s : σ) : (pure a : Proc σ ω ε α) s = ⟨.ok a, s, []⟩ := rfl
@[simp] theorem ret_run (e : ε) (s : σ) : (ret e : Proc σ ω ε α) s = ⟨.error e, s, []⟩ := rfl
@[simp] theorem read_run (s : σ) : (read : Proc σ ω ε σ) s = ⟨.ok s, s, []⟩ := rfl
@[simp] theorem update_run (f : σ → σ) (s : σ) :
    (update f : Proc σ ω ε Unit) s = ⟨.ok (), f s, []⟩ := rfl
@[simp] theorem emit_run (f : σ → List ω) (s : σ) :
    (emit f : Proc σ ω ε Unit) s = ⟨.ok (), s, f s⟩ := rfl

theorem bind_ok {x : Proc σ ω ε α} {f : α → Proc σ ω ε β} {s t u : σ} {a : α} {r : Except ε β}
    {o o' : List ω} (hx : x s = ⟨.ok a, t, o⟩) (hf : f a t = ⟨r, u, o'⟩) :
    (x >>= f) s = ⟨r, u, o ++ o'⟩ := by
  change Proc.bind x f s = _
  simp only [Proc.bind, hx, hf]

theorem bind_error {x : Proc σ ω ε α} {f : α → Proc σ ω ε β} {s t : σ} {e : ε} {o : List ω}
    (hx : x s = ⟨.error e, t, o⟩) : (x >>= f) s = ⟨.error e, t, o⟩ := by
  change Proc.bind x f s = _
  simp only [Proc.bind, hx]

theorem bind_res {x : Proc σ ω ε α} {f : α → Proc σ ω ε β} {s t : σ} {a : α} {o : List ω}
    (hx : x s = ⟨.ok a, t, o⟩) : ((x >>= f) s).res = (f a t).res := by
  rw [bind_ok hx rfl]

theorem bind_res_error {x : Proc σ ω ε α} {f : α → Proc σ ω ε β} {s : σ} {e : ε} (h : (x s).res = .error e) :
    ((x >>= f) s).res = .error e := by
  obtain ⟨res, t, o, hx⟩ : ∃ res t o, x s = ⟨res, t, o⟩ := ⟨_, _, _, rfl⟩
  rw [hx] at h
  obtain rfl : res = .error e := h
  rw [bind_error hx]

theorem bind_out {x : Proc σ ω ε α} {f : α → Proc σ ω ε β} {s t : σ} {a : α} {o : List ω}
    (hx : x s = ⟨.ok a, t, o⟩) : ((x >>= f) s).out = o ++ (f a t).out := by
  rw [bind_ok hx rfl]

/-- A step that puts nothing out hands its value and state straight on. -/
theorem bind_quiet {x : Proc σ ω ε α} {f : α → Proc σ ω ε β} {s t : σ} {a : α}
    (hx : x s = ⟨.ok a, t, []⟩) : (x >>= f) s = f a t := by
  rw [bind_ok hx rfl]
  rfl

/-- What follows a step depends on it only through its outcome. -/
theorem bind_congr_run {x y : Proc σ ω ε α} {s t : σ} (h : x s = y t) (f : α → Proc σ ω ε β) :
    (x >>= f) s = (y >>= f) t := by
  change Proc.bind x f s = Proc.bind y f t
  simp only [Proc.bind, h]

theorem recode_ok {f : ε → ε} {x : Proc σ ω ε α} {s t : σ} {a : α} {o : List ω} (hx : x s = ⟨.ok a, t, o⟩) :
    recode f x s = ⟨.ok a, t, o⟩ := by
  simp only [recode, hx]

theorem recode_error {f : ε → ε} {x : Proc σ ω ε α} {s t : σ} {e : ε} {o : List ω} (hx : x s = ⟨.error e, t, o⟩) :
    recode f x s = ⟨.error (f e), t, o⟩ := by
  simp only [recode, hx]

theorem recode_ok_iff {f : ε → ε} {x : Proc σ ω ε α} {s t : σ} {a : α} {o : List ω} :
    recode f x s = ⟨.ok a, t, o⟩ ↔ x s = ⟨.ok a, t, o⟩ := by
  refine ⟨fun h => ?_, recode_ok⟩
  rcases hx : x s with ⟨e | b, u, o'⟩
  · rw [recode_error hx] at h
    cases h
  · rw [← h, recode_ok hx]

/-- Another code is all that is changed. -/
theorem recode_run (f : ε → ε) (x : Proc σ ω ε α) (s : σ) :
    recode f x s = ⟨(x s).res.mapError f, (x s).st, (x s).out⟩ := by
  rcases hx : x s with ⟨_ | a, t, o⟩
  · rw [recode_error hx]
    rfl
  · rw [recode_ok hx]
    rfl

/-- Taking a code for a success puts out nothing. -/
theorem accept_out [DecidableEq ε] (e : ε) (x : Proc σ ω ε Unit) (s : σ) : (accept e x s).out = (x s).out := by
  obtain ⟨res, t, o, hrun⟩ : ∃ res t o, x s = ⟨res, t, o⟩ := ⟨_, _, _, rfl⟩
  simp only [accept, hrun]
  cases res with
  | ok a => rfl
  | error e' =>
    dsimp only
    split <;> rfl

/-- How it ends depends on how the computation does, and not on its state. -/
theorem accept_res_congr [DecidableEq ε] (e : ε) {x : Proc σ ω ε Unit} {s t : σ} (h : (x s).res = (x t).res) :
    (accept e x s).res = (accept e x t).res := by
  obtain ⟨res, s', o, hs⟩ : ∃ res s' o, x s = ⟨res, s', o⟩ := ⟨_, _, _, rfl⟩
  obtain ⟨res', t', o', ht⟩ : ∃ res' t' o', x t = ⟨res', t', o'⟩ := ⟨_, _, _, rfl⟩
  obtain rfl : res = res' := by rwa [hs, ht] at h
  simp only [accept, hs, ht]
  cases res with
  | ok a => rfl
  | error e' =>
    dsimp only
    split <;> rfl

@[simp] theorem pure_bind_run (a : α) (f : α → Proc σ ω ε β) (s : σ) :
    (pure a >>= f) s = f a s := bind_quiet rfl

@[simp] theorem read_bind_run (f : σ → Proc σ ω ε β) (s : σ) : (read >>= f) s = f s s :=
  bind_quiet rfl

@[simp] theorem update_bind_run (g : σ → σ) (f : Unit → Proc σ ω ε β) (s : σ) :
    (update g >>= f) s = f () (g s) := bind_quiet rfl

theorem pure_bind (a : α) (f : α → Proc σ ω ε β) : (pure a >>= f) = f a :=
  funext fun s => pure_bind_run a f s

/-- Sequences of three, from either end. -/
theorem bind_assoc (x : Proc σ ω ε α) (f : α → Proc σ ω ε β) (g : β → Proc σ ω ε γ) :
    ((x >>= f) >>= g) = x >>= fun a => f a >>= g := by
  funext s
  obtain ⟨res, t, o, hx⟩ : ∃ res t o, x s = ⟨res, t, o⟩ := ⟨_, _, _, rfl⟩
  cases res with
  | error e => rw [bind_error (bind_error hx), bind_error hx]
  | ok a =>
    obtain ⟨res', u, o', hf⟩ : ∃ res' u o', f a t = ⟨res', u, o'⟩ := ⟨_, _, _, rfl⟩
    cases res' with
    | error e => rw [bind_error (bind_ok hx hf), bind_ok hx (bind_error hf)]
    | ok b => rw [bind_ok (bind_ok hx hf) rfl, bind_ok hx (bind_ok hf rfl), List.append_assoc]

/-- A step that is made only if `c` holds, before `f` in either case. -/
theorem ite_bind (c : Prop) [Decidable c] (x : Proc σ ω ε Unit) (f : Unit → Proc σ ω ε β) :
    ((if c then x else pure ()) >>= f) = if c then x >>= f else f () := by
  split
  · rfl
  · exact pure_bind () f

/-- What follows a choice follows both of its sides. -/
theorem bind_ite (c : Prop) [Decidable c] (x y : Proc σ ω ε α) (f : α → Proc σ ω ε β) :
    ((if c then x else y) >>= f) = if c then x >>= f else y >>= f := by
  split <;> rfl

/-- A sequence has returned early in its first part, or has gone through it. -/
theorem bind_run (x : Proc σ ω ε α) (f : α → Proc σ ω ε β) (s : σ) :
    (∃ e t o, x s = ⟨.error e, t, o⟩ ∧ (x >>= f) s = ⟨.error e, t, o⟩) ∨
      ∃ a t o, x s = ⟨.ok a, t, o⟩ ∧
        (x >>= f) s = ⟨(f a t).res, (f a t).st, o ++ (f a t).out⟩ := by
  obtain ⟨res, t, o, hx⟩ : ∃ res t o, x s = ⟨res, t, o⟩ := ⟨_, _, _, rfl⟩
  cases res with
  | error e => exact .inl ⟨e, t, o, hx, bind_error hx⟩
  | ok a => exact .inr ⟨a, t, o, hx, bind_ok hx rfl⟩

/-- A sequence that goes through has gone through both of its parts. -/
theorem bind_ok_run {x : Proc σ ω ε α} {f : α → Proc σ ω ε β} {s u : σ} {b : β} {o : List ω}
    (h : (x >>= f) s = ⟨.ok b, u, o⟩) :
    ∃ a t o₁ o₂, x s = ⟨.ok a, t, o₁⟩ ∧ f a t = ⟨.ok b, u, o₂⟩ ∧ o = o₁ ++ o₂ := by
  rcases bind_run x f s with ⟨e, t, o₁, -, herr⟩ | ⟨a, t, o₁, hx, hbind⟩
  · rw [herr] at h
    cases h
  · rw [hbind] at h
    obtain ⟨hres, hst, hout⟩ := Run.mk.inj h
    refine ⟨a, t, o₁, _, hx, ?_, hout.symm⟩
    rw [← hres, ← hst]

end Proc
