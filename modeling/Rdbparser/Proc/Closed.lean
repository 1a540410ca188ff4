import Rdbparser.Proc

/-! Properties that hold of a computation as soon as they hold of its steps. -/

namespace Proc

variable {σ ω ε α β : Type} {φ : σ → σ} {B : ε → Prop} {P : ∀ {α : Type}, Proc σ ω ε α → Prop}

/-- `P` holds of leaving early with the codes `B`, and of what reads and changes the state without
looking at the part of it that `φ` overwrites. -/
structure Closed (φ : σ → σ) (B : ε → Prop) (P : ∀ {α : Type}, Proc σ ω ε α → Prop) : Prop where
  pure : ∀ {α : Type} (a : α), P (pure a)
  ret : ∀ {α : Type} {e : ε}, B e → P (ret e : Proc σ ω ε α)
  bind : ∀ {α β : Type} {x : Proc σ ω ε α} {f : α → Proc σ ω ε β}, P x → (∀ a, P (f a)) → P (x >>= f)
  read_bind : ∀ {α : Type} {f : σ → Proc σ ω ε α}, (∀ s, f (φ s) = f s) → (∀ s, P (f s)) → P (read >>= f)
  update : ∀ {g : σ → σ}, (∀ s, g (φ s) = φ (g s)) → P (update g)
  recode : ∀ {α : Type} {f : ε → ε} {x : Proc σ ω ε α}, (∀ e, B e → B (f e)) → P x → P (recode f x)

namespace Closed

theorem ite (_h : Closed φ B P) {c : Prop} [Decidable c] {x y : Proc σ ω ε α} (hx : P x) (hy : P y) :
    P (if c then x else y) := by
  split
  · exact hx
  · exact hy

variable (h : Closed φ B P)

include h

theorem times {f : β → Proc σ ω ε β} (hf : ∀ b, P (f b)) (n : Nat) (b : β) : P (times n f b) := by
  induction n generalizing b with
  | zero => exact h.pure b
  | succ n ih => exact h.bind (hf b) ih

theorem count {body : Nat → Proc σ ω ε Unit} (hbody : ∀ i, P (body i)) (i n : Nat) : P (count body i n) := by
  induction n generalizing i with
  | zero => exact h.pure ()
  | succ n ih => exact h.bind (hbody i) fun _ => ih (i + 1)

end Closed

end Proc
