import Rdbparser.Proc

/-! Relations between the state a computation starts in, what it puts out and the state it leaves, that
hold of a computation as soon as they hold of its steps. -/

namespace Proc

variable {σ ω ε α β : Type} {T : σ → List ω → σ → Prop}

/-- A relation that holds of doing nothing, and of one thing after another if it holds of both. -/
structure Chains (T : σ → List ω → σ → Prop) : Prop where
  refl : ∀ s, T s [] s
  trans : ∀ {s o t o' u}, T s o t → T t o' u → T s (o ++ o') u

/-- Wherever a computation starts and however it ends, it has gone by `T`. -/
def Follows (T : σ → List ω → σ → Prop) (x : Proc σ ω ε α) : Prop := ∀ s, T s (x s).out (x s).st

namespace Follows

theorem pure (hT : Chains T) (a : α) : (pure a : Proc σ ω ε α).Follows T := hT.refl

theorem ret (hT : Chains T) (e : ε) : (ret e : Proc σ ω ε α).Follows T := hT.refl

theorem read (hT : Chains T) : (read : Proc σ ω ε σ).Follows T := hT.refl

/-- A relation that chains is followed by a sequence if both parts follow it. -/
theorem bind (hT : Chains T) {x : Proc σ ω ε α} {f : α → Proc σ ω ε β} (hx : x.Follows T)
    (hf : ∀ a, (f a).Follows T) : (x >>= f).Follows T := by
  intro s
  have hfirst := hx s
  rcases bind_run x f s with ⟨e, t, o, hrun, hbind⟩ | ⟨a, t, o, hrun, hbind⟩
  · rw [hbind]
    rwa [hrun] at hfirst
  · rw [hbind]
    rw [hrun] at hfirst
    exact hT.trans hfirst (hf a t)

theorem read_bind (hT : Chains T) {f : σ → Proc σ ω ε β} (hf : ∀ s, (f s).Follows T) :
    (Proc.read >>= f).Follows T :=
  bind hT (read hT) hf

theorem ite {c : Prop} [Decidable c] {x y : Proc σ ω ε α} (hx : x.Follows T) (hy : y.Follows T) :
    (if c then x else y).Follows T := by
  split
  · exact hx
  · exact hy

/-- Taking a code for a success changes neither the state nor what is put out. -/
theorem accept [DecidableEq ε] (e : ε) {x : Proc σ ω ε Unit} (hx : x.Follows T) :
    (accept e x).Follows T := by
  intro s
  have h := hx s
  obtain ⟨res, t, o, hrun⟩ : ∃ res t o, x s = ⟨res, t, o⟩ := ⟨_, _, _, rfl⟩
  rw [hrun] at h
  simp only [Proc.accept, hrun]
  cases res with
  | ok a => exact h
  | error e' =>
    dsimp only
    split <;> exact h

theorem recode (f : ε → ε) {x : Proc σ ω ε α} (hx : x.Follows T) : (recode f x).Follows T := by
  intro s
  rw [recode_run]
  exact hx s

theorem times (hT : Chains T) {f : β → Proc σ ω ε β} (hf : ∀ b, (f b).Follows T) (n : Nat) (b : β) :
    (times n f b).Follows T := by
  induction n generalizing b with
  | zero => exact pure hT b
  | succ n ih => exact bind hT (hf b) ih

theorem count (hT : Chains T) {body : Nat → Proc σ ω ε Unit} (hbody : ∀ i, (body i).Follows T)
    (i n : Nat) : (count body i n).Follows T := by
  induction n generalizing i with
  | zero => exact pure hT ()
  | succ n ih => exact bind hT (hbody i) fun _ => ih (i + 1)

end Follows

end Proc
