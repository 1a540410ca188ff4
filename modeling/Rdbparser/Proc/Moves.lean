import Rdbparser.Proc

/-! An automaton that reads what computations put out. -/

namespace Proc

variable {σ ω ε α β γ : Type} {I : σ → Prop} {δ : γ → ω → Option γ} {g : γ}

/-- From a state that meets `I`, a computation that goes through with `a` takes the automaton from `g` to
`Q a`, and leaves a state that meets `I`. -/
def Moves (I : σ → Prop) (δ : γ → ω → Option γ) (x : Proc σ ω ε α) (g : γ) (Q : α → γ) : Prop :=
  ∀ s a t o, I s → x s = ⟨.ok a, t, o⟩ → I t ∧ o.foldlM δ g = some (Q a)

namespace Moves

theorem pure {Q : α → γ} {a : α} (h : g = Q a) : Moves (ε := ε) I δ (pure a) g Q := by
  rintro s b t o hs ⟨⟩
  exact ⟨hs, h ▸ rfl⟩

theorem ret {Q : α → γ} (e : ε) : Moves I δ (ret e) g Q := by
  rintro s b t o hs ⟨⟩

theorem read : Moves (ε := ε) I δ read g fun _ => g := by
  rintro s a t o hs ⟨⟩
  exact ⟨hs, rfl⟩

/-- A sequence moves by what its first part does and then, from there, by what the second does. -/
theorem bind {x : Proc σ ω ε α} {f : α → Proc σ ω ε β} {Q : α → γ} {R : β → γ} (hx : Moves I δ x g Q)
    (hf : ∀ a, Moves I δ (f a) (Q a) R) : Moves I δ (x >>= f) g R := by
  intro s b u o hs hrun
  rcases bind_run x f s with ⟨e, t, o', -, hbind⟩ | ⟨a, t, o', hfirst, hbind⟩
  · rw [hbind] at hrun
    cases hrun
  · obtain ⟨ht, hq⟩ := hx s a t o' hs hfirst
    rw [hbind] at hrun
    obtain ⟨hres, hst, hout⟩ := Run.mk.inj hrun
    obtain ⟨hu, hr⟩ := hf a t b u (f a t).out ht (by rw [← hres, ← hst])
    refine ⟨hu, ?_⟩
    rw [← hout, List.foldlM_append, hq]
    exact hr

theorem ite {c : Prop} [Decidable c] {x y : Proc σ ω ε α} {Q : α → γ} (hx : c → Moves I δ x g Q)
    (hy : ¬ c → Moves I δ y g Q) : Moves I δ (if c then x else y) g Q := by
  split
  · next h => exact hx h
  · next h => exact hy h

theorem recode (f : ε → ε) {x : Proc σ ω ε α} {Q : α → γ} (hx : Moves I δ x g Q) : Moves I δ (recode f x) g Q := by
  intro s a t o hs hrun
  rcases hfirst : x s with ⟨e | b, u, o'⟩
  · rw [recode_error hfirst] at hrun
    cases hrun
  · rw [recode_ok hfirst] at hrun
    exact hx s a t o hs (hfirst.trans hrun)

theorem times {f : β → Proc σ ω ε β} {Q : β → γ} (hf : ∀ b, Moves I δ (f b) (Q b) Q) (n : Nat) (b : β) :
    Moves I δ (times n f b) (Q b) Q := by
  induction n generalizing b with
  | zero => exact pure rfl
  | succ n ih => exact bind (hf b) ih

theorem count {body : Nat → Proc σ ω ε Unit} (hbody : ∀ i, Moves I δ (body i) g fun _ => g) (i n : Nat) :
    Moves I δ (count body i n) g fun _ => g := by
  induction n generalizing i with
  | zero => exact pure rfl
  | succ n ih => exact bind (hbody i) fun _ => ih (i + 1)

end Moves

end Proc
