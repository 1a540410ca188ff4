import Rdbparser.Proc.Closed

/-! The codes a computation can return early with. -/

namespace Proc

variable {σ ω ε α β : Type} {B : ε → Prop}

/-- A computation that returns early does so with a code of the kind `B`. -/
def Codes (B : ε → Prop) (x : Proc σ ω ε α) : Prop := ∀ s e, (x s).res = .error e → B e

namespace Codes

theorem of_ok {x : Proc σ ω ε α} (h : ∀ s, ∃ a, (x s).res = .ok a) : x.Codes B := by
  intro s e herr
  obtain ⟨a, hok⟩ := h s
  rw [hok] at herr
  cases herr

/-- A sequence returns a code of its first part or of its second. -/
theorem bind {x : Proc σ ω ε α} {f : α → Proc σ ω ε β} (hx : x.Codes B) (hf : ∀ a, (f a).Codes B) :
    (x >>= f).Codes B := by
  intro s e h
  rcases bind_run x f s with ⟨e', t, o, hrun, hbind⟩ | ⟨a, t, o, hrun, hbind⟩
  · rw [hbind] at h
    obtain rfl := Except.error.inj h
    exact hx s e' (by rw [hrun])
  · rw [hbind] at h
    exact hf a t e h

/-- Codes that are changed are codes still, if the change keeps them. -/
theorem recode {f : ε → ε} {x : Proc σ ω ε α} (hf : ∀ e, B e → B (f e)) (hx : x.Codes B) : (recode f x).Codes B := by
  intro s e h
  rcases hrun : x s with ⟨e' | a, t, o⟩
  · rw [recode_error hrun] at h
    obtain rfl := Except.error.inj h
    exact hf e' (hx s e' (by rw [hrun]))
  · rw [recode_ok hrun] at h
    cases h

theorem closed (φ : σ → σ) : Closed φ B fun {α} (x : Proc σ ω ε α) => x.Codes B where
  pure a := of_ok fun _ => ⟨a, rfl⟩
  ret h _ _ heq := Except.error.inj heq ▸ h
  bind := bind
  read_bind _ hf := bind (of_ok fun s => ⟨s, rfl⟩) hf
  update _ := of_ok fun _ => ⟨(), rfl⟩
  recode hf hx := recode hf hx

theorem mono {B' : ε → Prop} {x : Proc σ ω ε α} (h : x.Codes B) (hB : ∀ e, B e → B' e) : x.Codes B' :=
  fun s e he => hB e (h s e he)

/-- What is accepted is not returned. -/
theorem accept [DecidableEq ε] {e : ε} {x : Proc σ ω ε Unit} (hx : x.Codes fun e' => e' ≠ e → B e') :
    (accept e x).Codes B := by
  intro s e' h
  obtain ⟨res, t, o, hrun⟩ : ∃ res t o, x s = ⟨res, t, o⟩ := ⟨_, _, _, rfl⟩
  simp only [Proc.accept, hrun] at h
  cases res with
  | ok a => cases h
  | error e'' =>
    dsimp only at h
    split at h
    · cases h
    · next hne =>
      obtain rfl := Except.error.inj h
      exact hx s e'' (by rw [hrun]) hne

end Codes

end Proc
