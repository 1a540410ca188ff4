import Rdbparser.Proc.Closed

/-! Computations that do not look at a part of the state. -/

namespace Proc

variable {σ ω ε α β : Type} {φ : σ → σ} {ψ : ω → ω}

/-- Overwriting a part of the state before a computation is overwriting it after, and in what is put out. -/
def Commutes (φ : σ → σ) (ψ : ω → ω) (x : Proc σ ω ε α) : Prop :=
  ∀ s, x (φ s) = ⟨(x s).res, φ (x s).st, (x s).out.map ψ⟩

namespace Commutes

theorem run {x : Proc σ ω ε α} (hx : x.Commutes φ ψ) {s t : σ} {r : Except ε α} {o : List ω}
    (h : x s = ⟨r, t, o⟩) : x (φ s) = ⟨r, φ t, o.map ψ⟩ := by
  rw [hx s, h]

theorem bind {x : Proc σ ω ε α} {f : α → Proc σ ω ε β} (hx : x.Commutes φ ψ) (hf : ∀ a, (f a).Commutes φ ψ) :
    (x >>= f).Commutes φ ψ := by
  intro s
  rcases bind_run x f s with ⟨e, t, o, hrun, hbind⟩ | ⟨a, t, o, hrun, hbind⟩
  · rw [hbind, bind_error (hx.run hrun)]
  · rw [hbind, bind_ok (hx.run hrun) (hf a t), List.map_append]

/-- What depends on the state only through what is not overwritten. -/
theorem read_bind {f : σ → Proc σ ω ε β} (hread : ∀ s, f (φ s) = f s) (hf : ∀ s, (f s).Commutes φ ψ) :
    (read >>= f).Commutes φ ψ := by
  intro s
  rw [read_bind_run, read_bind_run, hread]
  exact hf s s

/-- All ways of composing computations commute with the two maps. -/
theorem closed (φ : σ → σ) (ψ : ω → ω) :
    Closed φ (fun _ => True) fun {α} (x : Proc σ ω ε α) => x.Commutes φ ψ where
  pure _ _ := rfl
  ret _ _ := rfl
  bind := bind
  read_bind := read_bind
  update h s := by rw [update_run, update_run, h, List.map_nil]
  recode _ hx s := by rw [recode_run, recode_run, hx s]

theorem emit {f : σ → List ω} (h : ∀ s, f (φ s) = (f s).map ψ) :
    (emit f : Proc σ ω ε Unit).Commutes φ ψ := by
  intro s
  rw [emit_run, emit_run, h]

/-- Taking a code for a success commutes with them. -/
theorem accept [DecidableEq ε] (e : ε) {x : Proc σ ω ε Unit} (hx : x.Commutes φ ψ) :
    (accept e x).Commutes φ ψ := by
  intro s
  obtain ⟨res, t, o, hrun⟩ : ∃ res t o, x s = ⟨res, t, o⟩ := ⟨_, _, _, rfl⟩
  simp only [Proc.accept, hx.run hrun, hrun]
  cases res with
  | ok a => rfl
  | error e' =>
    dsimp only
    split <;> rfl

end Commutes

end Proc
