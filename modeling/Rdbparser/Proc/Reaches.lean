import Rdbparser.Proc

/-! Pre- and postconditions for an automaton that reads what computations put out. -/

namespace Proc

variable {σ ω ε α β γ : Type} {I : σ → Prop} {δ : γ → ω → Option γ} {G : γ → Prop} {Q : α → γ → Prop}

/-- From a state that meets `I` and with the automaton in a state that meets `G`, a computation that goes through
with `a` leaves a state that meets `I` and takes the automaton to a state that meets `Q a`. -/
def Reaches (I : σ → Prop) (δ : γ → ω → Option γ) (x : Proc σ ω ε α) (G : γ → Prop) (Q : α → γ → Prop) : Prop :=
  ∀ s a t o g, I s → G g → x s = ⟨.ok a, t, o⟩ → I t ∧ ∃ g', o.foldlM δ g = some g' ∧ Q a g'

namespace Reaches

theorem mono {x : Proc σ ω ε α} {G' : γ → Prop} {Q' : α → γ → Prop} (hx : Reaches I δ x G Q)
    (hG : ∀ g, G' g → G g) (hQ : ∀ a g, Q a g → Q' a g) : Reaches I δ x G' Q' := by
  intro s a t o g hs hg hrun
  obtain ⟨ht, g', hfold, hq⟩ := hx s a t o g hs (hG g hg) hrun
  exact ⟨ht, g', hfold, hQ a g' hq⟩

/-- A part of a precondition that does not depend on the automaton. -/
theorem of_fact {x : Proc σ ω ε α} {p : Prop} (hx : p → Reaches I δ x G Q) :
    Reaches I δ x (fun g => p ∧ G g) Q := by
  rintro s a t o g hs ⟨hp, hg⟩ hrun
  exact hx hp s a t o g hs hg hrun

theorem pure {a : α} (h : ∀ g, G g → Q a g) : Reaches (ε := ε) I δ (pure a) G Q := by
  rintro s b t o g hs hg ⟨⟩
  exact ⟨hs, g, rfl, h g hg⟩

theorem ret (e : ε) : Reaches I δ (ret e) G Q := by
  rintro s b t o g hs hg ⟨⟩

/-- A step that puts nothing out. -/
theorem quiet {x : Proc σ ω ε α}
    (hx : ∀ s a t o, I s → x s = ⟨.ok a, t, o⟩ → I t ∧ o = []) : Reaches I δ x G fun _ => G := by
  intro s a t o g hs hg hrun
  obtain ⟨ht, rfl⟩ := hx s a t o hs hrun
  exact ⟨ht, g, rfl, hg⟩

/-- What a sequence reaches is what its second part does from wherever the first has got to. -/
theorem bind {x : Proc σ ω ε α} {f : α → Proc σ ω ε β} {R : β → γ → Prop} (hx : Reaches I δ x G Q)
    (hf : ∀ a, Reaches I δ (f a) (Q a) R) : Reaches I δ (x >>= f) G R := by
  intro s b u o g hs hg hrun
  rcases bind_run x f s with ⟨e, t, o', -, hbind⟩ | ⟨a, t, o', hfirst, hbind⟩
  · rw [hbind] at hrun
    cases hrun
  · obtain ⟨ht, g', hfold, hq⟩ := hx s a t o' g hs hg hfirst
    rw [hbind] at hrun
    obtain ⟨hres, hst, hout⟩ := Run.mk.inj hrun
    obtain ⟨hu, g'', hfold', hr⟩ := hf a t b u (f a t).out g' ht hq (by rw [← hres, ← hst])
    refine ⟨hu, g'', ?_, hr⟩
    rw [← hout, List.foldlM_append, hfold]
    exact hfold'

/-- What follows may use that the state meets `I`. -/
theorem read_bind {f : σ → Proc σ ω ε β} {R : β → γ → Prop} (hf : ∀ s, I s → Reaches I δ (f s) G R) :
    Reaches I δ (Proc.read >>= f) G R := by
  intro s b t o g hs hg hrun
  rw [read_bind_run] at hrun
  exact hf s hs s b t o g hs hg hrun

theorem ite {c : Prop} [Decidable c] {x y : Proc σ ω ε α} (hx : c → Reaches I δ x G Q)
    (hy : ¬ c → Reaches I δ y G Q) : Reaches I δ (if c then x else y) G Q := by
  split
  · next h => exact hx h
  · next h => exact hy h

theorem recode (f : ε → ε) {x : Proc σ ω ε α} (hx : Reaches I δ x G Q) : Reaches I δ (recode f x) G Q := by
  intro s a t o g hs hg hrun
  rcases hfirst : x s with ⟨e | b, u, o'⟩
  · rw [recode_error hfirst] at hrun
    cases hrun
  · rw [recode_ok hfirst] at hrun
    exact hx s a t o g hs hg (hfirst.trans hrun)

/-- A loop with a value reaches what its turns do, by induction on them. -/
theorem times {f : β → Proc σ ω ε β} {Q : Nat → β → γ → Prop} (hf : ∀ i b, Reaches I δ (f b) (Q i b) (Q (i + 1)))
    (i n : Nat) (b : β) : Reaches I δ (times n f b) (Q i b) (Q (i + n)) := by
  induction n generalizing i b with
  | zero => exact pure fun _ h => h
  | succ n ih =>
    refine bind (hf i b) fun b' => ?_
    have h := ih (i + 1) b'
    rwa [Nat.add_right_comm, Nat.add_assoc] at h

/-- So does a counted loop. -/
theorem count {body : Nat → Proc σ ω ε Unit} {G : Nat → γ → Prop}
    (hbody : ∀ i, Reaches I δ (body i) (G i) fun _ => G (i + 1)) (i n : Nat) :
    Reaches I δ (count body i n) (G i) fun _ => G (i + n) := by
  induction n generalizing i with
  | zero => exact pure fun _ h => h
  | succ n ih =>
    refine bind (hbody i) fun _ => ?_
    have h := ih (i + 1)
    rwa [Nat.add_right_comm, Nat.add_assoc] at h

end Reaches

end Proc
