import Rdbparser.Walk

/-! Walks that are gone on with whatever the calls return. -/

namespace Walk

variable {σ ε : Type} {w : Walk σ ε} {ok : σ → Prop}

/-- The state after `k` calls of `next`. -/
def calls (w : Walk σ ε) (s : σ) : Nat → σ
  | 0 => s
  | k + 1 => (w.next (w.calls s k)).2

/-- Each of the calls is made in a state where `ok` holds. -/
def Throughout (w : Walk σ ε) (ok : σ → Prop) (s : σ) : Prop := ∀ k, ok (w.calls s k)

theorem calls_next (w : Walk σ ε) (s : σ) (k : Nat) : w.calls (w.next s).2 k = w.calls s (k + 1) := by
  induction k with
  | zero => rfl
  | succ k ih =>
    rw [calls, ih]
    rfl

/-- What is so in all calls is so in this one and in all from the next on. -/
theorem throughout_next {s t : σ} {b : Bool} (h : w.next s = (b, t)) : w.Throughout ok s ↔
    ok s ∧ w.Throughout ok t := by
  have ht : ∀ k, w.calls t k = w.calls s (k + 1) := fun k => by rw [← calls_next, h]
  constructor
  · intro hs
    refine ⟨hs 0, fun k => ?_⟩
    rw [ht]
    exact hs (k + 1)
  · rintro ⟨hs, hrest⟩ k
    cases k with
    | zero => exact hs
    | succ k =>
      rw [← ht]
      exact hrest k

theorem throughout_of_forall (h : ∀ s, ok s) (s : σ) : w.Throughout ok s := fun k => h (w.calls s k)

/-- What every call preserves holds throughout. -/
theorem throughout_of_inv {P : σ → Prop} (hstep : ∀ s, P s → P (w.next s).2) (hok : ∀ s, P s → ok s)
    {s : σ} (hs : P s) : w.Throughout ok s := by
  have hall : ∀ k, P (w.calls s k) := by
    intro k
    induction k with
    | zero => exact hs
    | succ k ih => exact hstep _ ih
  exact fun k => hok _ (hall k)

/-- A walk that only goes forward comes to a call that finds nothing. -/
theorem exists_last {limit : Nat}
    (hstep : ∀ s t, 0 < w.pos s → w.next s = (true, t) → w.pos s < w.pos t ∧ w.pos t ≤ limit)
    {s : σ} (hs : 0 < w.pos s) : ∃ k ≤ limit - w.pos s, (w.next (w.calls s k)).1 = false := by
  induction hn : limit - w.pos s using Nat.strong_induction_on generalizing s with | _ n ih
  subst hn
  rcases hnext : w.next s with ⟨_ | _, t⟩
  · refine ⟨0, Nat.zero_le _, ?_⟩
    rw [calls, hnext]
  · obtain ⟨hlt, hle⟩ := hstep s t hs hnext
    obtain ⟨k, hk, hlast⟩ := ih (limit - w.pos t) (by omega) (Nat.lt_trans hs hlt) rfl
    refine ⟨k + 1, by omega, ?_⟩
    rw [← calls_next, hnext]
    exact hlast

end Walk
