import Rdbparser.Proc

/-! Loops whose turns read a value and go on with it. -/

namespace Proc

variable {σ ω ε α β : Type}

/-- A sequence goes through with a value if and only if its first part goes through, and the second with that value
from there. -/
theorem bind_ok_iff {x : Proc σ ω ε α} {f : α → Proc σ ω ε β} {s : σ} {b : β} :
    ((x >>= f) s).res = .ok b ↔ ∃ a t o, x s = ⟨.ok a, t, o⟩ ∧ (f a t).res = .ok b := by
  rcases bind_run x f s with ⟨e, t, o, hx, hrun⟩ | ⟨a, t, o, hx, hrun⟩
  · rw [hrun]
    refine iff_of_false (fun h => nomatch h) ?_
    rintro ⟨a, t', o', hx', -⟩
    exact nomatch (congrArg Run.res (hx.symm.trans hx') : Except.error e = Except.ok a)
  · rw [hrun]
    constructor
    · intro h
      exact ⟨a, t, o, hx, h⟩
    · rintro ⟨a', t', o', hx', h⟩
      obtain ⟨ha, ht, -⟩ := Run.mk.inj (hx.symm.trans hx')
      obtain rfl := Except.ok.inj ha
      rwa [ht]

/-- One run of `x` behind the other returns these values. -/
def Returns (x : Proc σ ω ε α) : σ → List α → Prop
  | _, [] => True
  | s, a :: as => ∃ t o, x s = ⟨.ok a, t, o⟩ ∧ x.Returns t as

/-- The values that a loop returns are told by the state it starts from and by how many there are. -/
theorem Returns.unique {x : Proc σ ω ε α} {s : σ} {as as' : List α} (h : x.Returns s as) (h' : x.Returns s as')
    (hlen : as.length = as'.length) : as = as' := by
  induction as generalizing s as' with
  | nil => exact (List.eq_nil_of_length_eq_zero hlen.symm).symm
  | cons a as ih =>
    cases as' with
    | nil => exact nomatch hlen
    | cons a' as' =>
      obtain ⟨t, o, hx, hrest⟩ := h
      obtain ⟨t', o', hx', hrest'⟩ := h'
      obtain ⟨ha, ht, -⟩ := Run.mk.inj (hx.symm.trans hx')
      obtain rfl := Except.ok.inj ha
      subst ht
      rw [ih hrest hrest' (Nat.succ.inj hlen)]

/-- A loop whose turns do not touch the state once a value is read comes to its end if and only if there are
values for all turns and each can be gone on with. Where none is read each turn may have a code of its own. -/
theorem times_ok_iff {P : σ → Prop} {x : Proc σ ω ε α} {y : β → Proc σ ω ε α} {f : β → Proc σ ω ε β}
    {g : β → α → Proc σ ω ε β} {r : β → α → Option β} (hf : ∀ b, f b = y b >>= g b)
    (hy : ∀ b s a t o, y b s = ⟨.ok a, t, o⟩ ↔ x s = ⟨.ok a, t, o⟩) (hx : ∀ s a t o, P s → x s = ⟨.ok a, t, o⟩ → P t)
    (hg : ∀ b a s, P s → ∃ res o, g b a s = ⟨res, s, o⟩ ∧ res.toOption = r b a) (n : Nat) (b : β) {s : σ} (hs : P s) :
    (∃ c, (times n f b s).res = .ok c) ↔ ∃ as, as.length = n ∧ x.Returns s as ∧ (as.foldlM r b).isSome := by
  induction n generalizing b s with
  | zero =>
    refine iff_of_true ⟨b, rfl⟩ ⟨[], rfl, trivial, rfl⟩
  | succ n ih =>
    have hstep : ∀ c, (times (n + 1) f b s).res = .ok c ↔
        ∃ a t o b', x s = ⟨.ok a, t, o⟩ ∧ r b a = some b' ∧ (times n f b' t).res = .ok c := by
      intro c
      rw [times, hf b, bind_assoc, bind_ok_iff]
      simp only [hy b]
      refine exists_congr fun a => exists_congr fun t => exists_congr fun o => ?_
      constructor
      · rintro ⟨hrun, hc⟩
        obtain ⟨res, o', hg', hr⟩ := hg b a t (hx s a t o hs hrun)
        obtain ⟨b', t', o'', hb', hc⟩ := bind_ok_iff.mp hc
        obtain ⟨hres, ht, -⟩ := Run.mk.inj (hg'.symm.trans hb')
        subst hres ht
        exact ⟨b', hrun, hr.symm, hc⟩
      · rintro ⟨b', hrun, hb', hc⟩
        obtain ⟨res, o', hg', hr⟩ := hg b a t (hx s a t o hs hrun)
        refine ⟨hrun, bind_ok_iff.mpr ⟨b', t, o', ?_, hc⟩⟩
        rw [hb'] at hr
        cases res with
        | error e => exact nomatch hr
        | ok b'' =>
          obtain rfl := Option.some.inj hr
          exact hg'
    constructor
    · rintro ⟨c, hc⟩
      obtain ⟨a, t, o, b', hrun, hb', hc⟩ := (hstep c).mp hc
      obtain ⟨as, hlen, has, hfold⟩ := (ih b' (hx s a t o hs hrun)).mp ⟨c, hc⟩
      refine ⟨a :: as, congrArg (· + 1) hlen, ⟨t, o, hrun, has⟩, ?_⟩
      rw [List.foldlM_cons, hb']
      exact hfold
    · rintro ⟨_ | ⟨a, as⟩, hlen, hreturns, hfold⟩
      · exact nomatch hlen
      · obtain ⟨t, o, hrun, has⟩ := hreturns
        rw [List.foldlM_cons] at hfold
        cases hb' : r b a with
        | none =>
          rw [hb'] at hfold
          exact nomatch hfold
        | some b' =>
          rw [hb'] at hfold
          obtain ⟨c, hc⟩ := (ih b' (hx s a t o hs hrun)).mpr ⟨as, Nat.succ.inj hlen, has, hfold⟩
          exact ⟨c, (hstep c).mpr ⟨a, t, o, b', hrun, hb', hc⟩⟩

/-- Where no value is gone on with differently, all of them can be gone on with. -/
theorem foldlM_isSome_iff {r : β → α → Option β} {good : α → Prop} (hr : ∀ b a, (r b a).isSome ↔ good a)
    (as : List α) (b : β) :
    (as.foldlM r b).isSome ↔ ∀ a ∈ as, good a := by
  induction as generalizing b with
  | nil => exact iff_of_true rfl fun a ha => absurd ha List.not_mem_nil
  | cons a as ih =>
    rw [List.foldlM_cons, List.forall_mem_cons, ← hr b]
    cases r b a with
    | none => exact iff_of_false Bool.false_ne_true fun h => Bool.false_ne_true h.1
    | some b' => exact (ih b').trans (and_iff_right rfl).symm

/-- Where a computation succeeds on what can be read and is fine, and what is sound is fine, it succeeds on
nothing but what is sound if and only if all that can be read and is fine is sound. -/
theorem sound_iff {ok : Prop} {R A W : α → Prop} (hunique : ∀ a a', R a → R a' → a = a') (hok : ok ↔ ∃ a, R a ∧ A a) :
    (ok → ∃ a, R a ∧ W a) ↔ ∀ a, R a → A a → W a := by
  constructor
  · intro h a hr ha
    obtain ⟨a', hr', hw⟩ := h (hok.mpr ⟨a, hr, ha⟩)
    rwa [hunique a a' hr hr']
  · intro h hall
    obtain ⟨a, hr, ha⟩ := hok.mp hall
    exact ⟨a, hr, h a hr ha⟩

end Proc
