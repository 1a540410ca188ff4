import Rdbparser.Proc

/-! A computation, and another one that goes through the same states without saying what it does. -/

namespace Proc

variable {σ ω ε α β γ δ : Type}

/-- A run that goes through, with a value and a state, whatever it puts out. -/
def Leads (x : Proc σ ω ε α) (s : σ) (a : α) (t : σ) : Prop := ∃ o, x s = ⟨.ok a, t, o⟩

theorem Leads.unique {x : Proc σ ω ε α} {s t t' : σ} {a a' : α} (h : x.Leads s a t) (h' : x.Leads s a' t') :
    a = a' ∧ t = t' := by
  obtain ⟨o, hx⟩ := h
  obtain ⟨o', hx'⟩ := h'
  obtain ⟨hres, hst, -⟩ := Run.mk.inj (hx.symm.trans hx')
  exact ⟨Except.ok.inj hres, hst⟩

/-- A sequence goes through if and only if both of its parts do. -/
theorem leads_bind_iff {x : Proc σ ω ε α} {f : α → Proc σ ω ε β} {s u : σ} {b : β} :
    (x >>= f).Leads s b u ↔ ∃ a t, x.Leads s a t ∧ (f a).Leads t b u := by
  constructor
  · rintro ⟨o, hrun⟩
    obtain ⟨a, t, o₁, o₂, hx, hf, -⟩ := bind_ok_run hrun
    exact ⟨a, t, ⟨o₁, hx⟩, o₂, hf⟩
  · rintro ⟨a, t, ⟨o₁, hx⟩, o₂, hf⟩
    exact ⟨o₁ ++ o₂, bind_ok hx hf⟩

theorem leads_pure_iff {s t : σ} {a b : α} : (pure a : Proc σ ω ε α).Leads s b t ↔ a = b ∧ s = t := by
  constructor
  · rintro ⟨o, hrun⟩
    obtain ⟨hres, hst, -⟩ := Run.mk.inj hrun
    exact ⟨Except.ok.inj hres, hst⟩
  · rintro ⟨rfl, rfl⟩
    exact ⟨[], rfl⟩

/-- Other codes do not change which runs go through. -/
theorem leads_recode_iff {f : ε → ε} {x : Proc σ ω ε α} {s t : σ} {a : α} :
    (recode f x).Leads s a t ↔ x.Leads s a t := by
  simp only [Leads, recode_ok_iff]

/-- A sequence returns early with a code if and only if one of its parts does. -/
theorem bind_error_iff {x : Proc σ ω ε α} {f : α → Proc σ ω ε β} {s : σ} {e : ε} :
    ((x >>= f) s).res = .error e ↔
      (x s).res = .error e ∨ ∃ a t, x.Leads s a t ∧ (f a t).res = .error e := by
  rcases bind_run x f s with ⟨e', t, o, hx, hbind⟩ | ⟨a, t, o, hx, hbind⟩
  · rw [hbind, hx]
    refine ⟨fun h => .inl (congrArg Except.error (Except.error.inj h)), ?_⟩
    rintro (h | ⟨a, t', ⟨o', hx'⟩, -⟩)
    · exact congrArg Except.error (Except.error.inj h)
    · rw [hx] at hx'
      cases hx'
  · rw [hbind, hx]
    constructor
    · exact fun h => .inr ⟨a, t, ⟨o, hx⟩, h⟩
    · rintro (h | ⟨a', t', h, hf⟩)
      · cases h
      · obtain ⟨rfl, rfl⟩ := Leads.unique ⟨o, hx⟩ h
        exact hf

/-- A counted loop returns early with a code if and only if one of its turns does, the ones before it having
gone through. -/
theorem count_error_iff {body : Nat → Proc σ ω ε Unit} {i n : Nat} {s : σ} {e : ε} :
    (count body i n s).res = .error e ↔
      ∃ k < n, ∃ t, (count body i k).Leads s () t ∧ (body (i + k) t).res = .error e := by
  induction n generalizing i s with
  | zero =>
    refine iff_of_false (fun h => by cases h) ?_
    rintro ⟨k, hk, -⟩
    exact Nat.not_lt_zero k hk
  | succ n ih =>
    rw [count, bind_error_iff]
    constructor
    · rintro (h | ⟨⟨⟩, t, hfirst, hrest⟩)
      · exact ⟨0, Nat.succ_pos n, s, ⟨[], rfl⟩, h⟩
      · obtain ⟨k, hk, u, hlead, hbody⟩ := ih.mp hrest
        refine ⟨k + 1, Nat.succ_lt_succ hk, u, leads_bind_iff.mpr ⟨(), t, hfirst, hlead⟩, ?_⟩
        have hturn : i + 1 + k = i + (k + 1) := by omega
        rwa [hturn] at hbody
    · rintro ⟨_ | k, hk, u, hlead, hbody⟩
      · obtain ⟨-, rfl⟩ := leads_pure_iff.mp hlead
        exact .inl hbody
      · obtain ⟨⟨⟩, t, hfirst, hrest⟩ := leads_bind_iff.mp hlead
        have hturn : i + (k + 1) = i + 1 + k := by omega
        rw [hturn] at hbody
        exact .inr ⟨(), t, hfirst, ih.mpr ⟨k, Nat.lt_of_succ_lt_succ hk, u, hrest, hbody⟩⟩

/-- A loop returns early with a code if and only if one of its turns does, behind others that go through. -/
theorem times_error_iff {f : β → Proc σ ω ε β} {n : Nat} {b : β} {s : σ} {e : ε} :
    (times n f b s).res = .error e ↔
      ∃ k < n, ∃ c t, (times k f b).Leads s c t ∧ (f c t).res = .error e := by
  induction n generalizing b s with
  | zero =>
    refine iff_of_false (fun h => by cases h) ?_
    rintro ⟨k, hk, -⟩
    exact Nat.not_lt_zero k hk
  | succ n ih =>
    rw [times, bind_error_iff]
    constructor
    · rintro (h | ⟨b', t, hfirst, hrest⟩)
      · exact ⟨0, Nat.succ_pos n, b, s, ⟨[], rfl⟩, h⟩
      · obtain ⟨k, hk, c, u, hlead, hf⟩ := ih.mp hrest
        exact ⟨k + 1, Nat.succ_lt_succ hk, c, u, leads_bind_iff.mpr ⟨b', t, hfirst, hlead⟩, hf⟩
    · rintro ⟨_ | k, hk, c, u, hlead, hf⟩
      · obtain ⟨rfl, rfl⟩ := leads_pure_iff.mp hlead
        exact .inl hf
      · obtain ⟨b', t, hfirst, hrest⟩ := leads_bind_iff.mp hlead
        exact .inr ⟨b', t, hfirst, ih.mpr ⟨k, Nat.lt_of_succ_lt_succ hk, c, u, hrest, hf⟩⟩

/-- `y` goes through where `x` does, to the same states; its values are those of `x` under `f`. Nothing is said of
what either puts out, nor of the codes they return early with. -/
def Echoes (x : Proc σ ω ε α) (f : α → β) (y : Proc σ ω ε β) : Prop :=
  ∀ s b t, y.Leads s b t ↔ ∃ a, x.Leads s a t ∧ f a = b

namespace Echoes

theorem refl (x : Proc σ ω ε α) : x.Echoes id x := by
  intro s b t
  constructor
  · exact fun h => ⟨b, h, rfl⟩
  · rintro ⟨a, h, rfl⟩
    exact h

/-- A value is echoed by the value that is said of it. -/
theorem pure {f : α → β} {a : α} {b : β} (h : f a = b) : Echoes (ω := ω) (ε := ε) (σ := σ) (pure a) f (pure b) := by
  intro s c t
  rw [leads_pure_iff]
  constructor
  · rintro ⟨rfl, rfl⟩
    exact ⟨a, leads_pure_iff.mpr ⟨rfl, rfl⟩, h⟩
  · rintro ⟨a', hlead, rfl⟩
    obtain ⟨rfl, rfl⟩ := leads_pure_iff.mp hlead
    exact ⟨h.symm, rfl⟩

/-- Sequences echo if their parts do. -/
theorem bind {x : Proc σ ω ε α} {f : α → β} {y : Proc σ ω ε β} {g : α → Proc σ ω ε γ} {f' : γ → δ}
    {h : β → Proc σ ω ε δ} (hx : x.Echoes f y) (hg : ∀ a, (g a).Echoes f' (h (f a))) :
    (x >>= g).Echoes f' (y >>= h) := by
  intro s d u
  rw [leads_bind_iff]
  constructor
  · rintro ⟨b, t, hy, hh⟩
    obtain ⟨a, hlead, rfl⟩ := (hx s b t).mp hy
    obtain ⟨c, hrest, rfl⟩ := (hg a t d u).mp hh
    exact ⟨c, leads_bind_iff.mpr ⟨a, t, hlead, hrest⟩, rfl⟩
  · rintro ⟨c, hlead, rfl⟩
    obtain ⟨a, t, hfirst, hrest⟩ := leads_bind_iff.mp hlead
    exact ⟨f a, t, (hx s (f a) t).mpr ⟨a, hfirst, rfl⟩, (hg a t (f' c) u).mpr ⟨c, hrest, rfl⟩⟩

theorem recode {x : Proc σ ω ε α} {f : α → β} {y : Proc σ ω ε β} (code : ε → ε) (hx : x.Echoes f y) :
    (Proc.recode code x).Echoes f y := by
  intro s b t
  simp only [leads_recode_iff]
  exact hx s b t

/-- What only puts something out has no echo. -/
theorem emit {put : σ → List ω} : Echoes (ε := ε) (Proc.emit put) id (Pure.pure ()) := by
  intro s b t
  rw [leads_pure_iff]
  constructor
  · rintro ⟨-, rfl⟩
    exact ⟨(), ⟨put s, rfl⟩, rfl⟩
  · rintro ⟨a, ⟨o, hemit⟩, -⟩
    exact ⟨rfl, (Run.mk.inj hemit).2.1⟩

/-- What has no echo, and what follows it. -/
theorem before {z : Proc σ ω ε Unit} {x : Proc σ ω ε α} {f : α → β} {y : Proc σ ω ε β}
    (hz : z.Echoes id (Pure.pure ())) (hx : x.Echoes f y) : (z >>= fun _ => x).Echoes f y := by
  have h := hz.bind (h := fun _ => y) fun _ => hx
  rwa [pure_bind] at h

/-- What has no echo, behind something else. -/
theorem after {z x y : Proc σ ω ε Unit} (hz : z.Echoes id (Pure.pure ())) (hx : x.Echoes id y) :
    (x >>= fun _ => z).Echoes id y := by
  intro s b t
  rw [← (hx.bind fun _ => hz) s b t, leads_bind_iff]
  constructor
  · exact fun h => ⟨(), t, h, leads_pure_iff.mpr ⟨rfl, rfl⟩⟩
  · rintro ⟨⟨⟩, u, h, hpure⟩
    obtain ⟨-, rfl⟩ := leads_pure_iff.mp hpure
    exact h

theorem ite_before {c : Prop} [Decidable c] {z : Proc σ ω ε Unit} {x : Proc σ ω ε α} {f : α → β} {y : Proc σ ω ε β}
    (hz : z.Echoes id (Pure.pure ())) (hx : x.Echoes f y) : (if c then z >>= fun _ => x else x).Echoes f y := by
  split
  · exact hz.before hx
  · exact hx

theorem ite {c : Prop} [Decidable c] {x x' : Proc σ ω ε α} {f : α → β} {y y' : Proc σ ω ε β}
    (hx : c → x.Echoes f y) (hx' : ¬ c → x'.Echoes f y') : (if c then x else x').Echoes f (if c then y else y') := by
  split
  · next h => exact hx h
  · next h => exact hx' h

theorem count {body body' : Nat → Proc σ ω ε Unit} (hbody : ∀ i, (body i).Echoes id (body' i)) (i n : Nat) :
    (Proc.count body i n).Echoes id (Proc.count body' i n) := by
  induction n generalizing i with
  | zero => exact pure rfl
  | succ n ih => exact (hbody i).bind fun _ => ih (i + 1)

theorem times {f : α → Proc σ ω ε α} {g : β → Proc σ ω ε β} {r : α → β} (hf : ∀ a, (f a).Echoes r (g (r a)))
    (n : Nat) (a : α) : (Proc.times n f a).Echoes r (Proc.times n g (r a)) := by
  induction n generalizing a with
  | zero => exact pure rfl
  | succ n ih => exact (hf a).bind fun a' => ih a'

end Echoes

end Proc
