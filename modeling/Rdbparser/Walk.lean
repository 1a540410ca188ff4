import Rdbparser.Bytes

/-! Walks over values that lie one behind the other in memory, with a byte behind the last that ends them. -/

/-- How a walk goes on, what it has found and where that ends. -/
structure Walk (σ ε : Type) where
  next : σ → Bool × σ
  found : σ → ε
  pos : σ → Nat

namespace Walk

variable {σ ε α : Type} (w : Walk σ ε) (stop : Nat → Prop)

/-- The values that successive calls of `next` find, each with the number of bytes it goes on by, up to
the first call that finds none, which is made where `stop` holds. -/
inductive Yields : σ → List (Nat × ε) → Prop
  | nil {s : σ} (hnext : (w.next s).1 = false) (hstop : stop (w.pos s)) : Yields s []
  | cons {s t : σ} {size : Nat} {x : ε} {xs : List (Nat × ε)} (hnext : w.next s = (true, t)) (hfound : w.found t = x)
      (hpos : w.pos t = w.pos s + size) (htail : Yields t xs) : Yields s ((size, x) :: xs)

/-- The walk ends behind the values it has found. -/
theorem Yields.stops {w : Walk σ ε} {stop stop' : Nat → Prop} {s : σ} {xs : List (Nat × ε)} (h : w.Yields stop s xs)
    (hstop : stop (w.pos s + (xs.map Prod.fst).sum) →
      stop' (w.pos s + (xs.map Prod.fst).sum)) : w.Yields stop' s xs := by
  induction h with
  | nil hnext hend => exact .nil hnext (hstop hend)
  | cons hnext hfound hpos _ ih =>
    refine .cons hnext hfound hpos (ih ?_)
    rw [hpos, Nat.add_assoc, ← List.sum_cons]
    exact hstop

/-- The values that successive calls of `next` find. -/
def Finds (s : σ) (vs : List ε) : Prop := ∃ xs, xs.map Prod.snd = vs ∧ w.Yields stop s xs

/-- A walk that finds values finds the first of them, and the others from there. -/
theorem Finds.cons {w : Walk σ ε} {stop : Nat → Prop} {s : σ} {v : ε} {vs : List ε} (h : w.Finds stop s (v :: vs)) :
    ∃ t, w.next s = (true, t) ∧ w.found t = v ∧ w.Finds stop t vs := by
  obtain ⟨xs, hxs, hyields⟩ := h
  cases hyields with
  | nil => exact nomatch hxs
  | cons hnext hfound _ htail =>
    rw [List.map_cons, List.cons.injEq] at hxs
    exact ⟨_, hnext, hfound.trans hxs.1, _, hxs.2, htail⟩

theorem Finds.nil {w : Walk σ ε} {stop : Nat → Prop} {s : σ} (h : w.Finds stop s []) : (w.next s).1 = false := by
  obtain ⟨xs, hxs, hyields⟩ := h
  cases hyields with
  | nil hnext => exact hnext
  | cons => exact nomatch hxs

/-- The walk finds these values and is at `u` then. -/
def Path : σ → List ε → σ → Prop
  | s, [], u => s = u
  | s, v :: vs, u => ∃ t, w.next s = (true, t) ∧ w.found t = v ∧ Path t vs u

/-- A path in two parts goes through a state between them. -/
theorem path_append {w : Walk σ ε} {s u : σ} (vs vs' : List ε) :
    w.Path s (vs ++ vs') u ↔ ∃ t, w.Path s vs t ∧ w.Path t vs' u := by
  induction vs generalizing s with
  | nil => exact ⟨fun h => ⟨s, rfl, h⟩, fun ⟨_, hs, h⟩ => hs ▸ h⟩
  | cons v vs ih =>
    constructor
    · rintro ⟨t, hnext, hfound, h⟩
      obtain ⟨t', h, h'⟩ := ih.mp h
      exact ⟨t', ⟨t, hnext, hfound, h⟩, h'⟩
    · rintro ⟨t', ⟨t, hnext, hfound, h⟩, h'⟩
      exact ⟨t, hnext, hfound, ih.mpr ⟨t', h, h'⟩⟩

/-- A walk that finds values gets to a state where it stops. -/
theorem Finds.path {w : Walk σ ε} {stop : Nat → Prop} {s : σ} {vs : List ε} (h : w.Finds stop s vs) :
    ∃ u, w.Path s vs u ∧ stop (w.pos u) := by
  induction vs generalizing s with
  | nil =>
    obtain ⟨xs, hxs, hyields⟩ := h
    cases hyields with
    | nil _ hstop => exact ⟨s, rfl, hstop⟩
    | cons => exact nomatch hxs
  | cons v vs ih =>
    obtain ⟨t, hnext, hfound, hrest⟩ := h.cons
    obtain ⟨u, hpath, hstop⟩ := ih hrest
    exact ⟨u, ⟨t, hnext, hfound, hpath⟩, hstop⟩

/-- A walk that only goes forward does not go back to the start of the memory. -/
theorem Path.pos_pos {w : Walk σ ε} (hstep : ∀ s t, 0 < w.pos s → w.next s = (true, t) → w.pos s < w.pos t)
    {s u : σ} {vs : List ε}
    (hs : 0 < w.pos s) (h : w.Path s vs u) : 0 < w.pos u := by
  induction vs generalizing s with
  | nil =>
    obtain rfl : s = u := h
    exact hs
  | cons v vs ih =>
    obtain ⟨t, hnext, -, hrest⟩ := h
    exact ih (Nat.lt_trans hs (hstep s t hs hnext)) hrest

/-- There are no more values than bytes, if each one takes a byte. -/
theorem Finds.length_le {w : Walk σ ε} {stop : Nat → Prop} {limit : Nat}
    (hstep : ∀ s t, 0 < w.pos s → w.next s = (true, t) → w.pos s < w.pos t ∧ w.pos t ≤ limit) {s : σ} {vs : List ε}
    (hs : 0 < w.pos s) (h : w.Finds stop s vs) : vs = [] ∨ w.pos s + vs.length ≤ limit := by
  induction vs generalizing s with
  | nil => exact .inl rfl
  | cons v vs ih =>
    obtain ⟨t, hnext, -, hrest⟩ := h.cons
    obtain ⟨hlt, hle⟩ := hstep s t hs hnext
    right
    rw [List.length_cons]
    rcases ih (Nat.lt_trans hs hlt) hrest with rfl | hall
    · rw [List.length_nil]
      omega
    · omega

section layout

variable {w} {p : Mem} {last : UInt8} {bytes : α → List UInt8} {value : α → ε} (Good : α → Prop) (limit : Nat)

/-- A list is read back if each of its elements is, wherever it lies before the end. -/
theorem yields_of_layout
    (hgood : ∀ a s, Good a → (p.add (w.pos s)).Starts (bytes a) → w.pos s + (bytes a).length < limit →
      ∃ t, w.next s = (true, t) ∧ w.found t = value a ∧ w.pos t = w.pos s + (bytes a).length)
    (hlast : ∀ s, p (w.pos s) = last → w.pos s < limit → (w.next s).1 = false)
    {as : List α} {s : σ} (hp : (p.add (w.pos s)).Starts (as.flatMap bytes ++ [last]))
    (hlimit : w.pos s + (as.flatMap bytes).length < limit) (has : ∀ a ∈ as, Good a) :
    w.Yields (fun i => p i = last) s (as.map fun a => ((bytes a).length, value a)) := by
  induction as generalizing s with
  | nil =>
    have hbyte : p (w.pos s) = last := (Mem.starts_cons.mp hp).1
    exact .nil (hlast s hbyte hlimit) hbyte
  | cons a as ih =>
    rw [List.flatMap_cons, List.append_assoc, Mem.starts_append, Mem.add_add] at hp
    rw [List.flatMap_cons, List.length_append] at hlimit
    obtain ⟨t, hnext, hfound, hpos⟩ := hgood a s (has a List.mem_cons_self) hp.1 (by omega)
    refine .cons hnext hfound hpos (ih ?_ ?_ fun b hb => has b (List.mem_cons_of_mem a hb))
    · rw [hpos]
      exact hp.2
    · omega

/-- If the other elements are not, only a list without them is read back. -/
theorem finds_iff_of_layout
    (hgood : ∀ a s, Good a → (p.add (w.pos s)).Starts (bytes a) → w.pos s + (bytes a).length < limit →
      ∃ t, w.next s = (true, t) ∧ w.found t = value a ∧ w.pos t = w.pos s + (bytes a).length)
    (hbad : ∀ a s, ¬ Good a → (p.add (w.pos s)).Starts (bytes a) → w.pos s + (bytes a).length < limit →
      ∀ t, w.next s = (true, t) → w.found t ≠ value a)
    (hlast : ∀ s, p (w.pos s) = last → w.pos s < limit → (w.next s).1 = false)
    {as : List α} {s : σ} (hp : (p.add (w.pos s)).Starts (as.flatMap bytes ++ [last]))
    (hlimit : w.pos s + (as.flatMap bytes).length < limit) :
    w.Finds (fun i => p i = last) s (as.map value) ↔ ∀ a ∈ as, Good a := by
  constructor
  · rintro ⟨xs, hxs, hyields⟩
    induction as generalizing s xs with
    | nil => exact fun a ha => absurd ha List.not_mem_nil
    | cons a as ih =>
      rw [List.flatMap_cons, List.append_assoc, Mem.starts_append, Mem.add_add] at hp
      rw [List.flatMap_cons, List.length_append] at hlimit
      cases hyields with
      | nil => exact nomatch hxs
      | cons hnext hfound _ htail =>
        rw [List.map_cons, List.map_cons, List.cons.injEq] at hxs
        have ha : Good a := by
          by_contra hno
          exact hbad a s hno hp.1 (by omega) _ hnext (hfound.trans hxs.1)
        obtain ⟨t, hnext', -, hpos⟩ := hgood a s ha hp.1 (by omega)
        obtain rfl := (Prod.mk.inj (hnext'.symm.trans hnext)).2
        refine List.forall_mem_cons.mpr ⟨ha, ih ?_ ?_ _ hxs.2 htail⟩
        · rw [hpos]
          exact hp.2
        · omega
  · intro has
    refine ⟨_, ?_, yields_of_layout Good limit hgood hlast hp hlimit has⟩
    rw [List.map_map]
    rfl

end layout

end Walk
