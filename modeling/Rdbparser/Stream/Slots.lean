import Rdbparser.Stream
import Rdbparser.ListPack.Walk

namespace rdbparser

/-- The place of one value. -/
inductive Slot
  | tmp (i : Nat)
  | heap (id i : Nat)
  deriving DecidableEq

def ArrPtr.slot : ArrPtr → Nat → Option Slot
  | .null, _ => none
  | .tmp j, i => some (.tmp (j + i))
  | .heap id, i => some (.heap id i)

namespace RdbStreamEntry

/-- What a slot holds. -/
def get (e : RdbStreamEntry) : Slot → RdbListValue
  | .tmp i => e.tmp i
  | .heap id i => e.heap id i

/-- Two entries differ in what their slots hold only. -/
def Kept (e e' : RdbStreamEntry) : Prop := e' = { e with tmp := e'.tmp, heap := e'.heap }

theorem Kept.refl (e : RdbStreamEntry) : Kept e e := rfl

theorem Kept.trans {e e' e'' : RdbStreamEntry} (h : Kept e e') (h' : Kept e' e'') : Kept e e'' := by
  rw [Kept, h', h]

theorem Kept.inside {e e' : RdbStreamEntry} (h : Kept e e') (p : ArrPtr) (i : Nat) :
    e'.inside p i = e.inside p i := by
  rw [h]
  rfl

theorem load_some {e : RdbStreamEntry} {p : ArrPtr} {i : Nat} {v : RdbListValue} :
    e.load p i = some v ↔ e.inside p i = true ∧ ∃ σ, p.slot i = some σ ∧ e.get σ = v := by
  unfold load
  cases hin : e.inside p i with
  | false => simp
  | true => cases p <;> simp [ArrPtr.slot, get]

/-- A store changes its own slot. -/
theorem store_run {e : RdbStreamEntry} {p : ArrPtr} {i : Nat} (h : e.inside p i = true)
    (v : RdbListValue) :
    ∃ e', e.store p i v = some e' ∧ Kept e e' ∧ e'.load p i = some v ∧
      ∀ σ, p.slot i ≠ some σ → e'.get σ = e.get σ := by
  unfold store
  rw [if_pos h]
  cases p with
  | null => cases h
  | tmp j =>
    refine ⟨_, rfl, rfl, load_some.mpr ⟨h, _, rfl, if_pos rfl⟩, fun σ hσ => ?_⟩
    cases σ with
    | tmp k => exact if_neg fun hk => hσ (by rw [hk]; rfl)
    | heap id k => rfl
  | heap id =>
    refine ⟨_, rfl, rfl, load_some.mpr ⟨h, _, rfl, if_pos ⟨rfl, rfl⟩⟩, fun σ hσ => ?_⟩
    cases σ with
    | tmp k => rfl
    | heap b k => exact if_neg fun hk => hσ (by rw [hk.1, hk.2]; rfl)

/-- An array holds elements from an index on. -/
def Has (e : RdbStreamEntry) (list : RdbListPack) (p : ArrPtr) (i : Nat) (xs : List ListPackElem) : Prop :=
  ∀ k x, xs[k]? = some x → ∃ v, e.load p (i + k) = some v ∧ list.elem v = x

theorem Has.nil (e : RdbStreamEntry) (list : RdbListPack) (p : ArrPtr) (i : Nat) : e.Has list p i [] := by
  intro k x hk
  cases hk

/-- Slots that hold a first element and then others. -/
theorem Has.cons {e : RdbStreamEntry} {list : RdbListPack} {p : ArrPtr} {i : Nat} {x : ListPackElem}
    {xs : List ListPackElem} {v : RdbListValue} (hv : e.load p i = some v) (hx : list.elem v = x)
    (hxs : e.Has list p (i + 1) xs) : e.Has list p i (x :: xs) := by
  intro k y hk
  cases k with
  | zero =>
    obtain rfl := Option.some.inj hk
    exact ⟨v, hv, hx⟩
  | succ k =>
    obtain ⟨w, hw, hy⟩ := hxs k y hk
    exact ⟨w, by rwa [Nat.add_assoc, Nat.add_comm 1] at hw, hy⟩

/-- What an array holds stays if its slots do. -/
theorem Has.kept {e e' : RdbStreamEntry} {list : RdbListPack} {p : ArrPtr} {i : Nat}
    {xs : List ListPackElem} (h : e.Has list p i xs)
    (hin : ∀ k < xs.length, e.inside p (i + k) = true → e'.inside p (i + k) = true)
    (hget : ∀ k < xs.length, ∀ σ, p.slot (i + k) = some σ → e'.get σ = e.get σ) :
    e'.Has list p i xs := by
  intro k x hk
  obtain ⟨hlt, -⟩ := List.getElem?_eq_some_iff.mp hk
  obtain ⟨v, hload, hx⟩ := h k x hk
  obtain ⟨hinside, σ, hσ, rfl⟩ := load_some.mp hload
  exact ⟨_, load_some.mpr ⟨hin k hlt hinside, σ, hσ, hget k hlt σ hσ⟩, hx⟩

/-- The first `m` slots of an array and the first `n` of another have none in common. -/
def Apart (p : ArrPtr) (m : Nat) (q : ArrPtr) (n : Nat) : Prop :=
  ∀ i < m, ∀ j < n, ∀ σ, p.slot i = some σ → q.slot j ≠ some σ

theorem apart_tmp {i m j : Nat} (h : i + m ≤ j) (n : Nat) : Apart (.tmp i) m (.tmp j) n := by
  intro k hk l _ σ hσ hσ'
  have heq := Slot.tmp.inj (Option.some.inj (hσ.trans hσ'.symm))
  omega

theorem apart_tmp_heap (i m id n : Nat) : Apart (.tmp i) m (.heap id) n := by
  intro k _ l _ σ hσ hσ'
  cases hσ.trans hσ'.symm

theorem apart_heap_tmp (id m j n : Nat) : Apart (.heap id) m (.tmp j) n := by
  intro k _ l _ σ hσ hσ'
  cases hσ.trans hσ'.symm

theorem apart_heap {id id' : Nat} (h : id ≠ id') (m n : Nat) : Apart (.heap id) m (.heap id') n := by
  intro k _ l _ σ hσ hσ'
  exact h (Slot.heap.inj (Option.some.inj (hσ.trans hσ'.symm))).1

/-- Two places of an array are two slots. -/
theorem ArrPtr.slot_inj {p : ArrPtr} {i j : Nat} {σ : Slot} (hi : p.slot i = some σ)
    (hj : p.slot j = some σ) : i = j := by
  cases p with
  | null => cases hi
  | tmp k =>
    have h := Option.some.inj (hi.trans hj.symm)
    exact Nat.add_left_cancel (Slot.tmp.inj h)
  | heap id =>
    have h := Option.some.inj (hi.trans hj.symm)
    exact (Slot.heap.inj h).2

/-- The master fields are read into their array. -/
theorem read_master_run {list : RdbListPack} (xs : List ListPackElem) {rest : List ListPackElem} {i : Nat}
    {e : RdbStreamEntry} {lval : RdbListValue} (hahead : list.Ahead lval (xs ++ rest))
    (hin : ∀ k < xs.length, e.inside e.master (i + k) = true) :
    ∃ e' lval', read_master list i xs.length e lval = some (true, e', lval') ∧
      list.Ahead lval' rest ∧ Kept e e' ∧ e'.Has list e.master i xs ∧
      ∀ σ, (∀ j, i ≤ j → e.master.slot j ≠ some σ) → e'.get σ = e.get σ := by
  induction xs generalizing i e lval with
  | nil => exact ⟨e, lval, rfl, hahead, .refl e, .nil _ _ _ _, fun _ _ => rfl⟩
  | cons x xs ih =>
    obtain ⟨lval₁, hnext, hx, hahead⟩ := hahead
    obtain ⟨e₁, hstore, hkept, hload, hget⟩ := store_run (by simpa using hin 0 (by simp)) lval₁
    have hmaster : e₁.master = e.master := by rw [hkept]
    obtain ⟨e₂, lval₂, hrun, hahead₂, hkept₂, hhas, hget₂⟩ := ih (i := i + 1) (e := e₁) hahead (by
      intro k hk
      rw [hkept.inside, hmaster, Nat.add_assoc, Nat.add_comm 1]
      exact hin (k + 1) (Nat.succ_lt_succ hk))
    rw [hmaster] at hhas hget₂
    refine ⟨e₂, lval₂, ?_, hahead₂, hkept.trans hkept₂, ?_, ?_⟩
    · simp only [List.length_cons, read_master, hnext, hstore, hrun]
    · obtain ⟨hinside, σ, hσ, hv⟩ := load_some.mp hload
      refine .cons (load_some.mpr ⟨?_, σ, hσ, ?_⟩) hx hhas
      · rw [hkept₂.inside]
        exact hinside
      · rw [hget₂ σ fun j hj hslot => absurd (ArrPtr.slot_inj hσ hslot) (by omega), hv]
    · intro σ hσ
      rw [hget₂ σ fun j hj => hσ j (by omega), hget σ (hσ i (Nat.le_refl i))]

/-- What a loop over the indexes of an array from `i` on leaves in the slot of `i`. -/
theorem load_kept {e e' : RdbStreamEntry} {p : ArrPtr} {i : Nat} {v : RdbListValue}
    (hload : e.load p i = some v) (hkept : Kept e e')
    (hget : ∀ σ, p.slot i = some σ → e'.get σ = e.get σ) : e'.load p i = some v := by
  obtain ⟨hinside, σ, hσ, rfl⟩ := load_some.mp hload
  refine load_some.mpr ⟨?_, σ, hσ, hget σ hσ⟩
  rwa [hkept.inside]

/-- The values of an entry that has the master fields. -/
theorem read_pairs_same {list : RdbListPack} (xs : List ListPackElem) {rest : List ListPackElem} {i : Nat}
    {e : RdbStreamEntry} {lval : RdbListValue} (hsame : e.same_fields = true)
    (hahead : list.Ahead lval (xs ++ rest)) (hin : ∀ k < xs.length, e.inside e.values (i + k) = true) :
    ∃ e' lval', read_pairs list i xs.length true e lval = some (true, e', lval') ∧
      list.Ahead lval' rest ∧ Kept e e' ∧ e'.Has list e.values i xs ∧
      ∀ σ, (∀ j, i ≤ j → j < i + xs.length → e.values.slot j ≠ some σ) → e'.get σ = e.get σ := by
  induction xs generalizing i e lval with
  | nil => exact ⟨e, lval, rfl, hahead, .refl e, .nil _ _ _ _, fun _ _ => rfl⟩
  | cons x xs ih =>
    obtain ⟨lval₁, hnext, hx, hahead⟩ := hahead
    obtain ⟨e₁, hstore, hkept, hload, hget⟩ := store_run (by simpa using hin 0 (by simp)) lval₁
    have hvalues : e₁.values = e.values := by rw [hkept]
    have hsame₁ : e₁.same_fields = true := by
      rw [hkept]
      exact hsame
    obtain ⟨e₂, lval₂, hrun, hahead₂, hkept₂, hhas, hget₂⟩ := ih (i := i + 1) (e := e₁) hsame₁ hahead (by
      intro k hk
      rw [hkept.inside, hvalues, Nat.add_assoc, Nat.add_comm 1]
      exact hin (k + 1) (Nat.succ_lt_succ hk))
    rw [hvalues] at hhas hget₂
    refine ⟨e₂, lval₂, ?_, hahead₂, hkept.trans hkept₂, .cons (load_kept hload hkept₂ ?_) hx hhas, ?_⟩
    · simp only [List.length_cons, read_pairs, hsame, if_true, hnext, hstore, Bool.and_self, hrun]
    · intro σ hσ
      exact hget₂ σ fun j hj _ hslot => absurd (ArrPtr.slot_inj hσ hslot) (by omega)
    · intro σ hσ
      rw [List.length_cons] at hσ
      rw [hget₂ σ fun j hj hlt => hσ j (by omega) (by omega), hget σ (hσ i (Nat.le_refl i) (by omega))]

/-- The fields and values of an entry that has its own fields. -/
theorem read_pairs_own {list : RdbListPack} (xs : List (ListPackElem × ListPackElem))
    {rest : List ListPackElem} {i n : Nat} {e : RdbStreamEntry} {lval : RdbListValue}
    (hown : e.same_fields = false)
    (hahead : list.Ahead lval (xs.flatMap (fun x => [x.1, x.2]) ++ rest)) (hn : i + xs.length = n)
    (hin : ∀ k < n, e.inside e.fields k = true ∧ e.inside e.values k = true)
    (hapart : Apart e.fields n e.values n) :
    ∃ e' lval', read_pairs list i xs.length true e lval = some (true, e', lval') ∧
      list.Ahead lval' rest ∧ Kept e e' ∧ e'.Has list e.fields i (xs.map Prod.fst) ∧
      e'.Has list e.values i (xs.map Prod.snd) ∧
      ∀ σ, (∀ j, i ≤ j → j < n → e.fields.slot j ≠ some σ ∧ e.values.slot j ≠ some σ) →
        e'.get σ = e.get σ := by
  induction xs generalizing i e lval with
  | nil => exact ⟨e, lval, rfl, hahead, .refl e, .nil _ _ _ _, .nil _ _ _ _, fun _ _ => rfl⟩
  | cons x xs ih =>
    rw [List.length_cons] at hn
    obtain ⟨lval₁, hnext₁, hx₁, lval₂, hnext₂, hx₂, hahead⟩ := hahead
    -- the field, then the value
    obtain ⟨e₁, hstore₁, hkept₁, hload₁, hget₁⟩ := store_run (hin i (by omega)).1 lval₁
    have hinside : e₁.inside e₁.values i = true := by
      rw [hkept₁.inside, hkept₁]
      exact (hin i (by omega)).2
    obtain ⟨e₂, hstore₂, hkept₂, hload₂, hget₂⟩ := store_run hinside lval₂
    have hkept := hkept₁.trans hkept₂
    have hfields : e₂.fields = e.fields := by rw [hkept]
    have hvalues : e₂.values = e.values := by rw [hkept]
    have hvalues₁ : e₁.values = e.values := by rw [hkept₁]
    have hown₂ : e₂.same_fields = false := by
      rw [hkept]
      exact hown
    rw [hvalues₁] at hload₂ hget₂
    obtain ⟨e₃, lval₃, hrun, hahead₃, hkept₃, hhasf, hhasv, hget₃⟩ := ih (i := i + 1) (e := e₂) hown₂ hahead
      (by omega) (by
        intro k hk
        rw [hkept.inside, hkept.inside, hfields, hvalues]
        exact hin k hk) (by rwa [hfields, hvalues])
    rw [hfields] at hhasf hget₃
    rw [hvalues] at hhasv hget₃
    refine ⟨e₃, lval₃, ?_, hahead₃, hkept.trans hkept₃,
      .cons (load_kept hload₁ (hkept₂.trans hkept₃) ?_) hx₁ hhasf,
      .cons (load_kept hload₂ hkept₃ ?_) hx₂ hhasv, ?_⟩
    · have hown₁ : e₁.same_fields = false := by
        rw [hkept₁]
        exact hown
      simp only [List.length_cons, read_pairs, hown, Bool.false_eq_true, if_false, hnext₁, hstore₁, hnext₂,
        hstore₂, Bool.and_self, hrun]
    · intro σ hσ
      rw [hget₃ σ fun j hj hjn => ⟨fun h => absurd (ArrPtr.slot_inj hσ h) (by omega),
        hapart i (by omega) j hjn σ hσ⟩]
      exact hget₂ σ (hapart i (by omega) i (by omega) σ hσ)
    · intro σ hσ
      exact hget₃ σ fun j hj hjn => ⟨fun h => hapart j hjn i (by omega) σ h hσ,
        fun h => absurd (ArrPtr.slot_inj hσ h) (by omega)⟩
    · intro σ hσ
      obtain ⟨hf, hv⟩ := hσ i (Nat.le_refl i) (by omega)
      rw [hget₃ σ fun j hj hjn => hσ j (by omega) hjn, hget₂ σ hv, hget₁ σ hf]

theorem Has.head {e : RdbStreamEntry} {list : RdbListPack} {p : ArrPtr} {i : Nat} {x : ListPackElem}
    {xs : List ListPackElem} (h : e.Has list p i (x :: xs)) :
    ∃ v, e.load p i = some v ∧ list.elem v = x := h 0 x rfl

theorem Has.tail {e : RdbStreamEntry} {list : RdbListPack} {p : ArrPtr} {i : Nat} {x : ListPackElem}
    {xs : List ListPackElem} (h : e.Has list p i (x :: xs)) : e.Has list p (i + 1) xs := by
  intro k y hk
  obtain ⟨v, hv, hy⟩ := h (k + 1) y hk
  exact ⟨v, by rwa [Nat.add_assoc, Nat.add_comm 1], hy⟩

/-- The field and the value of an index as the callback finds them. -/
def pair (e : RdbStreamEntry) (base : Ptr) (i : Nat) : Option (RdbVal × RdbVal) :=
  match e.load e.fields i, e.load e.values i with
  | some field, some val =>
    some ((RdbDecode.decode_lval base field).val, (RdbDecode.decode_lval base val).val)
  | _, _ => none

/-- The pairs of an entry are those that its slots hold, from any number on. -/
theorem pairs_from {e : RdbStreamEntry} {list : RdbListPack} (xs : List (ListPackElem × ListPackElem))
    {i : Nat} (hf : e.Has list e.fields i (xs.map Prod.fst)) (hv : e.Has list e.values i (xs.map Prod.snd)) :
    (List.range' i xs.length).mapM (e.pair list.base) = some (xs.map fun x => (x.1.val, x.2.val)) := by
  induction xs generalizing i with
  | nil => rfl
  | cons x xs ih =>
    obtain ⟨field, hfield, hx₁⟩ := hf.head
    obtain ⟨val, hval, hx₂⟩ := hv.head
    have hpair : e.pair list.base i = some (x.1.val, x.2.val) := by
      simp only [pair, hfield, hval, list.decode_lval_elem, hx₁, hx₂]
    rw [List.length_cons, List.range'_succ, List.mapM_cons, hpair, ih hf.tail hv.tail]
    rfl

/-- An entry hands out its fields with its values. -/
theorem pairs_eq {e : RdbStreamEntry} {list : RdbListPack} {xs : List (ListPackElem × ListPackElem)}
    (hn : e.entry_field_count = xs.length) (hf : e.Has list e.fields 0 (xs.map Prod.fst))
    (hv : e.Has list e.values 0 (xs.map Prod.snd)) :
    e.pairs list.base = some (xs.map fun x => (x.1.val, x.2.val)) := by
  have h := pairs_from xs hf hv
  rwa [← List.range_eq_range', ← hn] at h

/-- An entry whose fields are gone hands out nothing. -/
theorem pairs_none {e : RdbStreamEntry} {base : Ptr} (hn : 0 < e.entry_field_count)
    (hf : e.load e.fields 0 = none) : e.pairs base = none := by
  have hpair : e.pair base 0 = none := by
    simp only [pair, hf]
  obtain ⟨n, hn⟩ : ∃ n, e.entry_field_count = n + 1 := ⟨_, (Nat.succ_pred_eq_of_pos hn).symm⟩
  change (List.range e.entry_field_count).mapM (e.pair base) = none
  rw [hn, List.range_eq_range', List.range'_succ, List.mapM_cons, hpair]
  rfl

end RdbStreamEntry

end rdbparser
