import Rdbparser.Body

namespace rdbparser

/-- An element of a list pack: a word of 64 bits, or a string. -/
inductive ListPackElem
  | int (n : Nat)
  | str (s : List UInt8)
  deriving DecidableEq, Repr

def ListPackElem.val : ListPackElem → RdbVal
  | int n => .int (sext 64 n)
  | str s => .str s

namespace RdbListPack

/-- What `next` has found. -/
def elem (l : RdbListPack) (lval : RdbListValue) : ListPackElem :=
  match lval.data with
  | some data => .str ((l.base.add data).mem.take lval.data_len)
  | none => .int lval.ival

/-- The elements that `next` finds one after the other. -/
def Ahead (l : RdbListPack) : RdbListValue → List ListPackElem → Prop
  | _, [] => True
  | lval, x :: xs => ∃ lval', l.next lval = (true, lval') ∧ l.elem lval' = x ∧ l.Ahead lval' xs

instance decidableAhead (l : RdbListPack) :
    (lval : RdbListValue) → (xs : List ListPackElem) → Decidable (l.Ahead lval xs)
  | _, [] => isTrue trivial
  | lval, x :: xs =>
    have := decidableAhead l (l.next lval).2 xs
    decidable_of_iff ((l.next lval).1 = true ∧ l.elem (l.next lval).2 = x ∧ l.Ahead (l.next lval).2 xs)
      ⟨fun ⟨hmore, helem, hrest⟩ => ⟨(l.next lval).2, Prod.ext hmore rfl, helem, hrest⟩,
        fun ⟨lval', hnext, helem, hrest⟩ => by rw [hnext]; exact ⟨rfl, helem, hrest⟩⟩

/-- Before the first element. -/
def start (l : RdbListPack) : RdbListValue := { entry := l.data, entry_len := 0 }

/-- What is handed out for an element is what it says, as an integer or a string. -/
theorem decode_lval_elem (l : RdbListPack) (lval : RdbListValue) :
    (RdbDecode.decode_lval l.base lval).val = (l.elem lval).val := by
  rw [RdbDecode.decode_lval, elem]
  cases lval.data with
  | some data => rfl
  | none =>
    have hlo : -(2 ^ 63) ≤ sext 64 lval.ival := Int.le_bmod (by decide)
    have hhi : sext 64 lval.ival < 2 ^ 63 := Int.bmod_lt (by decide)
    exact RdbString.set_int_val _ hlo hhi

/-- An integer is an element without data. -/
theorem elem_int {l : RdbListPack} {lval : RdbListValue} {n : Nat} (h : l.elem lval = .int n) :
    lval.data = none ∧ lval.ival = n := by
  unfold elem at h
  split at h
  · cases h
  · next hdata => exact ⟨hdata, ListPackElem.int.inj h⟩

theorem Ahead.next {l : RdbListPack} {lval : RdbListValue} {x : ListPackElem} {xs : List ListPackElem}
    (h : l.Ahead lval (x :: xs)) :
    ∃ lval', l.next lval = (true, lval') ∧ l.elem lval' = x ∧ l.Ahead lval' xs := h

theorem Ahead.next_ival {l : RdbListPack} {lval : RdbListValue} {n : Nat} {xs : List ListPackElem}
    (h : l.Ahead lval (.int n :: xs)) :
    ∃ lval', l.next_ival lval = (true, lval') ∧ lval'.ival = n ∧ l.Ahead lval' xs := by
  obtain ⟨lval', hnext, helem, hrest⟩ := h
  obtain ⟨hdata, hival⟩ := elem_int helem
  refine ⟨lval', ?_, hival, hrest⟩
  simp only [RdbListPack.next_ival, hnext, hdata, Option.isNone_none, Bool.and_self]

theorem Ahead.first_ival {l : RdbListPack} {n : Nat} {xs : List ListPackElem}
    (h : l.Ahead l.start (.int n :: xs)) :
    ∃ lval', l.first_ival = (true, lval') ∧ lval'.ival = n ∧ l.Ahead lval' xs :=
  h.next_ival

/-- The part of an element that follows the back code is no shorter than one byte. -/
theorem lpback_size_pos (x : Nat) : 0 < lpback_size x := by
  have hloop : ∀ fuel x i, 0 < i → 0 < lpback_size_loop fuel x i := by
    intro fuel
    induction fuel with
    | zero => exact fun _ _ h => h
    | succ fuel ih =>
      intro x i hi
      unfold lpback_size_loop
      split
      · exact ih _ _ (Nat.succ_pos i)
      · exact hi
  exact hloop 9 x 1 Nat.one_pos

/-- The element at an opcode begins there. One that is not all in the list keeps the size that is past
its end. -/
theorem entry_at_bounds (l : RdbListPack) (n : ListPackEnc) (lval : RdbListValue) :
    (l.entry_at n lval).entry = lval.entry ∧
      ((l.entry_at n lval).entry_len = lval.entry_len ∨ 0 < (l.entry_at n lval).entry_len) := by
  by_cases hin : lval.entry + lp_size n ≤ l.end_
  · simp only [entry_at, hin, if_true]
    refine ⟨?_, .inr (Nat.add_pos_right _ (lpback_size_pos _))⟩
    cases is_immed n <;> rfl
  · simp only [entry_at, hin, if_false, true_or, and_self]

/-- An element lies behind the one before it, and in the list. -/
theorem next_bounds {l : RdbListPack} (hl : l.end_ = l.lpbytes) {lval lval' : RdbListValue}
    (hpos : 0 < lval.entry + lval.entry_len) (h : l.next lval = (true, lval')) :
    lval'.entry = lval.entry + lval.entry_len ∧ 0 < lval'.entry_len ∧
      lval'.entry + lval'.entry_len ≤ l.end_ := by
  rw [RdbListPack.next] at h
  simp only at h
  split at h
  · split at h
    · cases h
    · obtain ⟨hin, rfl⟩ := Prod.mk.inj h
      have hin := of_decide_eq_true hin
      obtain ⟨hentry, hlen⟩ := l.entry_at_bounds (lp_code (l.base.mem (lval.entry + lval.entry_len)))
        { entry := lval.entry + lval.entry_len, entry_len := l.lpbytes }
      refine ⟨hentry, ?_, hin⟩
      rcases hlen with hsame | hpos'
      · rw [hentry, hsame] at hin
        simp only at hin
        omega
      · exact hpos'
  · obtain ⟨hin, rfl⟩ := Prod.mk.inj h
    have hin := of_decide_eq_true hin
    omega

/-- There are no more elements than bytes. -/
theorem Ahead.length_le {l : RdbListPack} (hl : l.end_ = l.lpbytes) {xs : List ListPackElem}
    {lval : RdbListValue} (hpos : 0 < lval.entry + lval.entry_len) (h : l.Ahead lval xs) :
    xs = [] ∨ lval.entry + lval.entry_len + xs.length ≤ l.lpbytes := by
  induction xs generalizing lval with
  | nil => exact .inl rfl
  | cons x xs ih =>
    obtain ⟨lval', hnext, -, hrest⟩ := h
    obtain ⟨hentry, hlen, hin⟩ := next_bounds hl hpos hnext
    right
    rcases ih (by omega) hrest with rfl | hle
    · rw [List.length_singleton]
      omega
    · rw [List.length_cons]
      omega

/-- What `init` makes of a blob. -/
theorem init_some {b : Ptr} {sz : Nat} {l : RdbListPack} (h : RdbListPack.init b sz = some l) :
    l.base = b ∧ l.data = 6 ∧ l.end_ = l.lpbytes ∧ l.lpbytes = le_nat (b.mem.take 4) ∧
      l.lpbytes < 2 ^ 32 := by
  unfold RdbListPack.init at h
  split at h
  · cases h
  · dsimp only at h
    split at h
    · cases h
    · obtain rfl := Option.some.inj h
      refine ⟨rfl, rfl, rfl, rfl, ?_⟩
      have hlt := le_nat_lt (b.mem.take 4)
      rwa [Mem.take_length] at hlt

end RdbListPack

end rdbparser
