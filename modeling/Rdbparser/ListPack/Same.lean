import Rdbparser.ListPack.Inside
import Rdbparser.ListPack.Walk

namespace rdbparser

namespace RdbListPack

/-- Two lists that hold the same bytes, wherever they lie and whatever lies behind them. -/
structure Same (l l' : RdbListPack) : Prop where
  lpbytes : l'.lpbytes = l.lpbytes
  lplen : l'.lplen = l.lplen
  data : l'.data = l.data
  end_ : l'.end_ = l.end_
  mem : ∀ i < l.end_, l'.base.mem i = l.base.mem i

/-- What is found of an element is the same in lists with the same bytes. -/
theorem Same.entry_at {l l' : RdbListPack} (h : l.Same l') (n : ListPackEnc) (lval : RdbListValue) :
    l'.entry_at n lval = l.entry_at n lval := by
  by_cases hin : lval.entry + lp_size n ≤ l.end_
  · have hval : lp_val n (l'.base.mem.add lval.entry) = lp_val n (l.base.mem.add lval.entry) :=
      lp_val_congr fun i hi => by
        have hlt := val_reads_lt hi
        exact h.mem _ (by omega)
    simp only [RdbListPack.entry_at, h.end_, hval]
  · simp only [RdbListPack.entry_at, h.end_, hin, if_false]

/-- They are walked alike. -/
theorem Same.next {l l' : RdbListPack} (h : l.Same l') (lval : RdbListValue) :
    l'.next lval = l.next lval := by
  by_cases hin : lval.entry + lval.entry_len < l.end_
  · simp only [RdbListPack.next, h.lpbytes, h.end_, h.mem _ hin, h.entry_at]
  · simp only [RdbListPack.next, h.lpbytes, h.end_, hin, if_false]

/-- The data an element points at is in the list. -/
def InRange (l : RdbListPack) (lval : RdbListValue) : Prop :=
  ∀ data, lval.data = some data → data + lval.data_len ≤ l.end_

/-- The slice of an element that is found ends inside of the list. -/
theorem next_in_range {l : RdbListPack} {lval lval' : RdbListValue} (h : l.next lval = (true, lval')) :
    l.InRange lval' := by
  intro data hdata
  rw [RdbListPack.next] at h
  simp only at h
  split at h
  · split at h
    · cases h
    · obtain ⟨hin, rfl⟩ := Prod.mk.inj h
      have hin := of_decide_eq_true hin
      unfold RdbListPack.entry_at at hdata hin ⊢
      simp only at hdata hin ⊢
      split at hdata
      · next hnext =>
        simp only [if_pos hnext] at hin ⊢
        split at hdata
        · cases hdata
        · next himm =>
          simp only [himm] at hin ⊢
          obtain rfl := Option.some.inj hdata
          simp only [Bool.false_eq_true, if_false] at hin ⊢
          omega
      · cases hdata
  · obtain ⟨-, rfl⟩ := Prod.mk.inj h
    cases hdata

/-- So is the element, if its slice is in the list. -/
theorem Same.elem {l l' : RdbListPack} (h : l.Same l') {lval : RdbListValue} (hin : l.InRange lval) :
    l'.elem lval = l.elem lval := by
  rw [RdbListPack.elem, RdbListPack.elem]
  cases hdata : lval.data with
  | none => rfl
  | some data =>
    have hle := hin data hdata
    have htake : (l'.base.add data).mem.take lval.data_len = (l.base.add data).mem.take lval.data_len :=
      Mem.take_congr fun i hi => h.mem (data + i) (by omega)
    simp only [htake]

/-- So are the elements ahead. -/
theorem Same.ahead {l l' : RdbListPack} (h : l.Same l') {lval : RdbListValue} {xs : List ListPackElem}
    (hahead : l.Ahead lval xs) : l'.Ahead lval xs := by
  induction xs generalizing lval with
  | nil => trivial
  | cons x xs ih =>
    obtain ⟨lval', hnext, helem, hrest⟩ := hahead
    refine ⟨lval', (h.next lval).trans hnext, ?_, ih hrest⟩
    rw [h.elem (next_in_range hnext), helem]

theorem Same.next_eq {l l' : RdbListPack} (h : l.Same l') : l'.next = l.next := funext h.next

theorem Same.next_ival_eq {l l' : RdbListPack} (h : l.Same l') : l'.next_ival = l.next_ival := by
  funext lval
  rw [RdbListPack.next_ival, RdbListPack.next_ival, h.next]

theorem Same.first_ival_eq {l l' : RdbListPack} (h : l.Same l') : l'.first_ival = l.first_ival := by
  rw [RdbListPack.first_ival, RdbListPack.first_ival, first, first, h.data, h.next]

/-- `init` finds no list in any memory that starts with these bytes if it finds none in one. -/
theorem init_none_same {b b' : Ptr} {text : List UInt8} (hinit : RdbListPack.init b text.length = none)
    (hb : b.mem.Starts text) (hb' : b'.mem.Starts text) : RdbListPack.init b' text.length = none := by
  have hsame : ∀ i < text.length, b'.mem i = b.mem i := fun i hi => (hb'.get hi).trans (hb.get hi).symm
  unfold RdbListPack.init at hinit ⊢
  split at hinit
  · next hsz => rw [if_pos hsz]
  · next hsz =>
    have hbytes : b'.mem.take 4 = b.mem.take 4 := Mem.take_congr fun i hi => hsame i (by omega)
    rw [if_neg hsz]
    dsimp only at hinit ⊢
    rw [hbytes]
    split at hinit
    · next hlp => rw [if_pos hlp]
    · cases hinit

/-- `init` finds the same list in every memory that starts with its bytes. -/
theorem init_same {b b' : Ptr} {text : List UInt8} {l : RdbListPack}
    (hinit : RdbListPack.init b text.length = some l) (hb : b.mem.Starts text) (hb' : b'.mem.Starts text)
    (hlen : l.lpbytes ≤ text.length) :
    ∃ l', RdbListPack.init b' text.length = some l' ∧ l.Same l' ∧ l'.base = b' := by
  have hsame : ∀ i < text.length, b'.mem i = b.mem i := fun i hi => (hb'.get hi).trans (hb.get hi).symm
  unfold RdbListPack.init at hinit ⊢
  split at hinit
  · cases hinit
  · next hsz =>
    have hbytes : b'.mem.take 4 = b.mem.take 4 := Mem.take_congr fun i hi => hsame i (by omega)
    have hlplen : (b'.mem.add 4).take 2 = (b.mem.add 4).take 2 :=
      Mem.take_congr fun i hi => hsame (4 + i) (by omega)
    rw [if_neg hsz]
    dsimp only at hinit ⊢
    rw [hbytes, hlplen]
    split at hinit
    · cases hinit
    · next hlp =>
      obtain rfl := Option.some.inj hinit
      rw [if_neg hlp]
      exact ⟨_, rfl, ⟨rfl, rfl, rfl, rfl, fun i hi => hsame i (Nat.lt_of_lt_of_le hi hlen)⟩, rfl⟩

end RdbListPack

end rdbparser
