import Rdbparser.ListPack.Codes
import Rdbparser.Walk.Calls

/-! Which bytes of a list pack are read. -/

namespace rdbparser.RdbListPack

open ListPackEnc

variable {l : RdbListPack} {lval t : RdbListValue} {sz : Nat}

/-- What `init` reads of a blob. -/
def init_reads (sz : Nat) : List Nat := if sz < 6 then [] else List.range 6

/-- What `lp_val` reads, from the code on. -/
def val_reads : ListPackEnc → List Nat
  | LP_7BIT_UINT | LP_6BIT_STR => [0]
  | LP_13BIT_INT | LP_12BIT_STR => [0, 1]
  | LP_32BIT_STR | LP_32BIT_INT => [1, 2, 3, 4]
  | LP_16BIT_INT => [1, 2]
  | LP_24BIT_INT => [1, 2, 3]
  | LP_64BIT_INT => [1, 2, 3, 4, 5, 6, 7, 8]
  | LP_END | LP_UNUSED => []

/-- What `next` reads. -/
def next_reads (l : RdbListPack) (lval : RdbListValue) : List Nat :=
  let entry := lval.entry + lval.entry_len
  if entry < l.end_ then
    let n := lp_code (l.base.mem entry)
    if n = LP_END then [entry]
    else if entry + lp_size n ≤ l.end_ then entry :: (val_reads n).map (entry + ·)
    else [entry]
  else []

/-- A call of `next` reads within a blob of `sz` bytes, and so do those who are handed a slice by it. That it
reads no other bytes is said by what it finds where these are the same. -/
structure Within (l : RdbListPack) (sz : Nat) (lval : RdbListValue) : Prop where
  reads : ∀ i ∈ l.next_reads lval, i < sz
  slice : ∀ t, l.next lval = (true, t) → ∀ i, t.data = some i → i + t.data_len ≤ sz
  alone : ∀ b : Ptr, (∀ i ∈ l.next_reads lval, b.mem i = l.base.mem i) →
    RdbListPack.next { l with base := b } lval = l.next lval

/-- `init` reads within a blob, and nothing else, and so does a walk over it. -/
structure Inside (b : Ptr) (sz : Nat) : Prop where
  init : ∀ i ∈ init_reads sz, i < sz
  alone : ∀ c : Ptr, (∀ i ∈ init_reads sz, c.mem i = b.mem i) →
    RdbListPack.init c sz = (RdbListPack.init b sz).map fun l => { l with base := c }
  walk : ∀ l, RdbListPack.init b sz = some l → l.walk.Throughout (l.Within sz) l.start

/-- Bytes elsewhere do not matter to what `init` finds. -/
theorem init_congr {b c : Ptr} (h : ∀ i ∈ init_reads sz, c.mem i = b.mem i) :
    RdbListPack.init c sz = (RdbListPack.init b sz).map fun l => { l with base := c } := by
  unfold init_reads at h
  unfold RdbListPack.init
  by_cases hsz : sz < 6
  · rw [if_pos hsz, if_pos hsz]
    rfl
  · rw [if_neg hsz] at h
    have hsize : c.mem.take 4 = b.mem.take 4 := Mem.take_congr fun i hi => h i (List.mem_range.mpr (by omega))
    have hcount : (c.mem.add 4).take 2 = (b.mem.add 4).take 2 :=
      Mem.take_congr fun i hi => h (4 + i) (List.mem_range.mpr (by omega))
    rw [if_neg hsz, if_neg hsz, hsize, hcount]
    dsimp only
    split <;> rfl

theorem lp_val_congr {e : ListPackEnc} {p q : Mem} (h : ∀ i ∈ val_reads e, q i = p i) : lp_val e q = lp_val e p := by
  cases e with
  | LP_END | LP_UNUSED => rfl
  | LP_7BIT_UINT | LP_6BIT_STR | LP_13BIT_INT | LP_12BIT_STR | LP_32BIT_STR | LP_32BIT_INT | LP_16BIT_INT | LP_24BIT_INT
  | LP_64BIT_INT =>
    simp only [val_reads, List.mem_cons, List.not_mem_nil, or_false, forall_eq_or_imp, forall_eq] at h
    simp [lp_val, l32, s13, s16, s24, s32, s64, Mem.take, Mem.add, List.range_succ, h]

/-- Bytes elsewhere do not matter to what `next` finds. -/
theorem next_congr {b : Ptr} (h : ∀ i ∈ l.next_reads lval, b.mem i = l.base.mem i) :
    RdbListPack.next { l with base := b } lval = l.next lval := by
  unfold next_reads at h
  unfold next
  dsimp only at h ⊢
  by_cases hlt : lval.entry + lval.entry_len < l.end_
  · rw [if_pos hlt] at h
    rw [if_pos hlt, if_pos hlt]
    have hcode : b.mem (lval.entry + lval.entry_len) = l.base.mem (lval.entry + lval.entry_len) := by
      apply h
      split
      · exact List.mem_cons_self
      · split <;> exact List.mem_cons_self
    rw [hcode]
    split
    · rfl
    · next hend =>
      rw [if_neg hend] at h
      unfold entry_at
      dsimp only
      by_cases hle : lval.entry + lval.entry_len + lp_size (lp_code (l.base.mem (lval.entry + lval.entry_len))) ≤ l.end_
      · rw [if_pos hle] at h
        have hval : lp_val (lp_code (l.base.mem (lval.entry + lval.entry_len)))
            (b.mem.add (lval.entry + lval.entry_len)) =
            lp_val (lp_code (l.base.mem (lval.entry + lval.entry_len)))
              (l.base.mem.add (lval.entry + lval.entry_len)) :=
          lp_val_congr fun i hi => h _ (List.mem_cons_of_mem _ (List.mem_map_of_mem hi))
        rw [hval]
      · rw [if_neg hle, if_neg hle]
  · rw [if_neg hlt, if_neg hlt]

/-- The last byte of a code is read. -/
theorem val_reads_last {e : ListPackEnc} (h : 1 < lp_size e) : lp_size e - 1 ∈ val_reads e := by
  revert h
  cases e <;> decide

theorem val_reads_lt {e : ListPackEnc} {i : Nat} (h : i ∈ val_reads e) : i < lp_size e := by
  have hall : ∀ i ∈ val_reads e, i < lp_size e := by cases e <;> decide
  exact hall i h

/-- Where the code ends. -/
def head (l : RdbListPack) (i : Nat) : Nat := i + lp_size (lp_code (l.base.mem i))

/-- Where the element ends, the bytes behind it excepted. -/
def body (l : RdbListPack) (i : Nat) : Nat := i + l.elem_size i

/-- Where the next element is. -/
def tail (l : RdbListPack) (i : Nat) : Nat := l.body i + lpback_size (l.elem_size i)

theorem head_le_body (l : RdbListPack) (i : Nat) : l.head i ≤ l.body i := Nat.add_le_add_left (Nat.le_add_right _ _) i

theorem body_le_tail (l : RdbListPack) (i : Nat) : l.body i ≤ l.tail i := Nat.le_add_right _ _

/-- Where the opcode of an element lies inside and is taken, the length of the element and the slice of it that is
handed out. -/
theorem entry_at_found {n : ListPackEnc} (hhead : lval.entry + lp_size n ≤ l.end_) (hdata : lval.data = none) :
    (l.entry_at n lval).entry_len = (lp_size n + if is_immed n then 0 else lp_val n (l.base.mem.add lval.entry)) +
        lpback_size (lp_size n + if is_immed n then 0 else lp_val n (l.base.mem.add lval.entry)) ∧
      (∀ m, (∀ i, (l.entry_at n lval).data = some i → i + (l.entry_at n lval).data_len ≤ m) ↔
        (is_immed n = false → lval.entry + (lp_size n + lp_val n (l.base.mem.add lval.entry)) ≤ m)) ∧
      ∀ i, (l.entry_at n lval).data = some i → lval.entry ≤ i := by
  rw [entry_at]
  dsimp only
  rw [if_pos hhead]
  cases himm : is_immed n with
  | true =>
    have hnone : ∀ i, ¬ lval.data = some i := fun i hi => by
      rw [hdata] at hi
      cases hi
    exact ⟨rfl, fun m => ⟨fun _ h => Bool.noConfusion h, fun _ i hi => absurd hi (hnone i)⟩,
      fun i hi => absurd hi (hnone i)⟩
  | false =>
    rw [← Nat.add_assoc]
    refine ⟨rfl, fun m => ⟨fun h _ => h _ rfl, fun h i hi => ?_⟩, fun i hi => ?_⟩
    · obtain rfl := Option.some.inj hi
      exact h rfl
    · obtain rfl := Option.some.inj hi
      exact Nat.le_add_right _ _

/-- What is found at a code that is in the list. -/
theorem next_at (hlt : l.walk.pos lval < l.end_) (hcode : lp_code (l.base.mem (l.walk.pos lval)) ≠ LP_END)
    (hhead : l.head (l.walk.pos lval) ≤ l.end_) :
    ∃ t, l.next lval = (decide (l.tail (l.walk.pos lval) ≤ l.end_), t) ∧ l.walk.pos t = l.tail (l.walk.pos lval) ∧
      (∀ n, (∀ i, t.data = some i → i + t.data_len ≤ n) ↔
        (is_immed (lp_code (l.base.mem (l.walk.pos lval))) = false → l.body (l.walk.pos lval) ≤ n)) ∧
      ∀ i, t.data = some i → l.walk.pos lval ≤ i := by
  have hpos : lval.entry + lval.entry_len = l.walk.pos lval := rfl
  have hentry := (l.entry_at_bounds (lp_code (l.base.mem (l.walk.pos lval))) ⟨none, l.walk.pos lval, 0, l.lpbytes, 0⟩).1
  obtain ⟨hlen, hslice, hdata⟩ := @entry_at_found l ⟨none, l.walk.pos lval, 0, l.lpbytes, 0⟩ _ hhead rfl
  refine ⟨l.entry_at (lp_code (l.base.mem (l.walk.pos lval))) ⟨none, l.walk.pos lval, 0, l.lpbytes, 0⟩, ?_, ?_,
    fun n => (hslice n).trans ?_, hdata⟩
  · rw [RdbListPack.next, hpos]
    dsimp only
    rw [if_pos hlt, if_neg hcode, hentry, hlen, ← Nat.add_assoc]
    rfl
  · change (l.entry_at _ _).entry + (l.entry_at _ _).entry_len = _
    rw [hentry, hlen, ← Nat.add_assoc]
    rfl
  · refine forall_congr' fun himm => ?_
    rw [body, elem_size, if_neg (Bool.eq_false_iff.mp himm)]

/-- A call does not go back, whether or not it finds an element. -/
theorem le_next (l : RdbListPack) (lval : RdbListValue) : l.walk.pos lval ≤ l.walk.pos (l.next lval).2 := by
  change lval.entry + lval.entry_len ≤ (l.next lval).2.entry + _
  refine Nat.le_trans (Nat.le_of_eq ?_) (Nat.le_add_right _ _)
  rw [RdbListPack.next]
  dsimp only
  split
  · split
    · rfl
    · exact (l.entry_at_bounds _ { entry := lval.entry + lval.entry_len, entry_len := l.lpbytes }).1.symm
  · rfl

/-- A call that finds nothing goes past the end. -/
theorem next_false (hl : l.end_ = l.lpbytes) (h : l.next lval = (false, t)) : l.end_ ≤ l.walk.pos t := by
  change l.end_ ≤ t.entry + t.entry_len
  rw [RdbListPack.next] at h
  dsimp only at h
  split at h
  · split at h
    · cases h
      dsimp only
      omega
    · obtain ⟨hout, rfl⟩ := Prod.mk.inj h
      exact Nat.le_of_lt (Nat.lt_of_not_le (of_decide_eq_false hout))
  · obtain ⟨hout, rfl⟩ := Prod.mk.inj h
    exact Nat.le_of_lt (Nat.lt_of_not_le (of_decide_eq_false hout))

/-- A call that finds an element finds its code in the list. -/
theorem next_inv (hl : l.end_ = l.lpbytes) (hpos : 0 < l.walk.pos lval) (h : (l.next lval).1 = true) :
    l.walk.pos lval < l.end_ ∧ lp_code (l.base.mem (l.walk.pos lval)) ≠ LP_END ∧ l.head (l.walk.pos lval) ≤ l.end_ := by
  obtain ⟨hcode, hnext, hle⟩ := next_some hl hpos (Prod.ext h rfl : l.next lval = (true, (l.next lval).2))
  have hback := lpback_size_pos (l.elem_size (l.walk.pos lval))
  refine ⟨by omega, hcode, Nat.le_trans (head_le_body l _) ?_⟩
  change l.walk.pos lval + l.elem_size _ ≤ _
  omega

theorem next_reads_eq (l : RdbListPack) (lval : RdbListValue) : l.next_reads lval =
    if l.walk.pos lval < l.end_ then
      if lp_code (l.base.mem (l.walk.pos lval)) = LP_END then [l.walk.pos lval]
      else if l.head (l.walk.pos lval) ≤ l.end_ then
        l.walk.pos lval :: (val_reads (lp_code (l.base.mem (l.walk.pos lval)))).map (l.walk.pos lval + ·)
      else [l.walk.pos lval]
    else [] := rfl

/-- The code is read to its end. -/
theorem reads_head {i n : Nat} : (∀ j ∈ i :: (val_reads (lp_code (l.base.mem i))).map (i + ·), j < n) ↔
    i < n ∧ l.head i ≤ n := by
  rw [List.forall_mem_cons, List.forall_mem_map]
  refine and_congr_right fun hi => ⟨fun h => ?_, fun h j hj => ?_⟩
  · change i + lp_size (lp_code (l.base.mem i)) ≤ n
    by_cases hsize : 1 < lp_size (lp_code (l.base.mem i))
    · have hlast := h _ (val_reads_last hsize)
      omega
    · omega
  · have hlt := val_reads_lt hj
    change i + lp_size (lp_code (l.base.mem i)) ≤ n at h
    omega

/-- The blob holds elements up to an end marker, or up to one that is seen there to reach up to the end that the
header announces or behind it. -/
inductive Closed (l : RdbListPack) (sz : Nat) : Nat → Prop
  | past {i : Nat} (hend : l.end_ ≤ i) : Closed l sz i
  | marker {i : Nat} (hi : i < sz) (hcode : lp_code (l.base.mem i) = LP_END) : Closed l sz i
  | code {i : Nat} (hi : i < sz) (hcode : lp_code (l.base.mem i) ≠ LP_END) (hend : l.end_ < l.head i) : Closed l sz i
  | text {i : Nat} (hi : i < sz) (hcode : lp_code (l.base.mem i) ≠ LP_END) (hhead : l.head i ≤ sz)
      (hend : l.end_ < l.tail i) :
      Closed l sz i
  | elem {i : Nat} (hi : i < sz) (hcode : lp_code (l.base.mem i) ≠ LP_END) (hbody : l.body i ≤ sz)
      (htail : l.tail i ≤ l.end_)
      (hrest : Closed l sz (l.tail i)) : Closed l sz i

/-- Past the end nothing is found. -/
theorem next_past (hl : l.end_ = l.lpbytes) (hend : 0 < l.end_) (h : l.end_ ≤ l.walk.pos lval) :
    (l.next lval).1 = false := by
  by_contra hfound
  have hlt := (next_inv hl (by omega) (Bool.not_eq_false _ ▸ hfound)).1
  omega

/-- Past the end nothing is read. -/
theorem throughout_past (hl : l.end_ = l.lpbytes) (hend : 0 < l.end_) (h : l.end_ ≤ l.walk.pos lval) :
    l.walk.Throughout (l.Within sz) lval := by
  refine @Walk.throughout_of_inv _ _ l.walk (l.Within sz) (fun s => l.end_ ≤ l.walk.pos s)
    (fun s hs => Nat.le_trans hs (l.le_next s)) (fun s hs => ⟨?_, fun t hnext => ?_, fun _ => next_congr⟩) lval h
  · rw [next_reads_eq, if_neg (Nat.not_lt.mpr hs)]
    exact nofun
  · have hpast := next_past hl hend hs
    rw [hnext] at hpast
    cases hpast

/-- Where a call finds nothing, it is the last that reads. -/
theorem throughout_last (hl : l.end_ = l.lpbytes) (hend : 0 < l.end_) (hreads : ∀ i ∈ l.next_reads lval, i < sz)
    (hlast : (l.next lval).1 = false) : l.walk.Throughout (l.Within sz) lval := by
  have hnext : l.walk.next lval = (false, (l.next lval).2) := Prod.ext hlast rfl
  refine (Walk.throughout_next hnext).mpr ⟨⟨hreads, fun t ht => ?_, fun _ => next_congr⟩,
    throughout_past hl hend (next_false hl hnext)⟩
  rw [ht] at hlast
  cases hlast

/-- A list that ends in the blob is read there. -/
theorem throughout_of_le (hl : l.end_ = l.lpbytes) (hsz : l.end_ ≤ sz) (hpos : 0 < l.walk.pos lval) :
    l.walk.Throughout (l.Within sz) lval := by
  refine @Walk.throughout_of_inv _ _ l.walk (l.Within sz) (fun s => 0 < l.walk.pos s)
    (fun s hs => Nat.lt_of_lt_of_le hs (l.le_next s))
    (fun s hs => ⟨fun i hi => ?_, fun t hnext => ?_, fun _ => next_congr⟩) lval hpos
  · rw [next_reads_eq] at hi
    split at hi
    · next hlt =>
      split at hi
      · obtain rfl := List.mem_singleton.mp hi
        omega
      · split at hi
        · next hhead => exact Nat.lt_of_lt_of_le (reads_head.mpr ⟨hlt, hhead⟩ i hi) hsz
        · obtain rfl := List.mem_singleton.mp hi
          omega
    · cases hi
  · obtain ⟨hlt, hcode, hhead⟩ := next_inv hl hs (congrArg Prod.fst hnext)
    obtain ⟨t', hat, -, hslice, -⟩ := next_at hlt hcode hhead
    obtain ⟨htail, rfl⟩ := Prod.mk.inj (hnext.symm.trans hat)
    have htail := of_decide_eq_true htail.symm
    exact (hslice sz).mpr fun _ => Nat.le_trans (body_le_tail l _) (Nat.le_trans htail hsz)

/-- A list that is longer than the bytes there are is walked inside of these if it is closed there: each element ends
in them, up to one that stops the walk. -/
theorem throughout_of_closed (hl : l.end_ = l.lpbytes) (hsz : sz < l.end_) (hpos : 0 < l.walk.pos lval)
    (h : l.Closed sz (l.walk.pos lval)) : l.walk.Throughout (l.Within sz) lval := by
  have hend : 0 < l.end_ := Nat.lt_of_le_of_lt (Nat.zero_le _) hsz
  generalize hi : l.walk.pos lval = i at h
  induction h generalizing lval with
  | past h =>
    subst hi
    exact throughout_past hl hend h
  | marker h hcode =>
    subst hi
    refine throughout_last hl hend ?_ ?_
    · rw [next_reads_eq, if_pos (Nat.lt_trans h hsz), if_pos hcode]
      exact List.forall_mem_singleton.mpr h
    · by_contra hfound
      exact (next_inv hl hpos (Bool.not_eq_false _ ▸ hfound)).2.1 hcode
  | code h hcode hhead =>
    subst hi
    refine throughout_last hl hend ?_ ?_
    · rw [next_reads_eq, if_pos (Nat.lt_trans h hsz), if_neg hcode, if_neg (Nat.not_le.mpr hhead)]
      exact List.forall_mem_singleton.mpr h
    · by_contra hfound
      exact Nat.not_le.mpr hhead (next_inv hl hpos (Bool.not_eq_false _ ▸ hfound)).2.2
  | text h hcode hhead htail =>
    subst hi
    have hhead' := Nat.le_trans hhead (Nat.le_of_lt hsz)
    refine throughout_last hl hend ?_ ?_
    · rw [next_reads_eq, if_pos (Nat.lt_trans h hsz), if_neg hcode, if_pos hhead']
      exact reads_head.mpr ⟨h, hhead⟩
    · obtain ⟨t, hat, -⟩ := next_at (Nat.lt_trans h hsz) hcode hhead'
      rw [hat]
      exact decide_eq_false (Nat.not_le.mpr htail)
  | elem h hcode hbody htail hrest ih =>
    subst hi
    have hhead := Nat.le_trans (head_le_body l _) hbody
    have hhead' := Nat.le_trans hhead (Nat.le_of_lt hsz)
    obtain ⟨t, hat, hnext, hslice, -⟩ := next_at (Nat.lt_trans h hsz) hcode hhead'
    rw [decide_eq_true htail] at hat
    have hle := l.le_next lval
    rw [hat] at hle
    refine (Walk.throughout_next hat).mpr ⟨⟨?_, fun t' ht' => ?_, fun _ => next_congr⟩,
      ih (Nat.lt_of_lt_of_le hpos hle) hnext⟩
    · rw [next_reads_eq, if_pos (Nat.lt_trans h hsz), if_neg hcode, if_pos hhead']
      exact reads_head.mpr ⟨h, hhead⟩
    · obtain rfl := (Prod.mk.inj (hat.symm.trans ht')).2
      exact (hslice sz).mpr fun _ => hbody

/-- And it is only then: the first element that does not end inside is the one that a call reads outside of. -/
theorem closed_of_throughout (h : l.walk.Throughout (l.Within sz) lval) : l.Closed sz (l.walk.pos lval) := by
  induction hn : l.end_ - l.walk.pos lval using Nat.strong_induction_on generalizing lval with | _ n ih
  subst hn
  by_cases hlt : l.walk.pos lval < l.end_
  swap
  · exact .past (Nat.le_of_not_lt hlt)
  have hreads := (h 0).reads
  change ∀ i ∈ l.next_reads lval, i < sz at hreads
  rw [next_reads_eq, if_pos hlt] at hreads
  by_cases hcode : lp_code (l.base.mem (l.walk.pos lval)) = LP_END
  · rw [if_pos hcode, List.forall_mem_singleton] at hreads
    exact .marker hreads hcode
  rw [if_neg hcode] at hreads
  by_cases hhead : l.head (l.walk.pos lval) ≤ l.end_
  swap
  · rw [if_neg hhead, List.forall_mem_singleton] at hreads
    exact .code hreads hcode (Nat.lt_of_not_le hhead)
  rw [if_pos hhead] at hreads
  obtain ⟨hi, hhead'⟩ := reads_head.mp hreads
  obtain ⟨t, hat, hnext, hslice, -⟩ := next_at hlt hcode hhead
  by_cases htail : l.tail (l.walk.pos lval) ≤ l.end_
  swap
  · exact .text hi hcode hhead' (Nat.lt_of_not_le htail)
  rw [decide_eq_true htail] at hat
  have hbody : l.body (l.walk.pos lval) ≤ sz := by
    cases himm : is_immed (lp_code (l.base.mem (l.walk.pos lval))) with
    | true =>
      rw [body, elem_size, if_pos himm]
      exact hhead'
    | false => exact (hslice sz).mp ((h 0).slice t hat) himm
  refine .elem hi hcode hbody htail ?_
  have hfar : l.walk.pos lval < l.walk.pos t := by
    rw [hnext]
    exact Nat.lt_of_le_of_lt (Nat.le_add_right _ _) (Nat.lt_add_of_pos_right (lpback_size_pos _))
  rw [← hnext] at htail ⊢
  exact ih _ (by omega) ((Walk.throughout_next hat).mp h).2 rfl

/-- What `init` has checked. -/
theorem init_checked {b : Ptr} (h : RdbListPack.init b sz = some l) : 6 ≤ sz ∧ 7 ≤ l.lpbytes := by
  unfold RdbListPack.init at h
  split at h
  · cases h
  · dsimp only at h
    split at h
    · cases h
    · obtain rfl := Option.some.inj h
      exact ⟨by omega, by dsimp only; omega⟩

theorem init_reads_lt {i : Nat} (h : i ∈ init_reads sz) : i < sz := by
  rw [init_reads] at h
  split at h
  · cases h
  · have hi := List.mem_range.mp h
    omega

/-- A list pack is read in its blob if it ends there, or if there are elements in the blob that end the walk. -/
theorem inside_iff (b : Ptr) (sz : Nat) :
    Inside b sz ↔ ∀ l, RdbListPack.init b sz = some l → l.lpbytes ≤ sz ∨ l.Closed sz l.data := by
  refine Iff.trans ⟨Inside.walk, fun h => ⟨fun i hi => init_reads_lt hi, fun _ => init_congr, h⟩⟩
    (forall_congr' fun l => imp_congr_right fun hinit => ?_)
  obtain ⟨-, hdata, hl, -⟩ := init_some hinit
  obtain ⟨hsz, hend⟩ := init_checked hinit
  have hpos : 0 < l.walk.pos l.start := by
    change 0 < l.data + 0
    omega
  by_cases hle : l.lpbytes ≤ sz
  · exact iff_of_true (throughout_of_le hl (by omega) hpos) (.inl hle)
  · rw [or_iff_right hle]
    exact ⟨fun h => closed_of_throughout h, fun h => throughout_of_closed hl (by omega) hpos h⟩

/-- Elements without a code that is used, of a byte each. -/
theorem unused_at {i : Nat} (hunused : ∀ i, 4 ≤ i → l.base.mem i = 0xf5) (hi : 4 ≤ i) :
    lp_code (l.base.mem i) ≠ LP_END ∧ l.head i = i ∧ l.tail i = i + 1 := by
  have hcode : lp_code (l.base.mem i) = LP_UNUSED := by
    rw [hunused i hi]
    decide
  have hsize : l.elem_size i = 0 := by
    rw [elem_size, hcode]
    rfl
  refine ⟨?_, ?_, ?_⟩
  · rw [hcode]
    decide
  · rw [head, hcode]
    rfl
  · rw [tail, body, hsize]
    rfl

/-- A list of unused opcodes is not closed: each is an element of its own, and none stops the walk. -/
theorem not_closed_unused (hsz : sz < l.end_) (hunused : ∀ i, 4 ≤ i → l.base.mem i = 0xf5) {i : Nat}
    (hi : 4 ≤ i) (hle : i ≤ sz) :
    ¬ l.Closed sz i := by
  intro h
  induction h with
  | past hend => omega
  | marker _ hcode => exact (unused_at hunused hi).1 hcode
  | code hlt _ hend =>
    obtain ⟨-, hhead, -⟩ := unused_at hunused hi
    omega
  | text hlt _ _ hend =>
    obtain ⟨-, -, htail⟩ := unused_at hunused hi
    omega
  | elem hlt _ _ _ _ ih =>
    obtain ⟨-, -, htail⟩ := unused_at hunused hi
    exact ih (by omega) (by omega)

/-- Blobs of that size with that header are read inside, whatever else they hold, only if the list ends there. -/
theorem all_inside_iff (sz n : Nat) (hn : n < 2 ^ 32) :
    (∀ b : Ptr, le_nat (b.mem.take 4) = n → Inside b sz) ↔ sz < 6 ∨ n < 7 ∨ n ≤ sz := by
  constructor
  · intro h
    by_contra hno
    rw [not_or, not_or] at hno
    obtain ⟨hsz, hmin, hlt⟩ := hno
    have hcount : le_nat ((⟨.lit, Mem.ofList (le_bytes 4 n) fun _ => 0xf5⟩ : Ptr).mem.take 4) = n := by
      have hstarts := (Mem.ofList_starts (le_bytes 4 n) fun _ => 0xf5).take
      rw [le_bytes_length] at hstarts
      change le_nat ((Mem.ofList (le_bytes 4 n) fun _ => 0xf5).take 4) = n
      rw [hstarts, le_nat_le_bytes]
      exact Nat.mod_eq_of_lt hn
    obtain ⟨l, hinit⟩ : ∃ l, RdbListPack.init ⟨.lit, Mem.ofList (le_bytes 4 n) fun _ => 0xf5⟩ sz = some l := by
      rw [RdbListPack.init, if_neg hsz, hcount]
      exact ⟨_, if_neg hmin⟩
    obtain ⟨hbase, hdata, hend, hlp, -⟩ := init_some hinit
    rcases (inside_iff _ sz).mp (h _ hcount) l hinit with hle | hclosed
    · omega
    · refine not_closed_unused (by omega) (fun i hi => ?_) (by omega) (by omega) hclosed
      rw [hbase]
      change Mem.ofList (le_bytes 4 n) (fun _ => 0xf5) i = 0xf5
      rw [Mem.ofList_behind]
      rw [le_bytes_length]
      exact hi
  · intro h b hb
    refine (inside_iff b sz).mpr fun l hinit => .inl ?_
    obtain ⟨hsz, hend⟩ := init_checked hinit
    obtain ⟨-, -, -, hcount, -⟩ := init_some hinit
    omega

end rdbparser.RdbListPack
