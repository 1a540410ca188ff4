import Rdbparser.Walk.Calls
import Rdbparser.ZipList.Codes

/-! Which bytes of a zip list are read. -/

namespace rdbparser.RdbZipList

open ZipLinkEnc

variable {z : RdbZipList} {lval t : RdbListValue} {sz : Nat}

/-- What `init` reads of a blob. -/
def init_reads (sz : Nat) : List Nat := if sz < 10 then [] else List.range 10

/-- What `zlink_val` reads, from the code on. -/
def val_reads : ZipLinkEnc → List Nat
  | ZIP_END => []
  | LEN_32 | BIG_32 | IMMED_32 => [1, 2, 3, 4]
  | LEN_8 | LEN_6 | IMMED_4 => [0]
  | BIG_14 => [0, 1]
  | IMMED_16 => [1, 2]
  | IMMED_64 => [1, 2, 3, 4, 5, 6, 7, 8]
  | IMMED_24 => [1, 2, 3]
  | IMMED_8 => [1]

/-- What `next` reads once the previous length is skipped. -/
def entry_reads (z : RdbZipList) (entry : Nat) : List Nat :=
  if entry < z.end_ then
    let n := zlink_next (z.base.mem entry)
    if entry + zlink_size n ≤ z.end_ then entry :: (val_reads n).map (entry + ·) else [entry]
  else []

/-- What `next` reads. -/
def next_reads (z : RdbZipList) (lval : RdbListValue) : List Nat :=
  let entry := lval.entry + lval.entry_len
  if entry < z.end_ then
    let p := zlink_prev (z.base.mem entry)
    if p = ZIP_END then [entry] else entry :: z.entry_reads (entry + zlink_size p)
  else []

/-- A call of `next` reads within a blob of `sz` bytes, and so do those who are handed a slice by it. That it
reads no other bytes is said by what it finds where these are the same. -/
structure Within (z : RdbZipList) (sz : Nat) (lval : RdbListValue) : Prop where
  reads : ∀ i ∈ z.next_reads lval, i < sz
  slice : ∀ t, z.next lval = (true, t) → ∀ i, t.data = some i → i + t.data_len ≤ sz
  alone : ∀ b : Ptr, (∀ i ∈ z.next_reads lval, b.mem i = z.base.mem i) →
    RdbZipList.next { z with base := b } lval = z.next lval

/-- `init` reads within a blob, and nothing else, and so does a walk over it. -/
structure Inside (b : Ptr) (sz : Nat) : Prop where
  init : ∀ i ∈ init_reads sz, i < sz
  alone : ∀ c : Ptr, (∀ i ∈ init_reads sz, c.mem i = b.mem i) →
    RdbZipList.init c sz = (RdbZipList.init b sz).map fun z => { z with base := c }
  walk : ∀ z, RdbZipList.init b sz = some z → z.walk.Throughout (z.Within sz) z.start

/-- Bytes elsewhere do not matter to what `init` finds. -/
theorem init_congr {b c : Ptr} (h : ∀ i ∈ init_reads sz, c.mem i = b.mem i) :
    RdbZipList.init c sz = (RdbZipList.init b sz).map fun z => { z with base := c } := by
  unfold init_reads at h
  unfold RdbZipList.init
  by_cases hsz : sz < 10
  · rw [if_pos hsz, if_pos hsz]
    rfl
  · rw [if_neg hsz] at h
    have hall : ∀ off n, off + n ≤ 10 → (c.mem.add off).take n = (b.mem.add off).take n := fun off n hle =>
      Mem.take_congr fun i hi => h (off + i) (List.mem_range.mpr (by omega))
    have hsize : c.mem.take 4 = b.mem.take 4 := Mem.take_congr fun i hi => h i (List.mem_range.mpr (by omega))
    rw [if_neg hsz, if_neg hsz, hsize, hall 4 4 (by decide), hall 8 2 (by decide)]
    dsimp only
    split <;> rfl

theorem zlink_val_congr {e : ZipLinkEnc} {p q : Mem} (h : ∀ i ∈ val_reads e, q i = p i) :
    zlink_val e q = zlink_val e p := by
  cases e with
  | ZIP_END => rfl
  | LEN_32 | BIG_32 | LEN_8 | LEN_6 | BIG_14 | IMMED_16 | IMMED_32 | IMMED_64 | IMMED_24 | IMMED_8 | IMMED_4 =>
    simp only [val_reads, List.mem_cons, List.not_mem_nil, or_false, forall_eq_or_imp, forall_eq] at h
    simp [zlink_val, l32, b32, s8, s16, s24, s32, s64, Mem.take, Mem.add, List.range_succ, h]

/-- What is found of an entry depends on the bytes of its head alone. -/
theorem entry_at_congr {b : Ptr} (h : ∀ i ∈ z.entry_reads lval.entry, b.mem i = z.base.mem i) :
    RdbZipList.entry_at { z with base := b } lval = z.entry_at lval := by
  unfold entry_reads at h
  unfold entry_at
  dsimp only at h ⊢
  by_cases hlt : lval.entry < z.end_
  · rw [if_pos hlt] at h
    rw [if_pos hlt, if_pos hlt]
    have hcode : b.mem lval.entry = z.base.mem lval.entry := by
      apply h
      split <;> exact List.mem_cons_self
    rw [hcode]
    by_cases hle : lval.entry + zlink_size (zlink_next (z.base.mem lval.entry)) ≤ z.end_
    · rw [if_pos hle] at h
      have hval : zlink_val (zlink_next (z.base.mem lval.entry)) (b.mem.add lval.entry) =
          zlink_val (zlink_next (z.base.mem lval.entry)) (z.base.mem.add lval.entry) :=
        zlink_val_congr fun i hi => h _ (List.mem_cons_of_mem _ (List.mem_map_of_mem hi))
      rw [if_pos hle, if_pos hle, hval]
    · rw [if_neg hle, if_neg hle]
  · rw [if_neg hlt, if_neg hlt]

/-- Bytes elsewhere do not matter to what `next` finds. -/
theorem next_congr {b : Ptr} (h : ∀ i ∈ z.next_reads lval, b.mem i = z.base.mem i) :
    RdbZipList.next { z with base := b } lval = z.next lval := by
  unfold next_reads at h
  unfold next
  dsimp only at h ⊢
  by_cases hlt : lval.entry + lval.entry_len < z.end_
  · rw [if_pos hlt] at h
    rw [if_pos hlt, if_pos hlt]
    have hlink : b.mem (lval.entry + lval.entry_len) = z.base.mem (lval.entry + lval.entry_len) := by
      apply h
      split <;> exact List.mem_cons_self
    rw [hlink]
    split
    · rfl
    · next hprev =>
      rw [if_neg hprev] at h
      rw [entry_at_congr fun i hi => h i (List.mem_cons_of_mem _ hi)]
  · rw [if_neg hlt, if_neg hlt]

/-- Where the link to the entry before ends. -/
def link (z : RdbZipList) (i : Nat) : Nat := i + zlink_size (zlink_prev (z.base.mem i))

def code_at (z : RdbZipList) (i : Nat) : ZipLinkEnc := zlink_next (z.base.mem (z.link i))

/-- Where the code ends. -/
def head (z : RdbZipList) (i : Nat) : Nat := z.link i + zlink_size (z.code_at i)

/-- Where the entry ends. -/
def tail (z : RdbZipList) (i : Nat) : Nat :=
  z.head i + if is_immed (z.code_at i) then 0 else zlink_val (z.code_at i) (z.base.mem.add (z.link i))

/-- The last byte of a code is read. -/
theorem val_reads_last {e : ZipLinkEnc} (h : 1 < zlink_size e) : zlink_size e - 1 ∈ val_reads e := by
  revert h
  cases e <;> decide

theorem val_reads_lt {e : ZipLinkEnc} {i : Nat} (h : i ∈ val_reads e) : i < zlink_size e := by
  have hall : ∀ i ∈ val_reads e, i < zlink_size e := by cases e <;> decide
  exact hall i h

/-- A call that finds nothing goes past the end. -/
theorem next_false (hz : z.end_ = z.zlbytes) (h : z.next lval = (false, t)) : z.end_ ≤ z.walk.pos t := by
  change z.end_ ≤ t.entry + t.entry_len
  rw [RdbZipList.next] at h
  dsimp only at h
  split at h
  · split at h
    · cases h
      dsimp only
      omega
    · obtain ⟨hout, rfl⟩ := Prod.mk.inj h
      exact Nat.le_of_lt (Nat.lt_of_not_le (of_decide_eq_false hout))
  · obtain ⟨hout, rfl⟩ := Prod.mk.inj h
    exact Nat.le_of_lt (Nat.lt_of_not_le (of_decide_eq_false hout))

/-- A call that finds an entry finds it behind a link, and its code in the list. -/
theorem next_inv (hz : z.end_ = z.zlbytes) (hend : 0 < z.end_) (h : (z.next lval).1 = true) :
    z.walk.pos lval < z.end_ ∧ zlink_prev (z.base.mem (z.walk.pos lval)) ≠ ZIP_END ∧ z.link (z.walk.pos lval) < z.end_ ∧
      z.head (z.walk.pos lval) ≤ z.end_ := by
  have hpos : lval.entry + lval.entry_len = z.walk.pos lval := rfl
  rw [RdbZipList.next, hpos] at h
  dsimp only at h
  split at h
  · next hlt =>
    split at h
    · cases h
    · next hprev =>
      have hsize := zlink_size_prev hprev
      have hin := of_decide_eq_true h
      change (z.entry_at ⟨none, z.link _, 0, _, 0⟩).entry + (z.entry_at ⟨none, z.link _, 0, _, 0⟩).entry_len ≤ _ at hin
      rw [entry_at_entry] at hin
      have hlink : 0 < z.link (z.walk.pos lval) := by
        change 0 < z.walk.pos lval + _
        omega
      refine ⟨hlt, hprev, ?_⟩
      rw [entry_at] at hin
      split at hin
      · next hin' =>
        dsimp only at hin
        split at hin
        · next hhead => exact ⟨hin', hhead⟩
        · dsimp only at hin
          omega
      · dsimp only at hin
        omega
  · have hin := of_decide_eq_true h
    omega

/-- Where the opcode of an entry lies inside and is taken, the length of the entry and the slice of it that is handed
out. -/
theorem entry_at_found (hlt : lval.entry < z.end_)
    (hhead : lval.entry + zlink_size (zlink_next (z.base.mem lval.entry)) ≤ z.end_)
    (hdata : lval.data = none) :
    (z.entry_at lval).entry_len = zlink_size (zlink_next (z.base.mem lval.entry)) +
        (if is_immed (zlink_next (z.base.mem lval.entry)) then 0
        else zlink_val (zlink_next (z.base.mem lval.entry)) (z.base.mem.add lval.entry)) ∧
      (∀ n, (∀ i, (z.entry_at lval).data = some i → i + (z.entry_at lval).data_len ≤ n) ↔
        (is_immed (zlink_next (z.base.mem lval.entry)) = false →
          lval.entry + zlink_size (zlink_next (z.base.mem lval.entry)) +
            zlink_val (zlink_next (z.base.mem lval.entry)) (z.base.mem.add lval.entry) ≤ n)) ∧
      ∀ i, (z.entry_at lval).data = some i → lval.entry ≤ i := by
  rw [entry_at, if_pos hlt]
  dsimp only
  rw [if_pos hhead]
  cases himm : is_immed (zlink_next (z.base.mem lval.entry)) with
  | true =>
    have hnone : ∀ i, ¬ lval.data = some i := fun i hi => by
      rw [hdata] at hi
      cases hi
    exact ⟨rfl, fun n => ⟨fun _ h => Bool.noConfusion h, fun _ i hi => absurd hi (hnone i)⟩,
      fun i hi => absurd hi (hnone i)⟩
  | false =>
    refine ⟨rfl, fun n => ⟨fun h _ => h _ rfl, fun h i hi => ?_⟩, fun i hi => ?_⟩
    · obtain rfl := Option.some.inj hi
      exact h rfl
    · obtain rfl := Option.some.inj hi
      exact Nat.le_add_right _ _

/-- What is found behind a link, if its code is in the list. -/
theorem next_at (hlt : z.walk.pos lval < z.end_) (hprev : zlink_prev (z.base.mem (z.walk.pos lval)) ≠ ZIP_END)
    (hlink : z.link (z.walk.pos lval) < z.end_) (hhead : z.head (z.walk.pos lval) ≤ z.end_) :
    ∃ t, z.next lval = (decide (z.tail (z.walk.pos lval) ≤ z.end_), t) ∧ z.walk.pos t = z.tail (z.walk.pos lval) ∧
      (∀ n, (∀ i, t.data = some i → i + t.data_len ≤ n) ↔
        (is_immed (z.code_at (z.walk.pos lval)) = false → z.tail (z.walk.pos lval) ≤ n)) ∧
      ∀ i, t.data = some i → z.walk.pos lval ≤ i := by
  obtain ⟨hlen, hslice, hdata⟩ := @entry_at_found z ⟨none, z.link (z.walk.pos lval), 0, z.zlbytes, 0⟩ hlink hhead rfl
  have hpos : lval.entry + lval.entry_len = z.walk.pos lval := rfl
  have htail : (z.entry_at ⟨none, z.link (z.walk.pos lval), 0, z.zlbytes, 0⟩).entry +
      (z.entry_at ⟨none, z.link (z.walk.pos lval), 0, z.zlbytes, 0⟩).entry_len = z.tail (z.walk.pos lval) := by
    rw [entry_at_entry, hlen, ← Nat.add_assoc]
    rfl
  refine ⟨z.entry_at ⟨none, z.link (z.walk.pos lval), 0, z.zlbytes, 0⟩, ?_, htail, fun n => (hslice n).trans ?_,
    fun i hi => Nat.le_trans (Nat.le_add_right _ _) (hdata i hi)⟩
  · rw [RdbZipList.next, hpos]
    dsimp only
    rw [if_pos hlt, if_neg hprev]
    refine Prod.ext (decide_eq_decide.mpr ?_) rfl
    rw [← htail]
    rfl
  · rw [tail]
    refine forall_congr' fun himm => ?_
    change is_immed (z.code_at _) = false at himm
    rw [if_neg (Bool.eq_false_iff.mp himm)]
    rfl

/-- The blob holds entries up to an end marker, or up to one that is seen there to reach behind the end that the
header announces. -/
inductive Closed (z : RdbZipList) (sz : Nat) : Nat → Prop
  | marker {i : Nat} (hi : i < sz) (hprev : zlink_prev (z.base.mem i) = ZIP_END) : Closed z sz i
  | link {i : Nat} (hi : i < sz) (hprev : zlink_prev (z.base.mem i) ≠ ZIP_END)
      (hend : z.end_ ≤ z.link i) : Closed z sz i
  | code {i : Nat} (hlink : z.link i < sz) (hprev : zlink_prev (z.base.mem i) ≠ ZIP_END)
      (hend : z.end_ < z.head i) : Closed z sz i
  | text {i : Nat} (hlink : z.link i < sz) (hprev : zlink_prev (z.base.mem i) ≠ ZIP_END) (hhead : z.head i ≤ sz)
      (hend : z.end_ < z.tail i) : Closed z sz i
  | entry {i : Nat} (hlink : z.link i < sz) (hprev : zlink_prev (z.base.mem i) ≠ ZIP_END) (htail : z.tail i ≤ sz)
      (hrest : Closed z sz (z.tail i)) : Closed z sz i

/-- The bytes that a call reads, by how far it gets. -/
theorem next_reads_eq (z : RdbZipList) (lval : RdbListValue) : z.next_reads lval =
    if z.walk.pos lval < z.end_ then
      if zlink_prev (z.base.mem (z.walk.pos lval)) = ZIP_END then [z.walk.pos lval]
      else z.walk.pos lval :: if z.link (z.walk.pos lval) < z.end_ then
        if z.head (z.walk.pos lval) ≤ z.end_ then
          z.link (z.walk.pos lval) :: (val_reads (z.code_at (z.walk.pos lval))).map (z.link (z.walk.pos lval) + ·)
        else [z.link (z.walk.pos lval)]
      else []
    else [] := rfl

/-- The code is read to its end. -/
theorem reads_head {i n : Nat} : (∀ j ∈ z.link i :: (val_reads (z.code_at i)).map (z.link i + ·), j < n) ↔
    z.link i < n ∧ z.head i ≤ n := by
  rw [List.forall_mem_cons, List.forall_mem_map]
  refine and_congr_right fun hlink => ⟨fun h => ?_, fun h j hj => ?_⟩
  · change z.link i + zlink_size (z.code_at i) ≤ n
    by_cases hsize : 1 < zlink_size (z.code_at i)
    · have hlast := h _ (val_reads_last hsize)
      omega
    · omega
  · have hlt := val_reads_lt hj
    change z.link i + zlink_size (z.code_at i) ≤ n at h
    omega

theorem head_le_tail (z : RdbZipList) (i : Nat) : z.head i ≤ z.tail i := Nat.le_add_right _ _

theorem le_link (z : RdbZipList) (i : Nat) : i ≤ z.link i := Nat.le_add_right _ _

theorem link_le_head (z : RdbZipList) (i : Nat) : z.link i ≤ z.head i := Nat.le_add_right _ _

/-- Past the end nothing is found. -/
theorem next_past (hz : z.end_ = z.zlbytes) (hend : 0 < z.end_) (h : z.end_ ≤ z.walk.pos lval) :
    (z.next lval).1 = false := by
  by_contra hfound
  have hlt := (next_inv hz hend (Bool.not_eq_false _ ▸ hfound)).1
  omega

/-- Past the end nothing is read. -/
theorem throughout_past (hz : z.end_ = z.zlbytes) (hend : 0 < z.end_) (h : z.end_ ≤ z.walk.pos lval) :
    z.walk.Throughout (z.Within sz) lval := by
  refine @Walk.throughout_of_inv _ _ z.walk (z.Within sz) (fun s => z.end_ ≤ z.walk.pos s) 
    (fun s hs => next_false hz (Prod.ext (next_past hz hend hs) rfl))
    (fun s hs => ⟨?_, fun t hnext => ?_, fun _ => next_congr⟩) lval h
  · rw [next_reads_eq, if_neg (Nat.not_lt.mpr hs)]
    exact nofun
  · have hpast := next_past hz hend hs
    rw [hnext] at hpast
    cases hpast

/-- Where a call finds nothing, it is the last that reads. -/
theorem throughout_last (hz : z.end_ = z.zlbytes) (hend : 0 < z.end_) (hreads : ∀ i ∈ z.next_reads lval, i < sz)
    (hlast : (z.next lval).1 = false) : z.walk.Throughout (z.Within sz) lval := by
  have hnext : z.walk.next lval = (false, (z.next lval).2) := Prod.ext hlast rfl
  refine (Walk.throughout_next hnext).mpr ⟨⟨hreads, fun t ht => ?_, fun _ => next_congr⟩,
    throughout_past hz hend (next_false hz hnext)⟩
  rw [ht] at hlast
  cases hlast

/-- A list that ends in the blob is read there. -/
theorem within_of_le (hz : z.end_ = z.zlbytes) (hend : 0 < z.end_) (hsz : z.end_ ≤ sz) (lval : RdbListValue) :
    z.Within sz lval := by
  refine ⟨?_, ?_, fun _ => next_congr⟩
  · intro i hi
    rw [next_reads_eq] at hi
    split at hi
    · next hlt =>
      split at hi
      · obtain rfl := List.mem_singleton.mp hi
        omega
      · rcases List.mem_cons.mp hi with rfl | hi
        · omega
        · split at hi
          · next hlink =>
            split at hi
            · next hhead => exact Nat.lt_of_lt_of_le (reads_head.mpr ⟨hlink, hhead⟩ i hi) hsz
            · obtain rfl := List.mem_singleton.mp hi
              omega
          · cases hi
    · cases hi
  · intro t hnext
    obtain ⟨hlt, hprev, hlink, hhead⟩ := next_inv hz hend (congrArg Prod.fst hnext)
    obtain ⟨t', hat, -, hslice, -⟩ := next_at hlt hprev hlink hhead
    obtain ⟨htail, rfl⟩ := Prod.mk.inj (hnext.symm.trans hat)
    have htail := of_decide_eq_true htail.symm
    exact (hslice sz).mpr fun _ => Nat.le_trans htail hsz

/-- A list that is longer than the bytes there are is walked inside of these if it is closed there: each entry ends in
them, up to one that stops the walk. -/
theorem throughout_of_closed (hz : z.end_ = z.zlbytes) (hsz : sz < z.end_)
    (h : z.Closed sz (z.walk.pos lval)) : z.walk.Throughout (z.Within sz) lval := by
  have hend : 0 < z.end_ := Nat.lt_of_le_of_lt (Nat.zero_le _) hsz
  generalize hi : z.walk.pos lval = i at h
  induction h generalizing lval with
  | marker h hprev =>
    subst hi
    refine throughout_last hz hend ?_ ?_
    · rw [next_reads_eq, if_pos (Nat.lt_trans h hsz), if_pos hprev]
      exact List.forall_mem_singleton.mpr h
    · by_contra hfound
      exact (next_inv hz hend (Bool.not_eq_false _ ▸ hfound)).2.1 hprev
  | link h hprev hlink =>
    subst hi
    refine throughout_last hz hend ?_ ?_
    · rw [next_reads_eq, if_pos (Nat.lt_trans h hsz), if_neg hprev, if_neg (Nat.not_lt.mpr hlink)]
      exact List.forall_mem_singleton.mpr h
    · by_contra hfound
      exact Nat.not_lt.mpr hlink (next_inv hz hend (Bool.not_eq_false _ ▸ hfound)).2.2.1
  | code h hprev hhead =>
    subst hi
    have hpos := Nat.lt_of_le_of_lt (le_link z _) h
    refine throughout_last hz hend ?_ ?_
    · rw [next_reads_eq, if_pos (Nat.lt_trans hpos hsz), if_neg hprev, if_pos (Nat.lt_trans h hsz),
        if_neg (Nat.not_le.mpr hhead)]
      exact List.forall_mem_cons.mpr ⟨hpos, List.forall_mem_singleton.mpr h⟩
    · by_contra hfound
      exact Nat.not_le.mpr hhead (next_inv hz hend (Bool.not_eq_false _ ▸ hfound)).2.2.2
  | text h hprev hhead htail =>
    subst hi
    have hpos := Nat.lt_of_le_of_lt (le_link z _) h
    have hhead' := Nat.le_trans hhead (Nat.le_of_lt hsz)
    refine throughout_last hz hend ?_ ?_
    · rw [next_reads_eq, if_pos (Nat.lt_trans hpos hsz), if_neg hprev, if_pos (Nat.lt_trans h hsz), if_pos hhead']
      exact List.forall_mem_cons.mpr ⟨hpos, reads_head.mpr ⟨h, hhead⟩⟩
    · obtain ⟨t, hat, -⟩ := next_at (Nat.lt_trans hpos hsz) hprev (Nat.lt_trans h hsz) hhead'
      rw [hat]
      exact decide_eq_false (Nat.not_le.mpr htail)
  | entry h hprev htail hrest ih =>
    subst hi
    have hpos := Nat.lt_of_le_of_lt (le_link z _) h
    have hhead := Nat.le_trans (head_le_tail z _) htail
    have hhead' := Nat.le_trans hhead (Nat.le_of_lt hsz)
    have htail' := Nat.le_trans htail (Nat.le_of_lt hsz)
    obtain ⟨t, hat, hnext, hslice, -⟩ := next_at (Nat.lt_trans hpos hsz) hprev (Nat.lt_trans h hsz) hhead'
    rw [decide_eq_true htail'] at hat
    refine (Walk.throughout_next hat).mpr ⟨⟨?_, fun t' ht' => ?_, fun _ => next_congr⟩, ih hnext⟩
    · rw [next_reads_eq, if_pos (Nat.lt_trans hpos hsz), if_neg hprev, if_pos (Nat.lt_trans h hsz), if_pos hhead']
      exact List.forall_mem_cons.mpr ⟨hpos, reads_head.mpr ⟨h, hhead⟩⟩
    · obtain rfl := (Prod.mk.inj (hat.symm.trans ht')).2
      exact (hslice sz).mpr fun _ => htail

/-- And it is only then: the first entry that does not end inside is the one that a call reads outside of. -/
theorem closed_of_throughout (hsz : sz < z.end_) (hle : z.walk.pos lval ≤ sz)
    (h : z.walk.Throughout (z.Within sz) lval) : z.Closed sz (z.walk.pos lval) := by
  induction hn : sz - z.walk.pos lval using Nat.strong_induction_on generalizing lval with | _ n ih
  subst hn
  have hlt := Nat.lt_of_le_of_lt hle hsz
  have hreads := (h 0).reads
  change ∀ i ∈ z.next_reads lval, i < sz at hreads
  rw [next_reads_eq, if_pos hlt] at hreads
  by_cases hprev : zlink_prev (z.base.mem (z.walk.pos lval)) = ZIP_END
  · rw [if_pos hprev, List.forall_mem_singleton] at hreads
    exact .marker hreads hprev
  rw [if_neg hprev, List.forall_mem_cons] at hreads
  obtain ⟨hpos, hreads⟩ := hreads
  by_cases hlink : z.link (z.walk.pos lval) < z.end_
  swap
  · exact .link hpos hprev (Nat.le_of_not_lt hlink)
  rw [if_pos hlink] at hreads
  by_cases hhead : z.head (z.walk.pos lval) ≤ z.end_
  swap
  · rw [if_neg hhead, List.forall_mem_singleton] at hreads
    exact .code hreads hprev (Nat.lt_of_not_le hhead)
  rw [if_pos hhead] at hreads
  obtain ⟨hlink', hhead'⟩ := reads_head.mp hreads
  obtain ⟨t, hat, hnext, hslice, -⟩ := next_at hlt hprev hlink hhead
  by_cases htail : z.tail (z.walk.pos lval) ≤ z.end_
  swap
  · exact .text hlink' hprev hhead' (Nat.lt_of_not_le htail)
  rw [decide_eq_true htail] at hat
  have htail' : z.tail (z.walk.pos lval) ≤ sz := by
    cases himm : is_immed (z.code_at (z.walk.pos lval)) with
    | true =>
      rw [tail, if_pos himm]
      exact hhead'
    | false => exact (hslice sz).mp ((h 0).slice t hat) himm
  have hrest := ((Walk.throughout_next hat).mp h).2
  have hsize := zlink_size_prev hprev
  have hfar : z.walk.pos lval < z.walk.pos t := by
    rw [hnext]
    exact Nat.lt_of_lt_of_le (Nat.lt_add_of_pos_right hsize) (Nat.le_trans (link_le_head z _) (head_le_tail z _))
  refine .entry hlink' hprev htail' ?_
  rw [← hnext] at htail' ⊢
  exact ih _ (by omega) htail' hrest rfl

/-- What `init` has checked. -/
theorem init_checked {b : Ptr} (h : RdbZipList.init b sz = some z) :
    10 ≤ sz ∧ 11 ≤ z.zlbytes ∧ z.zlbytes = le_nat (b.mem.take 4) := by
  unfold RdbZipList.init at h
  split at h
  · cases h
  · dsimp only at h
    split at h
    · cases h
    · obtain rfl := Option.some.inj h
      exact ⟨by omega, by dsimp only; omega, rfl⟩

theorem init_reads_lt {i : Nat} (h : i ∈ init_reads sz) : i < sz := by
  rw [init_reads] at h
  split at h
  · cases h
  · have hi := List.mem_range.mp h
    omega

/-- A zip list is read in its blob if it ends there, or if there are entries in the blob that end the walk. -/
theorem inside_iff (b : Ptr) (sz : Nat) :
    Inside b sz ↔ ∀ z, RdbZipList.init b sz = some z → z.zlbytes ≤ sz ∨ z.Closed sz z.data := by
  refine Iff.trans ⟨Inside.walk, fun h => ⟨fun i hi => init_reads_lt hi, fun _ => init_congr, h⟩⟩
    (forall_congr' fun z => imp_congr_right fun hinit => ?_)
  obtain ⟨-, hdata, hz⟩ := init_some hinit
  obtain ⟨hsz, hend, -⟩ := init_checked hinit
  by_cases hle : z.zlbytes ≤ sz
  · exact iff_of_true (Walk.throughout_of_forall (within_of_le hz (by omega) (by omega)) _) (.inl hle)
  · rw [or_iff_right hle]
    refine ⟨fun h => ?_, fun h => throughout_of_closed hz (by omega) h⟩
    refine closed_of_throughout (by omega) ?_ h
    change z.data + 0 ≤ sz
    omega

/-- Entries of two zeros each. -/
theorem zeros_at {i : Nat} (hzero : ∀ i, 4 ≤ i → z.base.mem i = 0) (hi : 4 ≤ i) :
    zlink_prev (z.base.mem i) ≠ ZIP_END ∧ z.link i = i + 1 ∧ z.head i = i + 2 ∧ z.tail i = i + 2 := by
  have hlink : z.link i = i + 1 := by
    rw [link, hzero i hi]
    rfl
  have hcode : z.code_at i = LEN_6 := by
    rw [code_at, hlink, hzero _ (by omega)]
    decide
  have hhead : z.head i = i + 2 := by
    rw [head, hcode, hlink]
    rfl
  refine ⟨?_, hlink, hhead, ?_⟩
  · rw [hzero i hi]
    decide
  · rw [tail, hhead, hcode, hlink]
    change i + 2 + ((z.base.mem (i + 1)).toNat &&& 0x3f) = i + 2
    rw [hzero _ (by omega)]
    rfl

/-- A list of zeros is not closed: they are empty entries, of which none stops the walk. -/
theorem not_closed_zeros (hsz : sz < z.end_) (hzero : ∀ i, 4 ≤ i → z.base.mem i = 0) {i : Nat} (hi : 4 ≤ i) :
    ¬ z.Closed sz i := by
  intro h
  induction h with
  | marker _ hprev => exact (zeros_at hzero hi).1 hprev
  | link hlt _ hend =>
    obtain ⟨-, hlink, -⟩ := zeros_at hzero hi
    omega
  | code hlt _ hend =>
    obtain ⟨-, hlink, hhead, -⟩ := zeros_at hzero hi
    omega
  | text _ _ hhead' hend =>
    obtain ⟨-, -, hhead, htail⟩ := zeros_at hzero hi
    omega
  | entry _ _ _ _ ih =>
    refine ih ?_
    rw [(zeros_at hzero hi).2.2.2]
    omega

/-- Blobs of that size with that header are read inside, whatever else they hold, only if the list ends there. -/
theorem all_inside_iff (sz n : Nat) (hn : n < 2 ^ 32) :
    (∀ b : Ptr, le_nat (b.mem.take 4) = n → Inside b sz) ↔ sz < 10 ∨ n < 11 ∨ n ≤ sz := by
  constructor
  · intro h
    by_contra hno
    rw [not_or, not_or] at hno
    obtain ⟨hsz, hmin, hlt⟩ := hno
    have hcount : le_nat ((Ptr.lit (le_bytes 4 n)).mem.take 4) = n := by
      have hstarts := (Ptr.lit_starts (le_bytes 4 n)).take
      rw [le_bytes_length] at hstarts
      rw [hstarts, le_nat_le_bytes]
      exact Nat.mod_eq_of_lt hn
    obtain ⟨z, hinit⟩ : ∃ z, RdbZipList.init (Ptr.lit (le_bytes 4 n)) sz = some z := by
      rw [RdbZipList.init, if_neg hsz, hcount]
      exact ⟨_, if_neg hmin⟩
    obtain ⟨hbase, hdata, hend⟩ := init_some hinit
    have hzl := (init_checked hinit).2.2
    rcases (inside_iff _ sz).mp (h _ hcount) z hinit with hle | hclosed
    · omega
    · refine not_closed_zeros (by omega) (fun i hi => ?_) (by omega) hclosed
      rw [hbase]
      change Mem.ofList (le_bytes 4 n) (fun _ => 0) i = 0
      rw [Mem.ofList_behind]
      rw [le_bytes_length]
      exact hi
  · intro h b hb
    refine (inside_iff b sz).mpr fun z hinit => .inl ?_
    obtain ⟨hsz, hend, hcount⟩ := init_checked hinit
    omega

end rdbparser.RdbZipList
