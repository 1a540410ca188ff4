import Rdbparser.ListPack.Inside
import Rdbparser.ZipList.Inside

/-! Walks over lists of any content end, and stay inside. -/

namespace rdbparser

/-- A walk over a list of `size` bytes at `b`, of which the first entry is at `data`: `foot` are the bytes that a
call reads, and the list may lie elsewhere as long as these are the same. -/
structure Bounded (w : Ptr → Walk RdbListValue ListPackElem) (b : Ptr) (foot : RdbListValue → List Nat)
    (start : RdbListValue) (data size : Nat) : Prop where
  ends : ∃ k < size, ((w b).next ((w b).calls start k)).1 = false
  further : ∀ k t u, (w b).next ((w b).calls start k) = (true, t) → (w b).next t = (true, u) → t.entry < u.entry
  entry : ∀ k t, (w b).next ((w b).calls start k) = (true, t) → t.entry + t.entry_len ≤ size
  reads : ∀ k, ∀ i ∈ foot ((w b).calls start k), i < size
  alone : ∀ k c, (∀ i ∈ foot ((w b).calls start k), c.mem i = b.mem i) →
    (w c).next ((w b).calls start k) = (w b).next ((w b).calls start k)
  slice : ∀ k t, (w b).next ((w b).calls start k) = (true, t) → ∀ i, t.data = some i → data ≤ i ∧ i + t.data_len ≤ size

/-- A walk is bounded if no call goes back, and each that finds an entry goes on, up to the end of the list, and
hands out a slice that lies behind where it starts from. -/
theorem Bounded.of_step {w : Ptr → Walk RdbListValue ListPackElem} {b : Ptr} {foot : RdbListValue → List Nat}
    {start : RdbListValue} {data size : Nat} (hstart : (w b).pos start = data) (hdata : 0 < data)
    (hle : ∀ s, (w b).pos s ≤ (w b).pos ((w b).next s).2)
    (hstep : ∀ s t, 0 < (w b).pos s → (w b).next s = (true, t) → (w b).pos s < (w b).pos t ∧ (w b).pos t ≤ size)
    (hentry : ∀ t, (w b).pos t = t.entry + t.entry_len)
    (hfurther : ∀ s t u, 0 < (w b).pos s → (w b).next s = (true, t) → (w b).next t = (true, u) → t.entry < u.entry)
    (hslice : ∀ s t i, 0 < (w b).pos s → (w b).next s = (true, t) → t.data = some i → (w b).pos s ≤ i)
    (hreads : ∀ k, ∀ i ∈ foot ((w b).calls start k), i < size)
    (halone : ∀ k c, (∀ i ∈ foot ((w b).calls start k), c.mem i = b.mem i) →
      (w c).next ((w b).calls start k) = (w b).next ((w b).calls start k))
    (hin : ∀ k t, (w b).next ((w b).calls start k) = (true, t) → ∀ i, t.data = some i → i + t.data_len ≤ size)
    (hsize : data < size) : Bounded w b foot start data size := by
  have hpos : ∀ k, data ≤ (w b).pos ((w b).calls start k) := by
    intro k
    induction k with
    | zero => exact Nat.le_of_eq hstart.symm
    | succ k ih => exact Nat.le_trans ih (hle _)
  have hpos' : ∀ k, 0 < (w b).pos ((w b).calls start k) := fun k => Nat.lt_of_lt_of_le hdata (hpos k)
  constructor
  case ends =>
    obtain ⟨k, hk, hlast⟩ := Walk.exists_last hstep (hstart ▸ hdata)
    exact ⟨k, by omega, hlast⟩
  case further => exact fun k t u hnext hnext' => hfurther _ t u (hpos' k) hnext hnext'
  case entry =>
    intro k t hnext
    rw [← hentry]
    exact (hstep _ t (hpos' k) hnext).2
  case reads => exact hreads
  case alone => exact halone
  case slice => exact fun k t hnext i hi =>
    ⟨Nat.le_trans (hpos k) (hslice _ t i (hpos' k) hnext hi), hin k t hnext i hi⟩

namespace RdbZipList

variable {z : RdbZipList}

/-- A call does not go back, whether or not it finds an entry. -/
theorem le_next (z : RdbZipList) (lval : RdbListValue) : z.walk.pos lval ≤ z.walk.pos (z.next lval).2 := by
  change lval.entry + lval.entry_len ≤ (z.next lval).2.entry + _
  refine Nat.le_trans ?_ (Nat.le_add_right _ _)
  rw [RdbZipList.next]
  dsimp only
  split
  · split
    · exact Nat.le_refl _
    · dsimp only
      rw [entry_at_entry]
      exact Nat.le_add_right _ _
  · exact Nat.le_refl _

/-- A ziplist whose size is that of its bytes is bounded, whatever these are. -/
theorem bounded (hz : z.end_ = z.zlbytes) (hdata : z.data = 10) (hmin : 11 ≤ z.zlbytes) :
    Bounded (fun b => RdbZipList.walk { z with base := b }) z.base z.next_reads z.start z.data z.zlbytes := by
  have hend : 0 < z.end_ := by omega
  have hwithin : ∀ lval, z.Within z.zlbytes lval := within_of_le hz hend (Nat.le_of_eq hz)
  refine Bounded.of_step rfl (by omega) z.le_next ?_ (fun _ => rfl) ?_ ?_ (fun k => (hwithin _).reads)
    (fun k => (hwithin _).alone) (fun k => (hwithin _).slice) (by omega)
  · intro s t hs hnext
    have hbounds := next_bounds hz hs hnext
    exact ⟨hbounds.1, Nat.le_trans hbounds.2 (Nat.le_of_eq hz)⟩
  · intro s t u hs hnext hnext'
    obtain ⟨hprev, hentry, -⟩ := next_some hz (Nat.lt_trans hs (next_bounds hz hs hnext).1) hnext'
    have hsize := zlink_size_prev hprev
    have hle : t.entry ≤ z.walk.pos t := Nat.le_add_right _ _
    omega
  · intro s t i hs hnext hi
    obtain ⟨hlt, hprev, hlink, hhead⟩ := next_inv hz hend (congrArg Prod.fst hnext)
    obtain ⟨t', hat, -, -, hbehind⟩ := next_at hlt hprev hlink hhead
    obtain ⟨-, rfl⟩ := Prod.mk.inj (hnext.symm.trans hat)
    exact hbehind i hi

end RdbZipList

namespace RdbListPack

variable {l : RdbListPack}

/-- So is a listpack. -/
theorem bounded (hl : l.end_ = l.lpbytes) (hdata : l.data = 6) (hmin : 7 ≤ l.lpbytes) :
    Bounded (fun b => RdbListPack.walk { l with base := b }) l.base l.next_reads l.start l.data l.lpbytes := by
  have hstart : l.walk.pos l.start = l.data := rfl
  have hwithin : l.walk.Throughout (l.Within l.lpbytes) l.start := throughout_of_le hl (Nat.le_of_eq hl) (by omega)
  refine Bounded.of_step rfl (by omega) l.le_next ?_ (fun _ => rfl) ?_ ?_ (fun k => (hwithin k).reads)
    (fun k => (hwithin k).alone) (fun k => (hwithin k).slice) (by omega)
  · intro s t hs hnext
    exact ⟨next_lt hl hs hnext, Nat.le_trans (next_bounds hl hs hnext).2.2 (Nat.le_of_eq hl)⟩
  · intro s t u hs hnext hnext'
    obtain ⟨-, hlen, -⟩ := next_bounds hl hs hnext
    have hbounds := next_bounds hl (Nat.lt_trans hs (next_lt hl hs hnext)) hnext'
    omega
  · intro s t i hs hnext hi
    obtain ⟨hlt, hcode, hhead⟩ := next_inv hl hs (congrArg Prod.fst hnext)
    obtain ⟨t', hat, -, -, hbehind⟩ := next_at hlt hcode hhead
    obtain ⟨-, rfl⟩ := Prod.mk.inj (hnext.symm.trans hat)
    exact hbehind i hi

end RdbListPack

/-- A walk over a zip list or a list pack of any content ends after as many calls as the list has bytes or before.
Each call that finds an entry goes further and stays inside, in what it reads and in the slice it hands out. Nothing
is assumed of the entries, nor of the size of the memory behind the list. -/
theorem list_walk_bounded :
    (∀ z : RdbZipList, z.end_ = z.zlbytes → z.data = 10 → 11 ≤ z.zlbytes →
      Bounded (fun b => RdbZipList.walk { z with base := b }) z.base z.next_reads z.start z.data z.zlbytes) ∧
    (∀ l : RdbListPack, l.end_ = l.lpbytes → l.data = 6 → 7 ≤ l.lpbytes →
      Bounded (fun b => RdbListPack.walk { l with base := b }) l.base l.next_reads l.start l.data l.lpbytes) :=
  ⟨fun _ hz hdata hmin => RdbZipList.bounded hz hdata hmin, fun _ hl hdata hmin => RdbListPack.bounded hl hdata hmin⟩

/-- The strings "a" and "bc" and the integer 3, as a zip list. -/
def RdbZipList.three : RdbZipList :=
  ⟨20, 17, 3, .lit [20, 0, 0, 0, 17, 0, 0, 0, 3, 0, 0, 1, 0x61, 3, 2, 0x62, 0x63, 4, 0xf4, 0xff], 10, 20⟩

/-- The strings "a" and "bc" and the integer 3, as a list pack. -/
def RdbListPack.three : RdbListPack :=
  ⟨16, 3, .lit [16, 0, 0, 0, 3, 0, 0x81, 0x61, 2, 0x82, 0x62, 0x63, 3, 3, 1, 0xff], 6, 16⟩

/-- Two lists of three entries each, all of which are found. -/
theorem list_walk_bounded_three :
    (Bounded (fun b => RdbZipList.walk { RdbZipList.three with base := b }) RdbZipList.three.base
        RdbZipList.three.next_reads RdbZipList.three.start RdbZipList.three.data RdbZipList.three.zlbytes ∧
      (RdbZipList.three.walk.next (RdbZipList.three.walk.calls RdbZipList.three.start 2)).1 = true) ∧
    Bounded (fun b => RdbListPack.walk { RdbListPack.three with base := b }) RdbListPack.three.base
        RdbListPack.three.next_reads RdbListPack.three.start RdbListPack.three.data RdbListPack.three.lpbytes ∧
      (RdbListPack.three.walk.next (RdbListPack.three.walk.calls RdbListPack.three.start 2)).1 = true :=
  ⟨⟨list_walk_bounded.1 RdbZipList.three rfl rfl (by decide), by decide +kernel⟩,
    list_walk_bounded.2 RdbListPack.three rfl rfl (by decide), by decide +kernel⟩

end rdbparser
