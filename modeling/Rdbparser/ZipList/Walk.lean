import Rdbparser.Format.ZipList
import Rdbparser.Length.Header
import Rdbparser.Walk
import Rdbparser.ZipList.Immediate

/-! The walk over a zip list. -/

namespace rdbparser.RdbZipList

open format ZipLinkEnc

/-- What `next` has found. -/
def elem (z : RdbZipList) (lval : RdbListValue) : ListPackElem :=
  match lval.data with
  | some data => .str ((z.base.add data).mem.take lval.data_len)
  | none => .int lval.ival

def walk (z : RdbZipList) : Walk RdbListValue ListPackElem where
  next := z.next
  found := z.elem
  pos lval := lval.entry + lval.entry_len

/-- Before the first element. -/
def start (z : RdbZipList) : RdbListValue := { entry := z.data, entry_len := 0 }

/-- What is handed out for an entry is what it says, as an integer or a string. -/
theorem decode_lval_elem (z : RdbZipList) (lval : RdbListValue) :
    (RdbDecode.decode_lval z.base lval).val = (z.elem lval).val := by
  rw [RdbDecode.decode_lval, elem]
  cases lval.data with
  | some data => rfl
  | none =>
    have hlo : -(2 ^ 63) ≤ sext 64 lval.ival := Int.le_bmod (by decide)
    have hhi : sext 64 lval.ival < 2 ^ 63 := Int.bmod_lt (by decide)
    exact RdbString.set_int_val _ hlo hhi

/-! The codes of an entry. -/

/-- The sizes that `ZSIZE` packs. -/
theorem zlink_size_eq (e : ZipLinkEnc) : zlink_size e =
    match e with
    | ZIP_END => 0
    | LEN_8 | LEN_6 | IMMED_4 => 1
    | BIG_14 | IMMED_8 => 2
    | IMMED_16 => 3
    | IMMED_24 => 4
    | LEN_32 | BIG_32 | IMMED_32 => 5
    | IMMED_64 => 9 := by
  cases e <;> decide

/-- The link to the entry before is told by its first byte, and takes as many bytes as it is stored in. -/
theorem zlink_prev_bytes (prev : ZipPrev) {p : Mem} (hp : p.Starts prev.bytes) :
    zlink_prev (p 0) ≠ ZIP_END ∧ zlink_size (zlink_prev (p 0)) = prev.bytes.length := by
  cases prev with
  | len8 n fits =>
    have h0 : p 0 = UInt8.ofNat n := (Mem.starts_cons.mp hp).1
    have henc : ∀ n < 0xfe, zlink_prev (UInt8.ofNat n) = LEN_8 := by decide +kernel
    rw [h0, henc n fits]
    exact ⟨nofun, rfl⟩
  | len32 n fits =>
    have h0 : p 0 = 0xfe := (Mem.starts_cons.mp hp).1
    have henc : zlink_prev 0xfe = LEN_32 := rfl
    rw [h0, henc]
    exact ⟨nofun, by rw [zlink_size_eq, ZipPrev.bytes, List.length_cons, le_bytes_length]⟩

/-- What it links over is what was stored. -/
theorem zlink_val_prev (prev : ZipPrev) {p : Mem} (hp : p.Starts prev.bytes) :
    zlink_val (zlink_prev (p 0)) p = prev.val := by
  cases prev with
  | len8 n fits =>
    have h0 : p 0 = UInt8.ofNat n := (Mem.starts_cons.mp hp).1
    have henc : ∀ n < 0xfe, zlink_prev (UInt8.ofNat n) = LEN_8 := by decide +kernel
    rw [h0, henc n fits, zlink_val, h0, UInt8.toNat_ofNat']
    exact Nat.mod_eq_of_lt (by omega)
  | len32 n fits =>
    obtain ⟨h0, hrest⟩ := Mem.starts_cons.mp hp
    have htake := hrest.take
    rw [le_bytes_length] at htake
    rw [h0]
    change le_nat ((p.add 1).take 4) = n
    rw [htake, le_nat_le_bytes]
    exact Nat.mod_eq_of_lt fits

/-- The code of a length in this form. -/
def str_enc : ZipStrForm → ZipLinkEnc
  | .len6 => LEN_6
  | .len14 => BIG_14
  | .len32 => BIG_32

def int_enc : ZipIntForm → ZipLinkEnc
  | .int4 => IMMED_4
  | .int8 => IMMED_8
  | .int16 => IMMED_16
  | .int24 => IMMED_24
  | .int32 => IMMED_32
  | .int64 => IMMED_64

/-- The opcode of a string is told by its first byte in each of its three forms, and its length is the one that was
stored. -/
theorem zlink_next_str (form : ZipStrForm) {n : Nat} (hn : n < form.bound) {p : Mem} (hp : p.Starts (form.bytes n)) :
    zlink_next (p 0) = str_enc form ∧ zlink_size (str_enc form) = (form.bytes n).length ∧
      zlink_val (str_enc form) p = n := by
  cases form with
  | len6 =>
    have h0 : p 0 = UInt8.ofNat n := (Mem.starts_cons.mp hp).1
    have hn : n < 2 ^ 6 := hn
    have henc : ∀ n < 2 ^ 6, zlink_next (UInt8.ofNat n) = LEN_6 := by decide
    refine ⟨h0 ▸ henc n hn, zlink_size_eq _, ?_⟩
    rw [str_enc, zlink_val, h0, RdbLength.toNat_ofNat_lt (by omega), show (0x3f : Nat) = 2 ^ 6 - 1 from rfl,
      Nat.and_two_pow_sub_one_eq_mod, Nat.mod_eq_of_lt hn]
  | len14 =>
    obtain ⟨h0, h1⟩ := Mem.starts_cons.mp hp
    have h1 : p 1 = UInt8.ofNat n := (Mem.starts_cons.mp h1).1
    have hn : n < 2 ^ 14 := hn
    have henc : ∀ n < 2 ^ 6, zlink_next (UInt8.ofNat (0x40 + n)) = BIG_14 := by decide
    have hlo : (UInt8.ofNat n).toNat = n % 256 := UInt8.toNat_ofNat'
    refine ⟨h0 ▸ henc (n / 256) (by omega), zlink_size_eq _, ?_⟩
    rw [str_enc, zlink_val, h0, h1, RdbLength.toNat_ofNat_lt (by omega), hlo, show (0x3f : Nat) = 2 ^ 6 - 1 from rfl,
      Nat.and_two_pow_sub_one_eq_mod, shiftLeft_or (by omega)]
    omega
  | len32 =>
    obtain ⟨h0, h1⟩ := Mem.starts_cons.mp hp
    have hn : n < 256 ^ 4 := hn
    have htake : (p.add 1).take 4 = be_bytes 4 n := by simpa using h1.take
    refine ⟨h0 ▸ rfl, by rw [zlink_size_eq, ZipStrForm.bytes, List.length_cons, be_bytes_length]; rfl, ?_⟩
    rw [str_enc, zlink_val, b32, htake, be_nat_be_bytes, Nat.mod_eq_of_lt hn]

/-- So is the opcode of an integer in each of its forms, and the integer is the one that was stored, in 64 bits. -/
theorem zlink_next_int (form : ZipIntForm) {v : Int} (hv : form.Holds v) {p : Mem} (hp : p.Starts (form.bytes v)) :
    zlink_next (p 0) = int_enc form ∧ zlink_size (int_enc form) = (form.bytes v).length ∧
      zlink_val (int_enc form) p = twos 64 v := by
  obtain ⟨h0, h1⟩ := Mem.starts_cons.mp hp
  have hsize : zlink_size (int_enc form) = (form.bytes v).length := by
    rw [zlink_size_eq, ZipIntForm.bytes, List.length_cons, le_bytes_length]
    cases form <;> rfl
  have hsext : form ≠ .int4 → sext (8 * form.nbyte) (le_nat ((p.add 1).take form.nbyte)) = v := fun hne => by
    rw [ZipIntForm.Holds, if_neg hne] at hv
    exact sext_starts h1 hv.1 hv.2
  have hcode : form ≠ .int4 → zlink_next (p 0) = int_enc form := fun hne => by
    rw [h0]
    cases form with
    | int4 => exact absurd rfl hne
    | int8 => exact (by decide : zlink_next 0xfe = IMMED_8)
    | int16 => exact (by decide : zlink_next 0xc0 = IMMED_16)
    | int24 => exact (by decide : zlink_next 0xf0 = IMMED_24)
    | int32 => exact (by decide : zlink_next 0xd0 = IMMED_32)
    | int64 => exact (by decide : zlink_next 0xe0 = IMMED_64)
  cases form with
  | int4 =>
    have hv : 0 ≤ v ∧ v ≤ 12 := hv
    obtain ⟨n, rfl⟩ : ∃ n : Nat, v = n := ⟨v.toNat, by omega⟩
    have h0 : p 0 = UInt8.ofNat (0xf1 + n) := h0
    have henc : ∀ n ≤ 12, zlink_next (UInt8.ofNat (0xf1 + n)) = IMMED_4 ∧
        (UInt8.ofNat (0xf1 + n)).toNat &&& 0xf = n + 1 := by decide
    refine ⟨h0 ▸ (henc n (by omega)).1, hsize, ?_⟩
    rw [int_enc, zlink_val, h0, (henc n (by omega)).2, Nat.cast_succ, add_sub_cancel_right]
  | int8 =>
    refine ⟨hcode (by decide), hsize, ?_⟩
    have hword := hsext (by decide)
    simp only [ZipIntForm.nbyte, Nat.reduceMul, le_nat_take_one] at hword
    rw [int_enc, zlink_val, s8, ← hword]
    rfl
  | int16 =>
    refine ⟨hcode (by decide), hsize, ?_⟩
    have hword := hsext (by decide)
    simp only [ZipIntForm.nbyte, Nat.reduceMul] at hword
    rw [int_enc, zlink_val, s16, hword]
  | int24 =>
    refine ⟨hcode (by decide), hsize, ?_⟩
    have hword := hsext (by decide)
    simp only [ZipIntForm.nbyte, Nat.reduceMul] at hword
    rw [int_enc, zlink_val, s24_sext, hword]
  | int32 =>
    refine ⟨hcode (by decide), hsize, ?_⟩
    have hword := hsext (by decide)
    simp only [ZipIntForm.nbyte, Nat.reduceMul] at hword
    rw [int_enc, zlink_val, s32, hword]
  | int64 =>
    refine ⟨hcode (by decide), hsize, ?_⟩
    have htake : (p.add 1).take 8 = le_bytes 8 (twos 64 v) := by
      have h := h1.take
      rwa [le_bytes_length] at h
    have hlt := twos_lt 64 v
    rw [int_enc, zlink_val, s64, htake, le_nat_le_bytes, Nat.mod_eq_of_lt (by omega)]

/-! An entry. -/

theorem is_immed_str (form : ZipStrForm) : is_immed (str_enc form) = false := by
  cases form <;> decide

theorem is_immed_int (form : ZipIntForm) : is_immed (int_enc form) = true := by
  cases form <;> decide

/-- What is found behind the link to the entry before. -/
theorem entry_at_item {z : RdbZipList} (item : ZipItem) (lval : RdbListValue) (hdata : lval.data = none)
    (hp : (z.base.mem.add lval.entry).Starts item.bytes) (hend : lval.entry + item.bytes.length ≤ z.end_) :
    z.elem (z.entry_at lval) = item.elem ∧ (z.entry_at lval).entry = lval.entry ∧
      (z.entry_at lval).entry_len = item.bytes.length := by
  have hlt : lval.entry < z.end_ := by
    have hpos := item.bytes_pos
    omega
  cases item with
  | str form text fits =>
    rw [ZipItem.bytes, Mem.starts_append] at hp
    rw [ZipItem.bytes, List.length_append] at hend
    obtain ⟨hnext, hsize, hval⟩ := zlink_next_str form fits hp.1
    rw [Mem.add_apply, Nat.add_zero] at hnext
    have hin : lval.entry + (form.bytes text.length).length ≤ z.end_ := by omega
    have hrun : z.entry_at lval = { lval with
        ival := text.length, entry_len := (form.bytes text.length).length + text.length
        data := some (lval.entry + (form.bytes text.length).length), data_len := text.length } := by
      simp only [entry_at, hnext, if_pos hlt, hsize, hval, is_immed_str, if_pos hin, Bool.false_eq_true, if_false]
    rw [hrun, ZipItem.bytes, List.length_append]
    refine ⟨congrArg ListPackElem.str ?_, rfl, rfl⟩
    have htext := hp.2.take
    rwa [Mem.add_add] at htext
  | int form val fits =>
    obtain ⟨hnext, hsize, hval⟩ := zlink_next_int form fits hp
    rw [Mem.add_apply, Nat.add_zero] at hnext
    have hin : lval.entry + (form.bytes val).length ≤ z.end_ := hend
    have hrun : z.entry_at lval = { lval with ival := twos 64 val, entry_len := (form.bytes val).length } := by
      simp only [entry_at, hnext, if_pos hlt, hsize, hval, is_immed_int, if_pos hin, if_true]
    rw [hrun]
    refine ⟨?_, rfl, rfl⟩
    rw [elem]
    dsimp only
    rw [hdata]
    rfl

/-- An entry is found where it lies, and skipped by its size. -/
theorem next_entry {z : RdbZipList} (e : ZipEntry) {lval : RdbListValue}
    (hp : (z.base.mem.add (z.walk.pos lval)).Starts e.bytes) (hend : z.walk.pos lval + e.bytes.length ≤ z.end_) :
    ∃ t, z.walk.next lval = (true, t) ∧ z.walk.found t = e.item.elem ∧
      z.walk.pos t = z.walk.pos lval + e.bytes.length := by
  rw [ZipEntry.bytes, Mem.starts_append, Mem.add_add] at hp
  rw [ZipEntry.bytes, List.length_append] at hend ⊢
  have hpos := e.item.bytes_pos
  obtain ⟨hprev, hsize⟩ := zlink_prev_bytes e.prev hp.1
  rw [Mem.add_apply, Nat.add_zero] at hprev hsize
  obtain ⟨hfound, hentry, hlen⟩ := entry_at_item (z := z) e.item
    { entry := lval.entry + lval.entry_len + e.prev.bytes.length, entry_len := z.zlbytes } rfl hp.2
    (by change z.walk.pos lval + _ + _ ≤ _; omega)
  have hnext : z.next lval = (true, z.entry_at
      { entry := lval.entry + lval.entry_len + e.prev.bytes.length, entry_len := z.zlbytes }) := by
    have hlt : lval.entry + lval.entry_len < z.end_ := by
      change z.walk.pos lval < _
      omega
    change zlink_prev (z.base.mem (lval.entry + lval.entry_len)) ≠ ZIP_END at hprev
    change zlink_size (zlink_prev (z.base.mem (lval.entry + lval.entry_len))) = _ at hsize
    rw [RdbZipList.next]
    simp only [if_pos hlt, if_neg hprev, hsize, hentry, hlen]
    refine Prod.ext (decide_eq_true ?_) rfl
    change z.walk.pos lval + _ + _ ≤ _
    omega
  refine ⟨_, hnext, hfound, ?_⟩
  change (z.entry_at _).entry + (z.entry_at _).entry_len = _
  rw [hentry, hlen, Nat.add_assoc]
  rfl

/-- Nothing is found at the end marker. -/
theorem next_end {z : RdbZipList} {lval : RdbListValue} (hlast : z.base.mem (z.walk.pos lval) = 0xff)
    (hend : z.walk.pos lval < z.end_) : (z.walk.next lval).1 = false := by
  have hlt : lval.entry + lval.entry_len < z.end_ := hend
  have hprev : zlink_prev (z.base.mem (lval.entry + lval.entry_len)) = ZIP_END := by
    change zlink_prev (z.base.mem (z.walk.pos lval)) = _
    rw [hlast]
    decide
  change (z.next lval).1 = false
  rw [RdbZipList.next]
  simp only [if_pos hlt, if_pos hprev]

/-- What `init` makes of a zip list. -/
def of_layout (l : format.ZipList) (b : Ptr) : RdbZipList :=
  { zlbytes := l.zlbytes, zltail := l.zltail % 2 ^ 32, zllen := l.zllen % 2 ^ 16, base := b, data := 10
    end_ := l.zlbytes }

/-- The header of a list is read as it was stored. -/
theorem init_bytes (l : format.ZipList) {b : Ptr} (hb : b.mem.Starts l.bytes) :
    init b l.bytes.length = some (of_layout l b) := by
  have hlen := l.bytes_length
  have hfits := l.fits
  have hmin : 11 ≤ l.zlbytes := by
    rw [ZipList.zlbytes]
    omega
  rw [ZipList.bytes, ZipList.header, Mem.starts_append, Mem.starts_append, Mem.starts_append, le_bytes_length,
    le_bytes_length] at hb
  obtain ⟨⟨hbytes, htail, hllen⟩, -⟩ := hb
  have hbytes : b.mem.take 4 = le_bytes 4 l.zlbytes := by simpa using hbytes.take
  have htail : (b.mem.add 4).take 4 = le_bytes 4 l.zltail := by simpa using htail.take
  have hllen : (b.mem.add 8).take 2 = le_bytes 2 l.zllen := by simpa using hllen.take
  have hval : le_nat (le_bytes 4 l.zlbytes) = l.zlbytes := by
    rw [le_nat_le_bytes, Nat.mod_eq_of_lt]
    rw [ZipList.zlbytes]
    omega
  rw [init, if_neg (by omega)]
  simp only [hbytes, hval, htail, hllen, le_nat_le_bytes]
  rw [if_neg (by omega)]
  rfl

/-- A walk over a documented list yields its entries, up to the end byte. -/
theorem of_layout_yields (l : format.ZipList) {b : Ptr} (hb : b.mem.Starts l.bytes) :
    (of_layout l b).walk.Yields (fun i => b.mem i = 0xff) (of_layout l b).start
      (l.entries.map fun e => (e.bytes.length, e.item.elem)) := by
  have hlen : l.header.length = 10 := by simp [ZipList.header]
  rw [ZipList.bytes, Mem.starts_append, hlen] at hb
  refine Walk.yields_of_layout (fun _ => True) l.zlbytes (fun e s _ hp hlt => next_entry e hp (Nat.le_of_lt hlt))
    (fun s => next_end) hb.2 ?_ fun _ _ => trivial
  change 10 + (l.entries.flatMap ZipEntry.bytes).length < l.zlbytes
  rw [ZipList.zlbytes]
  omega

/-- A zip list is walked entry by entry, whatever the forms of its entries and of the links between them. The
links need not be right, nor does the header have to know the last entry or the number of them. -/
theorem ziplist_yields (l : format.ZipList) {b : Ptr} (hb : b.mem.Starts l.bytes) :
    ∃ z, init b l.bytes.length = some z ∧ z.first = z.next z.start ∧
      z.walk.Yields (fun i => b.mem i = 0xff) z.start (l.entries.map fun e => (e.bytes.length, e.item.elem)) :=
  ⟨_, init_bytes l hb, rfl, of_layout_yields l hb⟩

/-- A string whose length is in 14 bits, and an integer in 24 behind a link of 32. -/
theorem ziplist_yields_two : ∃ z, init (.lit [25, 0, 0, 0, 15, 0, 0, 0, 2, 0, 0, 0x40, 2, 0x61, 0x62,
      0xfe, 5, 0, 0, 0, 0xf0, 0xfe, 0xff, 0xff, 0xff]) 25 = some z ∧ z.first = z.next z.start ∧
    z.walk.Yields (fun i => (Ptr.lit [25, 0, 0, 0, 15, 0, 0, 0, 2, 0, 0, 0x40, 2, 0x61, 0x62,
      0xfe, 5, 0, 0, 0, 0xf0, 0xfe, 0xff, 0xff, 0xff]).mem i = 0xff) z.start
      [(5, .str [0x61, 0x62]), (9, .int (2 ^ 64 - 2))] :=
  ziplist_yields ⟨15, 2, [⟨.len8 0 (by decide), .str .len14 [0x61, 0x62] (by decide)⟩,
    ⟨.len32 5 (by decide), .int .int24 (-2) ⟨by decide, by decide⟩⟩], by decide⟩ (by decide +kernel)

end rdbparser.RdbZipList
