import Rdbparser.Encode
import Rdbparser.Decode.Reads

namespace rdbparser

open format RdbDecode DecodeProc

/-- What is encoded: a string in memory, or an integer of 32 bits. -/
inductive Item
  | str (s : List UInt8) (h : s.length < 2 ^ 64)
  | int (i : Int) (lo : -(2 ^ 31) ≤ i) (hi : i < 2 ^ 31)

namespace Item

def val : Item → RdbVal
  | str s _ => .str s
  | int i _ _ => .int i

/-- The size pass and the bytes of an item, from whatever was encoded before. -/
def encode (e : RdbLenEncode) : Item → List UInt8 × RdbLenEncode
  | str s _ =>
    let (_, e) := e.str_size s.length
    (e.str_encode (Mem.ofList s 0), e)
  | int i _ _ =>
    let (_, e) := e.int_size i
    (e.int_encode, e)

/-- Items one after the other. -/
def encodes : RdbLenEncode → List Item → List UInt8
  | _, [] => []
  | e, x :: xs => (x.encode e).1 ++ encodes (x.encode e).2 xs

end Item

/-- The shortest form of a length. -/
def format.StoredLen.shortest (x : Nat) (h : x < 2 ^ 64) : StoredLen :=
  if h6 : x < 2 ^ 6 then ⟨.len6, x, h6⟩
  else if h14 : x < 2 ^ 14 then ⟨.len14, x, h14⟩
  else if h32 : x < 2 ^ 32 then ⟨.len32, x, h32⟩
  else ⟨.len64, x, h⟩

theorem format.StoredLen.shortest_val (x : Nat) (h : x < 2 ^ 64) : (shortest x h).val = x := by
  unfold shortest
  split
  · rfl
  · split
    · rfl
    · split <;> rfl

theorem format.IntForm.fits (form : IntForm) {i : Int}
    (h : -(2 ^ (8 * form.nbyte - 1)) ≤ i ∧ i < 2 ^ (8 * form.nbyte - 1)) :
    -(2 ^ (8 * form.nbyte) : Nat) ≤ 2 * i ∧ 2 * i < (2 ^ (8 * form.nbyte) : Nat) := by
  cases form <;> simp only [IntForm.nbyte] at h ⊢ <;> omega

/-- The shortest form of an integer of 32 bits. -/
def format.StoredInt.shortest (i : Int) (lo : -(2 ^ 31) ≤ i) (hi : i < 2 ^ 31) : StoredInt :=
  if h8 : -(2 ^ 7) ≤ i ∧ i < 2 ^ 7 then
    ⟨.int8, i, (IntForm.fits .int8 h8).1, (IntForm.fits .int8 h8).2⟩
  else if h16 : -(2 ^ 15) ≤ i ∧ i < 2 ^ 15 then
    ⟨.int16, i, (IntForm.fits .int16 h16).1, (IntForm.fits .int16 h16).2⟩
  else ⟨.int32, i, (IntForm.fits .int32 ⟨lo, hi⟩).1, (IntForm.fits .int32 ⟨lo, hi⟩).2⟩

theorem format.StoredInt.shortest_val (i : Int) (lo : -(2 ^ 31) ≤ i) (hi : i < 2 ^ 31) :
    (shortest i lo hi).val = i := by
  unfold shortest
  split
  · rfl
  · split <;> rfl

/-- The code of a form. -/
def format.LenForm.lcode : LenForm → LengthEnc
  | .len6 => .RDB_LEN_6
  | .len14 => .RDB_LEN_14
  | .len32 => .RDB_LEN_32
  | .len64 => .RDB_LEN_64

def format.IntForm.lcode : IntForm → LengthEnc
  | .int8 => .RDB_INT8
  | .int16 => .RDB_INT16
  | .int32 => .RDB_INT32

namespace RdbLenEncode

/-- A mask of low bits keeps the numbers that have no others. -/
theorem mask_iff (x k : Nat) : x &&& (2 ^ k - 1) = x ↔ x < 2 ^ k := by
  rw [Nat.and_two_pow_sub_one_eq_mod]
  exact ⟨fun h => h ▸ Nat.mod_lt _ (Nat.two_pow_pos k), Nat.mod_eq_of_lt⟩

/-- `str_code` selects the shortest form. -/
theorem str_code_eq (x : Nat) (h : x < 2 ^ 64) :
    RdbLength.str_code x = (StoredLen.shortest x h).form.lcode := by
  have h6 : x &&& 0x3f = x ↔ x < 2 ^ 6 := mask_iff x 6
  have h14 : x &&& 0x3fff = x ↔ x < 2 ^ 14 := mask_iff x 14
  have h32 : x &&& 0xffffffff = x ↔ x < 2 ^ 32 := mask_iff x 32
  simp only [RdbLength.str_code, h6, h14, h32, StoredLen.shortest]
  split
  · rfl
  · split
    · rfl
    · split <;> rfl

/-- The width that an integer is written in is the shortest that holds it. -/
theorem int_code_eq (i : Int) (lo : -(2 ^ 31) ≤ i) (hi : i < 2 ^ 31) :
    RdbLength.int_code i = (StoredInt.shortest i lo hi).form.lcode := by
  unfold RdbLength.int_code StoredInt.shortest
  by_cases h8 : -(2 ^ 7) ≤ i ∧ i < 2 ^ 7
  · rw [if_pos (by omega), dif_pos h8]
    rfl
  · rw [if_neg (by omega), dif_neg h8]
    by_cases h16 : -(2 ^ 15) ≤ i ∧ i < 2 ^ 15
    · rw [if_pos (by omega), dif_pos h16]
      rfl
    · rw [if_neg (by omega), dif_neg h16, if_pos (by omega)]
      rfl

/-- A length in any of its forms is encoded as it is stored, in as many bytes as the size pass says. -/
theorem len_encode_form (l : StoredLen) :
    len_encode ⟨l.form.lcode, l.val⟩ = l.bytes ∧ l.bytes.length = RdbLength.len_size l.form.lcode := by
  obtain ⟨form, x, hfits⟩ := l
  cases form with
  | len6 => exact ⟨rfl, rfl⟩
  | len14 =>
    have hx : x < 2 ^ 14 := hfits
    have hhi : ∀ n < 64, (0x40 : UInt8) ||| UInt8.ofNat n = UInt8.ofNat (0x40 + n) := by decide
    have hlo : UInt8.ofNat (x &&& 0xff) = UInt8.ofNat x := by
      apply UInt8.toNat_inj.mp
      rw [UInt8.toNat_ofNat', UInt8.toNat_ofNat', show 0xff = 2 ^ 8 - 1 from rfl,
        Nat.and_two_pow_sub_one_eq_mod]
      omega
    refine ⟨?_, by simp [StoredLen.bytes]; rfl⟩
    simp only [LenForm.lcode, len_encode, len, hlo, Nat.shiftRight_eq_div_pow, hhi (x / 2 ^ 8) (by omega)]
    rfl
  | len32 => exact ⟨rfl, by simp [StoredLen.bytes]; rfl⟩
  | len64 => exact ⟨rfl, by simp [StoredLen.bytes]; rfl⟩

/-- An integer in any of its forms is encoded as it is stored. -/
theorem int_encode_form (i : StoredInt) : int_encode ⟨i.form.lcode, twos 64 i.val⟩ = i.bytes := by
  have hlow : ∀ k ≤ 8, le_bytes k (twos 64 i.val) = le_bytes k (twos (8 * k) i.val) := by
    intro k hk
    rw [← le_bytes_mod, ← twos_mod (show 8 * k ≤ 64 by omega), Nat.pow_mul]
  have h1 := hlow 1 (by decide)
  have h2 := hlow 2 (by decide)
  have h4 := hlow 4 (by decide)
  obtain ⟨form, n, hlo, hhi⟩ := i
  cases form with
  | int8 => exact congrArg (0xc0 :: ·) h1
  | int16 => exact congrArg (0xc1 :: ·) h2
  | int32 => exact congrArg (0xc2 :: ·) h4

end RdbLenEncode

/-- An item as it is stored. -/
def Item.stored (E : Env) : Item → StoredStr E
  | str s h => .raw (StoredLen.shortest s.length h) s (StoredLen.shortest_val _ h)
  | int i lo hi => .int (StoredInt.shortest i lo hi)

/-- What is written for an item is the stored form of it. -/
theorem Item.encode_eq (E : Env) (e : RdbLenEncode) (x : Item) : (x.encode e).1 = (x.stored E).bytes := by
  cases x with
  | str s h =>
    have hform := (RdbLenEncode.len_encode_form (StoredLen.shortest s.length h)).1
    rw [← RdbLenEncode.str_code_eq, StoredLen.shortest_val] at hform
    change RdbLenEncode.len_encode ⟨RdbLength.str_code s.length, s.length⟩ ++
      (Mem.ofList s 0).take s.length = (StoredLen.shortest s.length h).bytes ++ s
    rw [hform, (Mem.ofList_starts s 0).take]
  | int i lo hi =>
    have hform := RdbLenEncode.int_encode_form (StoredInt.shortest i lo hi)
    rw [← RdbLenEncode.int_code_eq, StoredInt.shortest_val] at hform
    change RdbLenEncode.int_encode ⟨RdbLength.int_code i, twos 64 i⟩ =
      (StoredInt.shortest i lo hi).bytes ++ []
    rw [hform, List.append_nil]

theorem Item.encodes_eq (E : Env) (e : RdbLenEncode) (xs : List Item) :
    encodes e xs = xs.flatMap fun x => (x.stored E).bytes := by
  induction xs generalizing e with
  | nil => rfl
  | cons x xs ih => rw [encodes, List.flatMap_cons, x.encode_eq E, ih]

/-- `decode_rlen` once for each of `n` items. -/
def decode_items (E : Env) : Nat → DecodeProc (List RdbVal)
  | 0 => pure []
  | n + 1 => do
    let str ← decode_rlen E .empty
    let vals ← decode_items E n
    pure (str.val :: vals)

/-- An item is decoded in the middle of a buffer as well as near its end. -/
theorem decode_rlen_item {E : Env} (x : Item) {s : St} {c : Place} (hs : s.bptr.On c) {rest : List UInt8}
    (hv : c.Views ((x.stored E).bytes ++ rest)) :
    ∃ r b, decode_rlen E .empty s = ⟨.ok r, { s with bptr := b }, []⟩ ∧ r.val = x.val ∧
      b.On (c.adv (x.stored E).bytes.length) := by
  rw [StoredStr.bytes, List.append_assoc] at hv
  obtain ⟨b, hdec, hon⟩ := (RdbBufptr.At.main hs).decode _ hv
  have hrun : decode {} s = ⟨.ok (RdbLength.ofHeader (x.stored E).hdr), { s with bptr := b }, []⟩ := by
    simp only [DecodeProc.decode, hdec]
  rw [decode_rlen, Proc.bind_quiet hrun]
  cases x with
  | str text h =>
    have hv' := hv.adv
    obtain ⟨b', hincr, hon'⟩ := hon.incr hv'.le
    have hget : DecodeProc.incr text.length { s with bptr := b } =
        ⟨.ok (c.adv (StoredLen.shortest text.length h).bytes.length).buf.ptr,
          { s with bptr := b' }, []⟩ := by
      rw [DecodeProc.incr, show b.incr text.length = some (_, b') from hincr]
      rfl
    refine ⟨_, b', ?_, RdbString.set_str_starts .empty hv'.starts rfl, ?_⟩
    · change decode_str .empty { len := (StoredLen.shortest text.length h).val } _ = _
      rw [decode_str, if_neg (fun h => h rfl), StoredLen.shortest_val]
      exact Proc.bind_quiet hget
    · rwa [StoredStr.bytes, List.length_append, ← Place.adv_adv]
  | int i lo hi =>
    have henc : (StoredInt.shortest i lo hi).form.nbyte ≠ 0 := IntForm.nbyte_ne _
    refine ⟨RdbString.empty.set_int i, b, ?_, RdbString.set_int_val .empty (by omega) (by omega), ?_⟩
    · change decode_str .empty { is_enc := (StoredInt.shortest i lo hi).form.nbyte
                                 ival := (StoredInt.shortest i lo hi).val } _ = _
      rw [decode_str, if_pos henc, StoredInt.shortest_val]
      rfl
    · change b.On (c.adv ((StoredInt.shortest i lo hi).bytes ++ []).length)
      rwa [List.append_nil]

/-- Items that are written one behind the other are decoded one by one, up to where they end. -/
theorem decode_items_run {E : Env} (xs : List Item) {s : St} {c : Place} (hs : s.bptr.On c)
    {rest : List UInt8} (hv : c.Views (xs.flatMap (fun x => (x.stored E).bytes) ++ rest)) :
    ∃ b, decode_items E xs.length s = ⟨.ok (xs.map Item.val), { s with bptr := b }, []⟩ ∧
      b.On (c.adv (xs.flatMap fun x => (x.stored E).bytes).length) := by
  induction xs generalizing s c with
  | nil => exact ⟨s.bptr, rfl, hs⟩
  | cons x xs ih =>
    rw [List.flatMap_cons, List.append_assoc] at hv
    obtain ⟨r, b, hrun, hval, hon⟩ := decode_rlen_item x hs hv
    obtain ⟨b', hruns, hon'⟩ := ih (s := { s with bptr := b }) hon hv.adv
    refine ⟨b', ?_, ?_⟩
    · rw [List.length_cons, decode_items, Proc.bind_quiet hrun, Proc.bind_quiet hruns, hval]
      rfl
    · rwa [List.flatMap_cons, List.length_append, ← Place.adv_adv]

/-- Items are decoded to what was encoded, in order and to the last byte, and the length of a string to what it
is, from as many bytes as the size pass says. Nothing is assumed of the decoder, nor of the memory behind the
bytes. -/
theorem decode_encodes (E : Env) (xs : List Item) (x : UInt64) (e : RdbLenEncode) (dec : RdbDecode)
    (blk : Block) (past : Mem) (rest : List UInt8) :
    (∃ b, decode_items E xs.length ⟨dec, RdbBufptr.init ⟨blk, Mem.ofList (Item.encodes e xs) past, 0⟩
          (Item.encodes e xs).length⟩ = ⟨.ok (xs.map Item.val), ⟨dec, b⟩, []⟩ ∧ b.avail = 0) ∧
      ∃ l b, ({} : RdbLength).decode (RdbBufptr.init
          ⟨blk, Mem.ofList ((e.len_encode_of x.toNat).1 ++ rest) past, 0⟩
          ((e.len_encode_of x.toNat).1 ++ rest).length) = (.RDB_OK, l, b) ∧
        l.len = x.toNat ∧ l.is_enc = 0 ∧ l.is_lzf = false ∧
        b.avail + (e.len_size x.toNat).1 = ((e.len_encode_of x.toNat).1 ++ rest).length ∧
        b.offset = (e.len_size x.toNat).1 := by
  constructor
  · have hv : Place.Views ⟨⟨blk, Mem.ofList (Item.encodes e xs) past, 0⟩, (Item.encodes e xs).length, 0, 0⟩
        (xs.flatMap (fun x => (x.stored E).bytes) ++ []) := by
      rw [← Item.encodes_eq E e]
      exact Place.ofList_views_end blk _ past
    obtain ⟨b, hrun, hon⟩ := decode_items_run (E := E) xs
      (s := ⟨dec, RdbBufptr.init ⟨blk, Mem.ofList (Item.encodes e xs) past, 0⟩ (Item.encodes e xs).length⟩)
      ⟨rfl, rfl⟩ hv
    refine ⟨b, hrun, ?_⟩
    rw [hon.avail, ← Item.encodes_eq E e]
    exact Nat.sub_self _
  · obtain ⟨hbytes, hsize⟩ := RdbLenEncode.len_encode_form (StoredLen.shortest x.toNat x.toNat_lt)
    rw [← RdbLenEncode.str_code_eq] at hbytes hsize
    rw [StoredLen.shortest_val] at hbytes
    have hlen : (e.len_encode_of x.toNat).1 = (StoredLen.shortest x.toNat x.toNat_lt).bytes := hbytes
    have hsz : (e.len_size x.toNat).1 = (StoredLen.shortest x.toNat x.toNat_lt).bytes.length := hsize.symm
    rw [hlen, hsz]
    obtain ⟨b, hdec, hon⟩ := (RdbBufptr.At.main (b := RdbBufptr.init ⟨blk, _, 0⟩ _) ⟨rfl, rfl⟩).decode
      (.plain (StoredLen.shortest x.toNat x.toNat_lt))
      (Place.ofList_views blk ((StoredLen.shortest x.toNat x.toNat_lt).bytes ++ rest) past)
    refine ⟨_, b, hdec, StoredLen.shortest_val _ _, rfl, rfl, ?_, ?_⟩
    · rw [hon.avail, List.length_append]
      exact Nat.sub_add_cancel (Nat.le_add_right _ _)
    · rw [hon.offset]
      exact Nat.zero_add _

end rdbparser
