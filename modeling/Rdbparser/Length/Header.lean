import Rdbparser.Length
import Rdbparser.Format.Header

namespace rdbparser.RdbLength

open format

/-- A property of bytes is checked byte by byte. -/
theorem forall_byte {P : UInt8 → Prop} (h : ∀ n < 256, P (UInt8.ofNat n)) (b : UInt8) : P b := by
  have hb := h b.toNat b.toNat_lt
  rwa [UInt8.ofNat_toNat] at hb

theorem length_encoding_len6 {n : Nat} (h : n < 2 ^ 6) :
    length_encoding (UInt8.ofNat n) = .RDB_LEN_6 := by
  revert n
  decide

theorem length_encoding_len14 {n : Nat} (h : n < 2 ^ 6) :
    length_encoding (UInt8.ofNat (0x40 + n)) = .RDB_LEN_14 := by
  revert n
  decide

theorem length_encoding_int (f : IntForm) : length_encoding f.code =
    match f with
    | .int8 => .RDB_INT8
    | .int16 => .RDB_INT16
    | .int32 => .RDB_INT32 := by
  cases f <;> rfl

theorem toNat_ofNat_lt {n : Nat} (h : n < 256) : (UInt8.ofNat n).toNat = n := by
  rw [UInt8.toNat_ofNat']
  exact Nat.mod_eq_of_lt h

/-- A plain length sets `len` and leaves the other fields, in either call of `decode_buf`. -/
theorem decode_buf_flat_len (l : RdbLength) (h : StoredLen) {p : Mem} (hp : p.Starts h.bytes) :
    decode_buf_flat l p = ((h.bytes.length : Int), { l with len := h.val }) := by
  obtain ⟨form, n, hfits⟩ := h
  cases form with
  | len6 =>
    have h0 : p 0 = UInt8.ofNat n := (Mem.starts_cons.mp hp).1
    have hn : n < 2 ^ 6 := hfits
    simp only [decode_buf_flat, h0, length_encoding_len6 hn, toNat_ofNat_lt (show n < 256 by omega),
      show (0x3f : Nat) = 2 ^ 6 - 1 from rfl, Nat.and_two_pow_sub_one_eq_mod, Nat.mod_eq_of_lt hn]
    rfl
  | len14 =>
    obtain ⟨h0, h1⟩ := Mem.starts_cons.mp hp
    have h1 : p 1 = UInt8.ofNat n := (Mem.starts_cons.mp h1).1
    have hn : n < 2 ^ 14 := hfits
    have hhi : n / 256 < 2 ^ 6 := by omega
    have hlo : (UInt8.ofNat n).toNat = n % 256 := UInt8.toNat_ofNat'
    have hval : ((0x40 + n / 256) % 2 ^ 6) <<< 8 ||| n % 256 = n := by
      rw [← Nat.shiftLeft_add_eq_or_of_lt (show n % 256 < 2 ^ 8 by omega), Nat.shiftLeft_eq]
      omega
    simp only [decode_buf_flat, h0, h1, length_encoding_len14 hhi,
      toNat_ofNat_lt (show 0x40 + n / 256 < 256 by omega), hlo,
      show (0x3f : Nat) = 2 ^ 6 - 1 from rfl, Nat.and_two_pow_sub_one_eq_mod, hval]
    rfl
  | len32 =>
    obtain ⟨h0, h1⟩ := Mem.starts_cons.mp hp
    have hn : n < 256 ^ 4 := hfits
    have htake : (p.add 1).take 4 = be_bytes 4 n := by simpa using h1.take
    have henc : length_encoding 0x80 = .RDB_LEN_32 := rfl
    simp only [decode_buf_flat, h0, henc, htake, be_nat_be_bytes, Nat.mod_eq_of_lt hn]
    rfl
  | len64 =>
    obtain ⟨h0, h1⟩ := Mem.starts_cons.mp hp
    have hn : n < 256 ^ 8 := hfits
    have htake : (p.add 1).take 8 = be_bytes 8 n := by simpa using h1.take
    have henc : length_encoding 0x81 = .RDB_LEN_64 := rfl
    simp only [decode_buf_flat, h0, henc, htake, be_nat_be_bytes, Nat.mod_eq_of_lt hn]
    rfl

/-- The fields `decode_buf` sets for a header. -/
def ofHeader : Header → RdbLength
  | .plain l => { len := l.val }
  | .int i => { is_enc := i.form.nbyte, ival := i.val }
  | .lzf zlen len => { len := len.val, zlen := zlen.val, is_lzf := true }

/-- A length is decoded to its value, in each of its four forms. -/
theorem decode_buf_len (l : RdbLength) (h : StoredLen) {p : Mem} (hp : p.Starts h.bytes) :
    decode_buf l p = ((h.bytes.length : Int), { l with len := h.val }) := by
  have hflat := decode_buf_flat_len l h hp
  unfold decode_buf
  split
  · next henc =>
    simp [decode_buf_flat, henc] at hflat
  · exact hflat

/-- An encoded integer is decoded to what it says, in each of its three widths. -/
theorem decode_buf_int (i : StoredInt) {p : Mem} (hp : p.Starts i.bytes) :
    decode_buf {} p = ((i.bytes.length : Int), ofHeader (.int i)) := by
  obtain ⟨form, n, hlo, hhi⟩ := i
  obtain ⟨h0, h1⟩ := Mem.starts_cons.mp hp
  have htake : (p.add 1).take form.nbyte = le_bytes form.nbyte (twos (8 * form.nbyte) n) := by
    simpa using h1.take
  have hval : sext (8 * form.nbyte) (le_nat (le_bytes form.nbyte (twos (8 * form.nbyte) n))) = n := by
    have hlt := twos_lt (8 * form.nbyte) n
    rw [Nat.pow_mul] at hlt
    rw [le_nat_le_bytes, Nat.mod_eq_of_lt hlt, sext_twos hlo hhi]
  have henc := length_encoding_int form
  rw [← h0] at henc
  rw [← htake] at hval
  cases form with
  | int8 =>
    have hbyte : le_nat ((p.add 1).take 1) = (p 1).toNat := by simp [Mem.take, le_nat]
    simp only [IntForm.nbyte] at hval
    simp only [decode_buf, decode_buf_flat, henc, ofHeader, IntForm.nbyte, ← hbyte, hval]
    simp [StoredInt.bytes, IntForm.nbyte]
  | int16 =>
    simp only [IntForm.nbyte] at hval
    simp only [decode_buf, decode_buf_flat, henc, ofHeader, IntForm.nbyte, hval]
    simp [StoredInt.bytes, IntForm.nbyte]
  | int32 =>
    simp only [IntForm.nbyte] at hval
    simp only [decode_buf, decode_buf_flat, henc, ofHeader, IntForm.nbyte, hval]
    simp [StoredInt.bytes, IntForm.nbyte]

/-- The header of a compressed blob is decoded to both of its lengths. -/
theorem decode_buf_lzf (zlen len : StoredLen) {p : Mem} (hp : p.Starts (Header.lzf zlen len).bytes) :
    decode_buf {} p = (((Header.lzf zlen len).bytes.length : Int), ofHeader (.lzf zlen len)) := by
  obtain ⟨h0, h1⟩ := Mem.starts_cons.mp hp
  obtain ⟨hz, hl⟩ := Mem.starts_append.mp h1
  have henc : length_encoding (p 0) = .RDB_LZF := by rw [h0]; rfl
  rw [Mem.add_add, Nat.add_comm] at hl
  simp only [decode_buf, henc, decode_buf_flat_len _ zlen hz, Int.toNat_natCast,
    decode_buf_flat_len _ len hl, ofHeader, Header.bytes, List.length_cons, List.length_append]
  simp only [if_neg (show ¬ ((zlen.bytes.length : Int) < 0) by omega)]
  simp
  omega

/-- `decode_buf` on a header: its exact size and its documented fields. -/
theorem decode_buf_header (h : Header) {p : Mem} (hp : p.Starts h.bytes) :
    decode_buf {} p = ((h.bytes.length : Int), ofHeader h) := by
  cases h with
  | plain l => exact decode_buf_len {} l hp
  | int i => exact decode_buf_int i hp
  | lzf zlen len => exact decode_buf_lzf zlen len hp

/-- The size of a header that is not compressed, from its first byte. -/
def header_size : LengthEnc → Int
  | .RDB_LEN_6 => 1
  | .RDB_LEN_14 | .RDB_INT8 => 2
  | .RDB_INT16 => 3
  | .RDB_LEN_32 | .RDB_INT32 => 5
  | .RDB_LEN_64 => 9
  | .RDB_LZF | .RDB_LEN_ERR => -1

theorem decode_buf_flat_size (l : RdbLength) (b : Mem) :
    (l.decode_buf_flat b).1 = header_size (length_encoding (b 0)) := by
  unfold decode_buf_flat header_size
  cases length_encoding (b 0) <;> rfl

theorem header_size_bounds (e : LengthEnc) : -1 ≤ header_size e ∧ header_size e ≤ 9 := by
  cases e <;> decide

/-- Whatever the bytes are, the size of a header is -1 or at most that of a compressed one of two long lengths. -/
theorem decode_buf_size_bounds (l : RdbLength) (p : Mem) :
    -1 ≤ (l.decode_buf p).1 ∧ (l.decode_buf p).1 ≤ 19 := by
  have hflat : ∀ (l : RdbLength) (q : Mem), -1 ≤ (l.decode_buf_flat q).1 ∧ (l.decode_buf_flat q).1 ≤ 9 := by
    intro l q
    rw [decode_buf_flat_size]
    exact header_size_bounds _
  unfold decode_buf
  split
  · split
    · exact ⟨Int.le_refl _, by simp only; omega⟩
    · have h₁ := hflat { l with is_lzf := true } (p.add 1)
      generalize decode_buf_flat { l with is_lzf := true } (p.add 1) = r₁ at h₁
      obtain ⟨sz, l₁⟩ := r₁
      have h₂ := hflat ⟨l₁.len, l₁.len, l₁.ival, l₁.is_enc, l₁.is_lzf⟩ (p.add (sz.toNat + 1))
      simp only at h₁ ⊢
      split
      · exact ⟨h₁.1, by omega⟩
      · split <;> simp only <;> omega
  · have h := hflat l p
    exact ⟨h.1, by omega⟩

/-- Whether a header that is not compressed is an integer is seen from its first byte too. -/
theorem decode_buf_flat_is_enc {l l' : RdbLength} {b b' : Mem} (hl : l.is_enc = l'.is_enc)
    (hb : b 0 = b' 0) : (l.decode_buf_flat b).2.is_enc = (l'.decode_buf_flat b').2.is_enc := by
  unfold decode_buf_flat
  rw [hb]
  cases length_encoding (b' 0) <;> first | rfl | exact hl

/-- The size of a header does not depend on what follows its first bytes. -/
theorem decode_buf_size_congr {p q : Mem} (h : ∀ i < 11, p i = q i) :
    (decode_buf {} p).1 = (decode_buf {} q).1 := by
  have h0 : p 0 = q 0 := h 0 (by decide)
  have h1 : (p.add 1) 0 = (q.add 1) 0 := h 1 (by decide)
  by_cases hlzf : length_encoding (q 0) = .RDB_LZF
  · have hsize := decode_buf_flat_size { is_lzf := true } (q.add 1)
    have hsize' : (decode_buf_flat { is_lzf := true } (p.add 1)).1 =
        (decode_buf_flat { is_lzf := true } (q.add 1)).1 := by
      rw [decode_buf_flat_size, decode_buf_flat_size, h1]
    have henc : (decode_buf_flat { is_lzf := true } (p.add 1)).2.is_enc =
        (decode_buf_flat { is_lzf := true } (q.add 1)).2.is_enc := decode_buf_flat_is_enc rfl h1
    have hle := (header_size_bounds (length_encoding ((q.add 1) 0))).2
    rw [← hsize] at hle
    generalize hp : decode_buf_flat { is_lzf := true } (p.add 1) = rp at hsize' henc
    generalize hq : decode_buf_flat { is_lzf := true } (q.add 1) = rq at hsize' henc hle
    obtain ⟨sz, lp⟩ := rp
    obtain ⟨sz', lq⟩ := rq
    obtain rfl : sz = sz' := hsize'
    simp only [decode_buf, h0, hlzf, Bool.false_eq_true, if_false, hp, hq]
    by_cases hneg : sz < 0
    · simp only [hneg, if_true]
    · have hat : (p.add (sz.toNat + 1)) 0 = (q.add (sz.toNat + 1)) 0 := h _ (by simp only at hle; omega)
      have henc' : (decode_buf_flat { lp with zlen := lp.len } (p.add (sz.toNat + 1))).2.is_enc =
          (decode_buf_flat { lq with zlen := lq.len } (q.add (sz.toNat + 1))).2.is_enc :=
        decode_buf_flat_is_enc henc hat
      simp only [if_neg hneg, henc', decode_buf_flat_size, hat]
      split <;> rfl
  · have hsize : ∀ m : Mem, m 0 = q 0 → (decode_buf {} m).1 = header_size (length_encoding (q 0)) := by
      intro m hm
      unfold decode_buf
      split
      · next h => exact absurd (hm ▸ h) hlzf
      · rw [decode_buf_flat_size, hm]
    rw [hsize p h0, hsize q rfl]

end rdbparser.RdbLength
