import Rdbparser.Length.Header

/-! The headers `decode_buf` takes against those of the documented grammar. -/

namespace rdbparser

open format

theorem be_bytes_be_nat (bs : List UInt8) : be_bytes bs.length (be_nat bs) = bs := by
  have h := le_bytes_le_nat bs.reverse
  rw [List.length_reverse] at h
  rw [be_bytes, be_nat, h, List.reverse_reverse]

/-- A number of `w` bits with its sign is between the two halves. -/
theorem sext_bounds {w : Nat} (hw : 0 < w) (n : Nat) :
    -(2 ^ w : Nat) ≤ 2 * sext w n ∧ 2 * sext w n < (2 ^ w : Nat) := by
  obtain ⟨w, rfl⟩ : ∃ v, w = v + 1 := ⟨w - 1, by omega⟩
  have hpos := Nat.two_pow_pos w
  have hlo := Int.le_bmod (x := (n : Int)) (m := 2 ^ (w + 1)) (Nat.two_pow_pos _)
  have hhi := Int.bmod_lt (x := (n : Int)) (m := 2 ^ (w + 1)) (Nat.two_pow_pos _)
  rw [sext, Nat.pow_succ] at *
  omega

namespace format

/-- The type of a length in this form. -/
def LenForm.enc : LenForm → LengthEnc
  | .len6 => .RDB_LEN_6
  | .len14 => .RDB_LEN_14
  | .len32 => .RDB_LEN_32
  | .len64 => .RDB_LEN_64

def IntForm.enc : IntForm → LengthEnc
  | .int8 => .RDB_INT8
  | .int16 => .RDB_INT16
  | .int32 => .RDB_INT32

theorem IntForm.first_byte (form : IntForm) (b : UInt8) : RdbLength.length_encoding b = form.enc → b = form.code := by
  revert b
  cases form <;>
    · refine RdbLength.forall_byte ?_
      decide +kernel

/-- Bytes that start like a length are one. -/
theorem StoredLen.exists_starts {p : Mem} (form : LenForm) (h : RdbLength.length_encoding (p 0) = form.enc) :
    ∃ l : StoredLen, p.Starts l.bytes := by
  have hbytes : ∀ k, (p.add 1).Starts (be_bytes k (be_nat ((p.add 1).take k))) := fun k => by
    have h := be_bytes_be_nat ((p.add 1).take k)
    rw [Mem.take_length] at h
    rw [h, Mem.Starts, Mem.take_length]
  have hlt : ∀ k, be_nat ((p.add 1).take k) < 256 ^ k := fun k => by
    have h := be_nat_lt ((p.add 1).take k)
    rwa [Mem.take_length] at h
  cases form with
  | len6 =>
    have hfirst := RdbLength.forall_byte (P := fun b => RdbLength.length_encoding b = .RDB_LEN_6 → b.toNat < 2 ^ 6)
      (by decide +kernel) (p 0) h
    refine ⟨⟨.len6, (p 0).toNat, hfirst⟩, Mem.starts_cons.mpr ⟨?_, Mem.starts_nil _⟩⟩
    exact UInt8.ofNat_toNat.symm
  | len14 =>
    have hfirst := RdbLength.forall_byte (P := fun b => RdbLength.length_encoding b = .RDB_LEN_14 →
      0x40 ≤ b.toNat ∧ b.toNat < 0x80) (by decide +kernel) (p 0) h
    have hb := (p 1).toNat_lt
    refine ⟨⟨.len14, ((p 0).toNat - 0x40) * 256 + (p 1).toNat, ?_⟩, ?_⟩
    · change _ < 2 ^ 14
      omega
    · have hhi : 0x40 + (((p 0).toNat - 0x40) * 256 + (p 1).toNat) / 256 = (p 0).toNat := by omega
      refine Mem.starts_cons.mpr ⟨?_, Mem.starts_cons.mpr ⟨?_, Mem.starts_nil _⟩⟩
      · rw [hhi, UInt8.ofNat_toNat]
      · apply UInt8.toNat_inj.mp
        rw [UInt8.toNat_ofNat']
        change (p 1).toNat = (((p 0).toNat - 0x40) * 256 + (p 1).toNat) % 256
        omega
  | len32 =>
    have hfirst := RdbLength.forall_byte (P := fun b => RdbLength.length_encoding b = .RDB_LEN_32 → b = 0x80)
      (by decide +kernel) (p 0) h
    exact ⟨⟨.len32, be_nat ((p.add 1).take 4), hlt 4⟩, Mem.starts_cons.mpr ⟨hfirst, hbytes 4⟩⟩
  | len64 =>
    have hfirst := RdbLength.forall_byte (P := fun b => RdbLength.length_encoding b = .RDB_LEN_64 → b = 0x81)
      (by decide +kernel) (p 0) h
    exact ⟨⟨.len64, be_nat ((p.add 1).take 8), hlt 8⟩, Mem.starts_cons.mpr ⟨hfirst, hbytes 8⟩⟩

/-- The first byte of an encoded integer has one behind it, whatever the bytes are. -/
theorem StoredInt.exists_starts {p : Mem} (form : IntForm) (h : RdbLength.length_encoding (p 0) = form.enc) :
    ∃ i : StoredInt, p.Starts i.bytes := by
  have hw : 0 < 8 * form.nbyte := by
    have := form.nbyte_ne
    omega
  have hbounds := sext_bounds hw (le_nat ((p.add 1).take form.nbyte))
  refine ⟨⟨form, _, hbounds.1, hbounds.2⟩, ?_⟩
  have hbytes := le_bytes_le_nat ((p.add 1).take form.nbyte)
  rw [Mem.take_length] at hbytes
  rw [StoredInt.bytes, Mem.starts_cons]
  refine ⟨form.first_byte _ h, ?_⟩
  simp only [twos_sext]
  rw [Nat.pow_mul, le_bytes_mod, hbytes, Mem.Starts, Mem.take_length]

end format

namespace RdbLength

/-- Every type of a byte. -/
theorem length_encoding_cases (e : LengthEnc) :
    (∃ form : LenForm, e = form.enc) ∨ (∃ form : IntForm, e = form.enc) ∨ e = .RDB_LZF ∨ e = .RDB_LEN_ERR := by
  cases e with
  | RDB_LEN_6 => exact .inl ⟨.len6, rfl⟩
  | RDB_LEN_14 => exact .inl ⟨.len14, rfl⟩
  | RDB_LEN_32 => exact .inl ⟨.len32, rfl⟩
  | RDB_LEN_64 => exact .inl ⟨.len64, rfl⟩
  | RDB_INT8 => exact .inr (.inl ⟨.int8, rfl⟩)
  | RDB_INT16 => exact .inr (.inl ⟨.int16, rfl⟩)
  | RDB_INT32 => exact .inr (.inl ⟨.int32, rfl⟩)
  | RDB_LZF => exact .inr (.inr (.inl rfl))
  | RDB_LEN_ERR => exact .inr (.inr (.inr rfl))

/-- A byte that starts neither a plain length nor an integer. -/
def no_length (b : UInt8) : Prop := 0x82 ≤ b ∧ b ≤ 0xbf ∨ 0xc3 ≤ b

theorem no_length_iff (b : UInt8) :
    no_length b ↔ length_encoding b = .RDB_LZF ∨ length_encoding b = .RDB_LEN_ERR := by
  revert b
  unfold no_length
  refine forall_byte ?_
  decide +kernel

/-- A compressed header whose second length is none. -/
def Unchecked (p : Mem) : Prop :=
  ∃ zlen : StoredLen, p.Starts (0xc3 :: zlen.bytes) ∧ no_length (p (1 + zlen.bytes.length))

theorem decode_buf_flat_no_length (l : RdbLength) {b : Mem} (h : no_length (b 0)) : decode_buf_flat l b = (-1, l) := by
  unfold decode_buf_flat
  rcases (no_length_iff _).mp h with henc | henc <;> rw [henc]

/-- An integer is marked as such, and the mark stays. -/
theorem decode_buf_flat_int {l : RdbLength} {b : Mem} {form : IntForm} (h : length_encoding (b 0) = form.enc) :
    (decode_buf_flat l b).2.is_enc ≠ 0 := by
  unfold decode_buf_flat
  rw [h]
  cases form <;> exact Nat.succ_ne_zero _

theorem decode_buf_flat_mark {l : RdbLength} (h : l.is_enc ≠ 0) (b : Mem) : (decode_buf_flat l b).2.is_enc ≠ 0 := by
  unfold decode_buf_flat
  cases length_encoding (b 0) <;> first | exact h | exact Nat.succ_ne_zero _

/-- The two lengths of a compressed header. -/
theorem decode_buf_lzf_eq {l : RdbLength} {p : Mem} (hl : l.is_lzf = false) (h : length_encoding (p 0) = .RDB_LZF) :
    decode_buf l p =
      (let r := decode_buf_flat { l with is_lzf := true } (p.add 1)
       if r.1 < 0 then r
       else
         let r' := decode_buf_flat { r.2 with zlen := r.2.len } (p.add (r.1.toNat + 1))
         if r'.2.is_enc ≠ 0 then (-1, r'.2) else (1 + r.1 + r'.1, r'.2)) := by
  simp only [decode_buf, h, hl, Bool.false_eq_true, if_false]

/-- What is made of a second length that is none. -/
theorem decode_buf_unchecked {p : Mem} (zlen : StoredLen) (hp : p.Starts (0xc3 :: zlen.bytes))
    (hb : no_length (p (1 + zlen.bytes.length))) :
    decode_buf {} p = ((zlen.bytes.length : Int), { len := zlen.val, zlen := zlen.val, is_lzf := true }) := by
  obtain ⟨h0, hz⟩ := Mem.starts_cons.mp hp
  have henc : length_encoding (p 0) = .RDB_LZF := by rw [h0]; rfl
  have hsecond : no_length ((p.add (zlen.bytes.length + 1)) 0) := by
    rw [Mem.add_apply, Nat.add_zero, Nat.add_comm]
    exact hb
  rw [decode_buf_lzf_eq rfl henc]
  simp only [decode_buf_flat_len _ zlen hz, if_neg (show ¬ ((zlen.bytes.length : Int) < 0) by omega), Int.toNat_natCast,
    decode_buf_flat_no_length _ hsecond]
  simp

/-- Bytes start with a header, are rejected, or are a compressed header whose second length is none. -/
theorem decode_buf_cases (p : Mem) :
    (∃ h : Header, p.Starts h.bytes) ∨ (decode_buf {} p).1 < 0 ∨ Unchecked p := by
  have hflat : ∀ e, length_encoding (p 0) = e → e ≠ .RDB_LZF → decode_buf {} p = decode_buf_flat {} p := by
    intro e he hne
    unfold decode_buf
    rw [he]
    cases e <;> first | rfl | exact absurd rfl hne
  rcases length_encoding_cases (length_encoding (p 0)) with ⟨form, h⟩ | ⟨form, h⟩ | h | h
  · obtain ⟨l, hl⟩ := StoredLen.exists_starts form h
    exact .inl ⟨.plain l, hl⟩
  · obtain ⟨i, hi⟩ := StoredInt.exists_starts form h
    exact .inl ⟨.int i, hi⟩
  · have h0 : p 0 = 0xc3 := forall_byte (P :=
      fun b => length_encoding b = .RDB_LZF → b = 0xc3) (by decide +kernel) (p 0) h
    rcases length_encoding_cases (length_encoding ((p.add 1) 0)) with ⟨form, h1⟩ | ⟨form, h1⟩ | hno
    · obtain ⟨zlen, hz⟩ := StoredLen.exists_starts form h1
      have hsecond : p (1 + zlen.bytes.length) = (p.add (zlen.bytes.length + 1)) 0 := by
        rw [Mem.add_apply, Nat.add_zero, Nat.add_comm]
      rcases length_encoding_cases (length_encoding (p (1 + zlen.bytes.length))) with ⟨form, h2⟩ | ⟨form, h2⟩ | hno
      · obtain ⟨len, hl⟩ := StoredLen.exists_starts (p := p.add (1 + zlen.bytes.length)) form h2
        refine .inl ⟨.lzf zlen len, Mem.starts_cons.mpr ⟨h0, Mem.starts_append.mpr ⟨hz, ?_⟩⟩⟩
        rwa [Mem.add_add]
      · refine .inr (.inl ?_)
        rw [hsecond] at h2
        rw [decode_buf_lzf_eq rfl h]
        simp only [decode_buf_flat_len _ zlen hz, if_neg (show ¬ ((zlen.bytes.length : Int) < 0) by omega),
          Int.toNat_natCast, if_pos (decode_buf_flat_int h2)]
        decide
      · exact .inr (.inr ⟨zlen, Mem.starts_cons.mpr ⟨h0, hz⟩, (no_length_iff _).mpr hno⟩)
    · refine .inr (.inl ?_)
      rw [decode_buf_lzf_eq rfl h]
      generalize hr : decode_buf_flat { is_lzf := true } (p.add 1) = r
      have hmark : r.2.is_enc ≠ 0 := hr ▸ decode_buf_flat_int h1
      simp only [if_pos (decode_buf_flat_mark (l := { r.2 with zlen := r.2.len }) hmark _)]
      split
      · assumption
      · exact Int.negSucc_lt_zero 0
    · refine .inr (.inl ?_)
      rw [decode_buf_lzf_eq rfl h, decode_buf_flat_no_length _ ((no_length_iff _).mpr hno)]
      exact Int.negSucc_lt_zero 0
  · refine .inr (.inl ?_)
    rw [hflat _ h nofun, decode_buf_flat_no_length _ ((no_length_iff _).mpr (.inr h))]
    decide

/-- A second length that is none is not the start of a header. -/
theorem Unchecked.not_header {p : Mem} (h : Unchecked p) (hdr : Header) : ¬ p.Starts hdr.bytes := by
  obtain ⟨zlen, hp, hb⟩ := h
  intro hhdr
  have hvalue := (decode_buf_header hdr hhdr).symm.trans (decode_buf_unchecked zlen hp hb)
  cases hdr with
  | plain l => exact absurd (congrArg (fun r => r.2.is_lzf) hvalue) Bool.false_ne_true
  | int i => exact absurd (congrArg (fun r => r.2.is_lzf) hvalue) Bool.false_ne_true
  | lzf zlen' len' =>
    have hz := (Mem.starts_cons.mp hp).2
    have hz' := (Mem.starts_append.mp (Mem.starts_cons.mp hhdr).2).1
    have hsame := congrArg Prod.fst ((decode_buf_flat_len {} zlen hz).symm.trans (decode_buf_flat_len {} zlen' hz'))
    have hsize := congrArg Prod.fst hvalue
    simp only [Header.bytes, List.length_cons, List.length_append] at hsame hsize
    omega

/-- What `decode_buf` is to make of bytes: the size and the fields of the header they start with, and a negative
number if they start with none. -/
def Documented (p : Mem) (bs : List UInt8) : Prop :=
  (0 < (decode_buf {} p).1 ↔ ∃ h : Header, h.bytes <+: bs) ∧
    (∀ h : Header, h.bytes <+: bs → decode_buf {} p = ((h.bytes.length : Int), ofHeader h)) ∧
      ((¬ ∃ h : Header, h.bytes <+: bs) → (decode_buf {} p).1 < 0)

/-- The bytes start with a compressed header whose second length is none. -/
theorem unchecked_iff {p : Mem} {bs : List UInt8} (hlen : 19 ≤ bs.length) (hp : p.Starts bs) :
    (∃ (zlen : StoredLen) (b : UInt8), 0xc3 :: (zlen.bytes ++ [b]) <+: bs ∧ no_length b) ↔ Unchecked p := by
  have hstarts : ∀ (zlen : StoredLen) (b : UInt8), 0xc3 :: (zlen.bytes ++ [b]) <+: bs ↔
      p.Starts (0xc3 :: zlen.bytes) ∧ p (1 + zlen.bytes.length) = b := by
    intro zlen b
    have hle := zlen.bytes_length.2
    have hone : ∀ q : Mem, q.Starts [b] ↔ q 0 = b ∧ (q.add 1).Starts [] := fun q => Mem.starts_cons
    rw [hp.prefix_iff (by simp only [List.length_cons, List.length_append, List.length_nil]; omega),
      ← List.cons_append, Mem.starts_append, List.length_cons, Nat.add_comm zlen.bytes.length 1, hone,
      Mem.add_apply, Nat.add_zero]
    exact and_congr_right fun _ => and_iff_left (Mem.starts_nil _)
  constructor
  · rintro ⟨zlen, b, hin, hb⟩
    obtain ⟨hz, rfl⟩ := (hstarts zlen b).mp hin
    exact ⟨zlen, hz, hb⟩
  · rintro ⟨zlen, hz, hb⟩
    exact ⟨zlen, _, (hstarts zlen _).mpr ⟨hz, rfl⟩, hb⟩

/-- `decode_buf` does so unless the bytes start with a compressed header whose second length is none, which it
takes for a shorter header. No header is longer than the nineteen bytes that are asked for; nothing else is
assumed of them. -/
theorem decode_buf_documented_iff {p : Mem} {bs : List UInt8} (hlen : 19 ≤ bs.length) (hp : p.Starts bs) :
    Documented p bs ↔ ¬ ∃ (zlen : StoredLen) (b : UInt8), 0xc3 :: (zlen.bytes ++ [b]) <+: bs ∧ no_length b := by
  have hheader : ∀ h : Header, h.bytes <+: bs ↔ p.Starts h.bytes := fun h =>
    hp.prefix_iff (Nat.le_trans h.bytes_length.2 hlen)
  rw [unchecked_iff hlen hp]
  simp only [Documented, hheader]
  constructor
  · rintro ⟨hpos, -, -⟩ hun
    obtain ⟨zlen, hz, hb⟩ := hun
    have hsize := zlen.bytes_length.1
    obtain ⟨h, hh⟩ := hpos.mp (by rw [decode_buf_unchecked zlen hz hb]; simp only; omega)
    exact Unchecked.not_header ⟨zlen, hz, hb⟩ h hh
  · intro hok
    have hsome : ∀ h : Header, p.Starts h.bytes → 0 < (decode_buf {} p).1 := fun h hh => by
      have := h.bytes_length.1
      rw [decode_buf_header h hh]
      simp only
      omega
    have hnone : (¬ ∃ h : Header, p.Starts h.bytes) → (decode_buf {} p).1 < 0 := fun hno =>
      (decode_buf_cases p).elim (fun h => absurd h hno) fun h => h.elim id fun h => absurd h hok
    refine ⟨⟨fun hpos => ?_, fun ⟨h, hh⟩ => hsome h hh⟩, fun h hh => decode_buf_header h hh, hnone⟩
    by_contra hno
    have := hnone hno
    omega

/-- The header of a compressed string: 300 bytes for 2^32 of them. -/
def zipped_header : Header := .lzf ⟨.len14, 300, by decide⟩ ⟨.len64, 2 ^ 32, by decide⟩

theorem decode_buf_documented_zipped :
    Documented (Mem.ofList (zipped_header.bytes ++ List.replicate 8 0) 0)
      (zipped_header.bytes ++ List.replicate 8 0) := by
  have hlen : 19 ≤ (zipped_header.bytes ++ List.replicate 8 0).length := by decide
  have hstarts := Mem.ofList_starts (zipped_header.bytes ++ List.replicate 8 0) 0
  refine (decode_buf_documented_iff hlen hstarts).mpr fun h => ?_
  exact ((unchecked_iff hlen hstarts).mp h).not_header zipped_header (Mem.starts_append.mp hstarts).1

/-- Of a compressed header with an end marker for its second length only the size of the first is returned. -/
theorem unchecked_header_taken : ¬ ∀ (p : Mem) (bs : List UInt8), 19 ≤ bs.length → p.Starts bs → Documented p bs := by
  intro h
  have hdoc := h (Mem.ofList (0xc3 :: 0x00 :: 0xff :: List.replicate 16 0) 0) _ (by decide) (Mem.ofList_starts _ 0)
  obtain ⟨hdr, hhdr⟩ := hdoc.1.mp (by decide +kernel)
  have hstarts := (Mem.ofList_starts _ 0).prefix_iff (Nat.le_trans hdr.bytes_length.2 (by decide)) |>.mp hhdr
  exact Unchecked.not_header ⟨⟨.len6, 0, by decide⟩, by decide, .inr (by decide)⟩ hdr hstarts

end RdbLength

end rdbparser
