import Rdbparser.Format.Codes
import Rdbparser.ZipList.Walk

/-! What the walk over a zip list steps over, whatever the list holds. -/

namespace rdbparser.RdbZipList

open format ZipLinkEnc

variable {z : RdbZipList} {lval t : RdbListValue}

/-- What `init` makes of a blob. -/
theorem init_some {b : Ptr} {sz : Nat} (h : RdbZipList.init b sz = some z) :
    z.base = b ∧ z.data = 10 ∧ z.end_ = z.zlbytes := by
  unfold RdbZipList.init at h
  split at h
  · cases h
  · dsimp only at h
    split at h
    · cases h
    · obtain rfl := Option.some.inj h
      exact ⟨rfl, rfl, rfl⟩

/-- An entry that is looked at stays where it is. -/
theorem entry_at_entry (z : RdbZipList) (lval : RdbListValue) : (z.entry_at lval).entry = lval.entry := by
  rw [entry_at]
  split
  · dsimp only
    split
    · split <;> rfl
    · rfl
  · rfl

/-- An entry that is all in the list. -/
theorem entry_at_in (hfail : z.end_ < lval.entry + lval.entry_len)
    (hin : (z.entry_at lval).entry + (z.entry_at lval).entry_len ≤ z.end_) :
    (z.entry_at lval).entry_len = zlink_size (zlink_next (z.base.mem lval.entry)) +
      if is_immed (zlink_next (z.base.mem lval.entry)) then 0
      else zlink_val (zlink_next (z.base.mem lval.entry)) (z.base.mem.add lval.entry) := by
  rw [entry_at] at hin ⊢
  split at hin
  · next hlt =>
    rw [if_pos hlt]
    dsimp only at hin ⊢
    split at hin
    · next hnext =>
      rw [if_pos hnext]
      cases himm : is_immed (zlink_next (z.base.mem lval.entry)) with
      | true => rfl
      | false => rfl
    · omega
  · omega

/-- What `next` finds lies behind a link to the entry before, and in the list. -/
theorem next_some (hz : z.end_ = z.zlbytes) (hpos : 0 < z.walk.pos lval) (h : z.next lval = (true, t)) :
    zlink_prev (z.base.mem (z.walk.pos lval)) ≠ ZIP_END ∧
      t.entry = z.walk.pos lval + zlink_size (zlink_prev (z.base.mem (z.walk.pos lval))) ∧
      t.entry_len = (zlink_size (zlink_next (z.base.mem t.entry)) +
        if is_immed (zlink_next (z.base.mem t.entry)) then 0
        else zlink_val (zlink_next (z.base.mem t.entry)) (z.base.mem.add t.entry)) ∧
      z.walk.pos t ≤ z.end_ := by
  change 0 < lval.entry + lval.entry_len at hpos
  change zlink_prev (z.base.mem (lval.entry + lval.entry_len)) ≠ _ ∧ t.entry = lval.entry + lval.entry_len + _ ∧ _ ∧
    t.entry + t.entry_len ≤ _
  rw [RdbZipList.next] at h
  dsimp only at h
  split at h
  · split at h
    · cases h
    · next hprev =>
      obtain ⟨hin, rfl⟩ := Prod.mk.inj h
      have hin := of_decide_eq_true hin
      have hlen := entry_at_in (by dsimp only; omega) hin
      rw [entry_at_entry] at *
      exact ⟨hprev, rfl, hlen, hin⟩
  · obtain ⟨hin, -⟩ := Prod.mk.inj h
    have hin := of_decide_eq_true hin
    omega

/-- The link to the entry before takes a byte at least, if it is one. -/
theorem zlink_size_prev {n : UInt8} (h : zlink_prev n ≠ ZIP_END) : 0 < zlink_size (zlink_prev n) := by
  rw [zlink_prev] at h ⊢
  split at h
  · next hlt =>
    rw [if_pos hlt]
    decide
  · next hlt =>
    split at h
    · exact absurd rfl h
    · next hend =>
      rw [if_neg hlt, if_neg hend]
      decide

/-- An entry lies behind the one before it, and in the list. -/
theorem next_bounds (hz : z.end_ = z.zlbytes) (hpos : 0 < z.walk.pos lval) (h : z.next lval = (true, t)) :
    z.walk.pos lval < z.walk.pos t ∧ z.walk.pos t ≤ z.end_ := by
  obtain ⟨hprev, hentry, -, hle⟩ := next_some hz hpos h
  have hsize := zlink_size_prev hprev
  refine ⟨?_, hle⟩
  change _ < t.entry + t.entry_len
  omega

/-- The encodings a code is taken for. -/
def code_enc : ZipCode → ZipLinkEnc
  | .len6 => LEN_6
  | .len14 => BIG_14
  | .len32 => BIG_32
  | .int16 => IMMED_16
  | .int32 => IMMED_32
  | .int64 => IMMED_64
  | .int24 => IMMED_24
  | .int8 => IMMED_8
  | .int4 => IMMED_4

/-- An opcode is taken for the encoding it stands for. -/
theorem zlink_next_opcode {c : ZipCode} {b : UInt8} (h : c.code.opcode b = true) : zlink_next b = code_enc c := by
  have hall : ∀ n < 256, c.code.opcode (UInt8.ofNat n) = true → zlink_next (UInt8.ofNat n) = code_enc c := by
    cases c <;> decide +kernel
  have hb := hall b.toNat b.toNat_lt
  rw [UInt8.ofNat_toNat] at hb
  exact hb h

/-- The opcodes are the bytes that are not left out. -/
theorem opcode_iff_used (b : UInt8) : (∃ c : ZipCode, c.code.opcode b = true) ↔ ZipCode.unused b = false := by
  have hall : ∀ n < 256, (∃ c ∈ [ZipCode.len6, .len14, .len32, .int16, .int32, .int64, .int24, .int8, .int4],
      c.code.opcode (UInt8.ofNat n) = true) ↔ ZipCode.unused (UInt8.ofNat n) = false := by decide +kernel
  have hb := hall b.toNat b.toNat_lt
  rw [UInt8.ofNat_toNat] at hb
  refine Iff.trans ⟨?_, ?_⟩ hb
  · rintro ⟨c, hop⟩
    exact ⟨c, by cases c <;> decide, hop⟩
  · rintro ⟨c, -, hop⟩
    exact ⟨c, hop⟩

theorem code_size (c : ZipCode) : zlink_size (code_enc c) = 1 + c.code.nbyte := by
  cases c <;> decide

/-- The length of the text that a code announces. -/
theorem code_text (c : ZipCode) (p : Mem) : (if is_immed (code_enc c) then 0 else zlink_val (code_enc c) p) =
    c.code.text (p.take (1 + c.code.nbyte)) := by
  have hbyte := (p 0).toNat_lt
  cases c with
  | len6 =>
    change (p 0).toNat &&& 0x3f = be_nat (p.take 1) % 2 ^ 6
    rw [show p.take 1 = [p 0] from rfl, be_nat_cons, Nat.and_two_pow_sub_one_eq_mod _ 6]
    simp [be_nat, le_nat]
  | len14 =>
    change (((p 0).toNat &&& 0x3f) <<< 8) ||| (p 1).toNat = be_nat (p.take 2) % 2 ^ 14
    have hlow := (p 1).toNat_lt
    rw [show p.take 2 = [p 0, p 1] from rfl, be_nat_cons, be_nat_cons,
      Nat.and_two_pow_sub_one_eq_mod _ 6, shiftLeft_or hlow]
    simp only [List.length_cons, List.length_nil, be_nat, le_nat, List.reverse_nil]
    omega
  | len32 =>
    change be_nat ((p.add 1).take 4) = be_nat (p.take (4 + 1)) % 2 ^ 32
    have hlow := be_nat_lt ((p.add 1).take 4)
    rw [Mem.take_length] at hlow
    rw [Mem.take_succ p 4, be_nat_cons, Mem.take_length]
    omega
  | _ => rfl

/-- A link to the entry before, a code and what it announces lie between two places of the walk. -/
def Coded (z : RdbZipList) (lval t : RdbListValue) : Prop :=
  ∃ (prev : ZipPrev) (c : ZipCode) (bs : List UInt8), c.code.Coded bs ∧
    (z.base.mem.add (z.walk.pos lval)).Starts (prev.bytes ++ bs) ∧
      z.walk.pos t = z.walk.pos lval + (prev.bytes ++ bs).length

/-- What is taken for a link to the entry before is one. -/
theorem zlink_prev_link {p : Mem} (h : zlink_prev (p 0) ≠ ZIP_END) : ∃ prev : ZipPrev, p.Starts prev.bytes := by
  rw [zlink_prev] at h
  by_cases hlt : p 0 < 0xfe
  · refine ⟨.len8 (p 0).toNat (UInt8.lt_iff_toNat_lt.mp hlt), Mem.starts_cons.mpr ⟨?_, Mem.starts_nil _⟩⟩
    rw [UInt8.ofNat_toNat]
  · rw [if_neg hlt] at h
    split at h
    · exact absurd rfl h
    · next hend =>
      have hval := le_nat_lt ((p.add 1).take 4)
      rw [Mem.take_length] at hval
      have hbytes := le_bytes_le_nat ((p.add 1).take 4)
      rw [Mem.take_length] at hbytes
      refine ⟨.len32 (le_nat ((p.add 1).take 4)) hval, Mem.starts_cons.mpr ⟨?_, ?_⟩⟩
      · rw [UInt8.lt_iff_toNat_lt] at hlt
        rw [← UInt8.toNat_inj] at hend ⊢
        have hbyte := (p 0).toNat_lt
        simp only [UInt8.reduceToNat] at hlt hend ⊢
        omega
      · rw [hbytes, Mem.Starts, Mem.take_length]

/-- The byte in the place of an opcode: behind a link to the entry before of one byte or of five. -/
def opcode (z : RdbZipList) (lval : RdbListValue) : UInt8 :=
  z.base.mem (z.walk.pos lval + if z.base.mem (z.walk.pos lval) = 0xfe then 5 else 1)

/-- A link to the entry before is as long as its first byte says. -/
theorem link_length {prev : ZipPrev} {p : Mem} (hp : p.Starts prev.bytes) :
    prev.bytes.length = if p 0 = 0xfe then 5 else 1 := by
  cases prev with
  | len8 n fits =>
    have h0 : p 0 = UInt8.ofNat n := (Mem.starts_cons.mp hp).1
    have hne : ∀ n < 0xfe, UInt8.ofNat n ≠ 0xfe := by decide +kernel
    rw [h0, if_neg (hne n fits)]
    rfl
  | len32 n fits =>
    have h0 : p 0 = 0xfe := (Mem.starts_cons.mp hp).1
    rw [h0, if_pos rfl, ZipPrev.bytes, List.length_cons, le_bytes_length]

/-- An entry is stepped over as it is documented if and only if it has an opcode; if it has none, it is handed
out all the same. -/
theorem next_coded (hz : z.end_ = z.zlbytes) (hpos : 0 < z.walk.pos lval) (h : z.next lval = (true, t)) :
    (z.Coded lval t ↔ ZipCode.unused (z.opcode lval) = false) ∧ z.walk.pos t ≤ z.end_ := by
  obtain ⟨hprev, hentry, hlen, hle⟩ := next_some hz hpos h
  refine ⟨?_, hle⟩
  obtain ⟨prev, hlink⟩ := @zlink_prev_link (z.base.mem.add (z.walk.pos lval)) hprev
  obtain ⟨-, hsize⟩ := zlink_prev_bytes prev hlink
  change zlink_size (zlink_prev (z.base.mem (z.walk.pos lval))) = _ at hsize
  have hplace : z.opcode lval = z.base.mem (z.walk.pos lval + prev.bytes.length) := by
    rw [link_length hlink]
    rfl
  rw [← opcode_iff_used]
  constructor
  · rintro ⟨prev', c, bs, hcoded, hstarts, -⟩
    obtain ⟨hlink', hbs⟩ := Mem.starts_append.mp hstarts
    rw [link_length hlink', ← link_length hlink, Mem.add_add] at hbs
    exact ⟨c, hplace ▸ (hcoded.at hbs).1⟩
  · rintro ⟨c, hop⟩
    rw [hplace, ← hsize, ← hentry] at hop
    rw [zlink_next_opcode hop, code_size, code_text] at hlen
    refine ⟨prev, c, _, @Code.coded_take c.code (z.base.mem.add t.entry) hop, ?_, ?_⟩
    · rw [Mem.starts_append, Mem.add_add, ← hsize, ← hentry, Mem.Starts, Mem.Starts, Mem.take_length]
      exact ⟨hlink, rfl⟩
    · rw [List.length_append, Mem.take_length, ← hsize, ← Nat.add_assoc, ← hentry, ← hlen]
      rfl

end rdbparser.RdbZipList
