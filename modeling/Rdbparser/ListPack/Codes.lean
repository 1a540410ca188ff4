import Rdbparser.Format.Codes
import Rdbparser.ListPack.Read
import Rdbparser.ZipList.Codes

/-! What the walk over a list pack steps over, whatever the list holds. -/

namespace rdbparser

namespace RdbListPack

open format ListPackEnc

variable {l : RdbListPack} {lval t : RdbListValue}

/-- The size of the code and of the text it announces, as `next` goes on by. -/
def elem_size (l : RdbListPack) (i : Nat) : Nat :=
  lp_size (lp_code (l.base.mem i)) +
    if is_immed (lp_code (l.base.mem i)) then 0 else lp_val (lp_code (l.base.mem i)) (l.base.mem.add i)

/-- What `next` finds lies where it has gone to, and in the list with the bytes that are left out behind it. -/
theorem next_some (hl : l.end_ = l.lpbytes) (hpos : 0 < l.walk.pos lval) (h : l.next lval = (true, t)) :
    lp_code (l.base.mem (l.walk.pos lval)) ≠ LP_END ∧
      l.walk.pos t = l.walk.pos lval + l.elem_size (l.walk.pos lval) + lpback_size (l.elem_size (l.walk.pos lval)) ∧
      l.walk.pos t ≤ l.end_ := by
  change 0 < lval.entry + lval.entry_len at hpos
  change lp_code (l.base.mem (lval.entry + lval.entry_len)) ≠ _ ∧
    t.entry + t.entry_len = lval.entry + lval.entry_len + _ + _ ∧
    t.entry + t.entry_len ≤ _
  change _ ∧ _ = _ + l.elem_size (lval.entry + lval.entry_len) +
    lpback_size (l.elem_size (lval.entry + lval.entry_len)) ∧ _
  rw [RdbListPack.next] at h
  dsimp only at h
  split at h
  · split at h
    · cases h
    · next hcode =>
      obtain ⟨hin, rfl⟩ := Prod.mk.inj h
      have hin := of_decide_eq_true hin
      refine ⟨hcode, ?_, hin⟩
      rw [entry_at] at hin ⊢
      dsimp only at hin ⊢
      split at hin
      · next hnext =>
        rw [if_pos hnext, elem_size]
        cases is_immed (lp_code (l.base.mem (lval.entry + lval.entry_len))) with
        | true => exact (Nat.add_assoc _ _ _).symm
        | false => exact (Nat.add_assoc _ _ _).symm
      · dsimp only at hin
        omega
  · obtain ⟨hin, -⟩ := Prod.mk.inj h
    have hin := of_decide_eq_true hin
    omega

/-- The encodings a code is taken for. -/
def code_enc : LpCode → ListPackEnc
  | .uint7 => LP_7BIT_UINT
  | .len6 => LP_6BIT_STR
  | .int13 => LP_13BIT_INT
  | .len12 => LP_12BIT_STR
  | .len32 => LP_32BIT_STR
  | .int16 => LP_16BIT_INT
  | .int24 => LP_24BIT_INT
  | .int32 => LP_32BIT_INT
  | .int64 => LP_64BIT_INT

/-- An opcode is taken for the encoding it stands for. -/
theorem lp_code_opcode {c : LpCode} {b : UInt8} (h : c.code.opcode b = true) : lp_code b = code_enc c := by
  have hall : ∀ n < 256, c.code.opcode (UInt8.ofNat n) = true → lp_code (UInt8.ofNat n) = code_enc c := by
    cases c <;> decide +kernel
  have hb := hall b.toNat b.toNat_lt
  rw [UInt8.ofNat_toNat] at hb
  exact hb h

/-- The opcodes are the bytes that are not left out. -/
theorem opcode_iff_used (b : UInt8) : (∃ c : LpCode, c.code.opcode b = true) ↔ LpCode.unused b = false := by
  have hall : ∀ n < 256, (∃ c ∈ [LpCode.uint7, .len6, .int13, .len12, .len32, .int16, .int24, .int32, .int64],
      c.code.opcode (UInt8.ofNat n) = true) ↔ LpCode.unused (UInt8.ofNat n) = false := by decide +kernel
  have hb := hall b.toNat b.toNat_lt
  rw [UInt8.ofNat_toNat] at hb
  refine Iff.trans ⟨?_, ?_⟩ hb
  · rintro ⟨c, hop⟩
    exact ⟨c, by cases c <;> decide, hop⟩
  · rintro ⟨c, -, hop⟩
    exact ⟨c, hop⟩

theorem code_size (c : LpCode) : lp_size (code_enc c) = 1 + c.code.nbyte := by
  cases c <;> decide

/-- The length in 32 bits is announced big endian and taken little endian: it is the same either way. -/
def Palindrome (p : Mem) : Prop := le_nat ((p.add 1).take 4) = be_nat ((p.add 1).take 4)

/-- The length of the text that a code announces, in 32 bits only if it is the same either way. -/
theorem code_text (c : LpCode) {p : Mem} (hc : c = .len32 → Palindrome p) :
    (if is_immed (code_enc c) then 0 else lp_val (code_enc c) p) = c.code.text (p.take (1 + c.code.nbyte)) := by
  have hbyte := (p 0).toNat_lt
  cases c with
  | len6 =>
    change (p 0).toNat &&& 0x3f = be_nat (p.take 1) % 2 ^ 6
    rw [show p.take 1 = [p 0] from rfl, be_nat_cons, Nat.and_two_pow_sub_one_eq_mod _ 6]
    simp [be_nat, le_nat]
  | len12 =>
    change (((p 0).toNat &&& 0xf) <<< 8) ||| (p 1).toNat = be_nat (p.take 2) % 2 ^ 12
    have hlow := (p 1).toNat_lt
    rw [show p.take 2 = [p 0, p 1] from rfl, be_nat_cons, be_nat_cons, Nat.and_two_pow_sub_one_eq_mod _ 4,
      shiftLeft_or hlow]
    simp only [List.length_cons, List.length_nil, be_nat, le_nat, List.reverse_nil]
    omega
  | len32 =>
    change le_nat ((p.add 1).take 4) = be_nat (p.take (4 + 1)) % 2 ^ 32
    have hlow := be_nat_lt ((p.add 1).take 4)
    rw [Mem.take_length] at hlow
    rw [hc rfl, Mem.take_succ p 4, be_nat_cons, Mem.take_length]
    omega
  | _ => rfl

/-- The length in 32 bits that is documented. -/
theorem wide_text (p : Mem) : LpCode.len32.code.text (p.take (1 + 4)) = be_nat ((p.add 1).take 4) := by
  change be_nat (p.take (4 + 1)) % 2 ^ 32 = _
  have hlow := be_nat_lt ((p.add 1).take 4)
  rw [Mem.take_length] at hlow
  rw [Mem.take_succ p 4, be_nat_cons, Mem.take_length]
  omega

/-- The bytes behind the code and what it announces hold the size of both. -/
def Linked (l : RdbListPack) (lval t : RdbListValue) : Prop :=
  ∃ (c : LpCode) (bs : List UInt8), c.code.Coded bs ∧
    (l.base.mem.add (l.walk.pos lval)).Starts (bs ++ lpback 9 bs.length) ∧
    l.walk.pos t = l.walk.pos lval + (bs ++ lpback 9 bs.length).length

/-- What is stored where the walk goes on: an opcode, with a length in 32 bits only if it is the same in
either byte order, and the size of the element behind it. -/
def Stored (l : RdbListPack) (lval : RdbListValue) : Prop :=
  LpCode.unused (l.base.mem (l.walk.pos lval)) = false ∧
    (l.base.mem (l.walk.pos lval) = 0xf0 → Palindrome (l.base.mem.add (l.walk.pos lval))) ∧
    (l.base.mem.add (l.walk.pos lval + l.elem_size (l.walk.pos lval))).Starts
      (lpback 9 (l.elem_size (l.walk.pos lval)))

/-- The size behind an element takes no fewer bytes if the element is larger. -/
theorem lpback_size_mono {m n : Nat} (h : m ≤ n) : lpback_size m ≤ lpback_size n := by
  rw [lpback_size_eq, lpback_size_eq]
  exact lpback_length_mono 9 h

/-- The size of an element as it is documented is that of the bytes at its code. -/
theorem elem_size_coded {c : LpCode} {i : Nat} (hop : c.code.opcode (l.base.mem i) = true)
    (hc : c = .len32 → Palindrome (l.base.mem.add i)) :
    l.elem_size i = 1 + c.code.nbyte + c.code.text ((l.base.mem.add i).take (1 + c.code.nbyte)) := by
  rw [elem_size, lp_code_opcode hop, code_size, code_text c hc]

/-- A length in 32 bits that is not the same either way leads to another place. -/
theorem wide_palindrome {i : Nat} (hop : LpCode.len32.code.opcode (l.base.mem i) = true) {n : Nat}
    (hn : n = 1 + 4 + be_nat ((l.base.mem.add i).add 1 |>.take 4))
    (hsum : l.elem_size i + lpback_size (l.elem_size i) = n + lpback_size n) : Palindrome (l.base.mem.add i) := by
  have hsize : l.elem_size i = 1 + 4 + le_nat ((l.base.mem.add i).add 1 |>.take 4) := by
    rw [elem_size, lp_code_opcode hop]
    rfl
  rw [Palindrome]
  rcases Nat.lt_trichotomy (l.elem_size i) n with hlt | heq | hgt
  · have hmono := lpback_size_mono (Nat.le_of_lt hlt)
    omega
  · omega
  · have hmono := lpback_size_mono (Nat.le_of_lt hgt)
    omega

/-- An element is stepped over as it is documented if and only if it is stored so; if it is not, it is handed
out all the same. -/
theorem next_coded (hl : l.end_ = l.lpbytes) (hpos : 0 < l.walk.pos lval) (h : l.next lval = (true, t)) :
    (l.Linked lval t ↔ l.Stored lval) ∧ l.walk.pos t ≤ l.end_ := by
  obtain ⟨-, hnext, hle⟩ := next_some hl hpos h
  refine ⟨?_, hle⟩
  constructor
  · rintro ⟨c, bs, hcoded, hstarts, hend⟩
    obtain ⟨hbs, hback⟩ := Mem.starts_append.mp hstarts
    obtain ⟨hop, hlen⟩ := hcoded.at hbs
    rw [List.length_append, ← lpback_size_eq, ← Nat.add_assoc, hnext, Nat.add_assoc, Nat.add_assoc,
      Nat.add_left_cancel_iff] at hend
    have hwide : c = .len32 → Palindrome (l.base.mem.add (l.walk.pos lval)) := by
      rintro rfl
      exact wide_palindrome hop (hlen.trans (congrArg (1 + 4 + ·) (wide_text _))) hend
    have hsize : l.elem_size (l.walk.pos lval) = bs.length := (elem_size_coded hop hwide).trans hlen.symm
    refine ⟨(opcode_iff_used _).mp ⟨c, hop⟩, fun hbyte => ?_, ?_⟩
    · refine hwide ?_
      change c.code.opcode (l.base.mem (l.walk.pos lval)) = true at hop
      rw [hbyte] at hop
      revert hop
      cases c <;> decide
    · rw [hsize, ← Mem.add_add]
      exact hback
  · rintro ⟨hused, hwide, hback⟩
    obtain ⟨c, hop⟩ := (opcode_iff_used _).mpr hused
    have hsize := elem_size_coded (l := l) hop fun hc => hwide (by subst hc; exact of_decide_eq_true hop)
    refine ⟨c, _, @Code.coded_take c.code (l.base.mem.add (l.walk.pos lval)) hop, ?_, ?_⟩
    · rw [Mem.take_length, ← hsize, Mem.starts_append, Mem.take_length, Mem.add_add]
      exact ⟨by rw [Mem.Starts, Mem.take_length], hback⟩
    · rw [List.length_append, Mem.take_length, ← hsize, ← lpback_size_eq, ← Nat.add_assoc]
      exact hnext

/-- An element goes on from the place of the one before. -/
theorem next_lt (hl : l.end_ = l.lpbytes) (hpos : 0 < l.walk.pos lval) (h : l.next lval = (true, t)) :
    l.walk.pos lval < l.walk.pos t := by
  obtain ⟨hentry, hlen, -⟩ := next_bounds hl hpos h
  change lval.entry + lval.entry_len < t.entry + t.entry_len
  omega

end RdbListPack

open format

/-- What a walk over any zip list or list pack hands out is an element as it is documented if and only if its
opcode is one that is documented; in a list pack a length in 32 bits has to be the same in either byte order as
well, and the size behind the element right. Whether the opcode is one is looked at nowhere but for the end marker
of a list pack. -/
theorem list_next_coded_iff (b : Ptr) (sz : Nat) :
    (∀ z vs lval t, RdbZipList.init b sz = some z → z.walk.Path z.start vs lval → z.next lval = (true, t) →
      (z.Coded lval t ↔ ZipCode.unused (z.opcode lval) = false) ∧ z.walk.pos t ≤ z.end_) ∧
    (∀ l vs lval t, RdbListPack.init b sz = some l → l.walk.Path l.start vs lval → l.next lval = (true, t) →
      (l.Linked lval t ↔ l.Stored lval) ∧ l.walk.pos t ≤ l.end_) := by
  constructor
  · intro z vs lval t hinit hpath hnext
    obtain ⟨-, hdata, hend⟩ := RdbZipList.init_some hinit
    have hstart : 0 < z.walk.pos z.start := by
      change 0 < z.data
      omega
    have hpos := hpath.pos_pos (fun s t hs h => (RdbZipList.next_bounds hend hs h).1) hstart
    exact RdbZipList.next_coded hend hpos hnext
  · intro l vs lval t hinit hpath hnext
    obtain ⟨-, hdata, hend, -⟩ := RdbListPack.init_some hinit
    have hstart : 0 < l.walk.pos l.start := by
      change 0 < l.data
      omega
    have hpos := hpath.pos_pos (fun s t hs h => RdbListPack.next_lt hend hs h) hstart
    exact RdbListPack.next_coded hend hpos hnext

/-- The second of two entries in a zip list and in a list pack: a string with a length in 14 bits behind the
integer 1, and a string of one byte behind the integer 5. -/
theorem list_next_coded_second :
    (∃ z lval, RdbZipList.init (.lit [18, 0, 0, 0, 12, 0, 0, 0, 2, 0, 0, 0xf2, 2, 0x40, 2, 0x61, 0x62, 0xff]) 18 =
      some z ∧ z.Coded lval (z.next lval).2) ∧
    (∃ l lval, RdbListPack.init (.lit [12, 0, 0, 0, 2, 0, 5, 1, 0x81, 0x61, 2, 0xff]) 12 = some l ∧
      l.Linked lval (l.next lval).2) :=
  ⟨⟨_, ⟨none, 11, 0, 1, 1⟩, rfl, ((list_next_coded_iff
      (.lit [18, 0, 0, 0, 12, 0, 0, 0, 2, 0, 0, 0xf2, 2, 0x40, 2, 0x61, 0x62, 0xff]) 18).1 _ [_]
      ⟨none, 11, 0, 1, 1⟩ _ rfl ⟨_, rfl, rfl, rfl⟩ (by decide +kernel)).1.mpr (by decide +kernel)⟩,
    ⟨_, ⟨none, 6, 0, 2, 5⟩, rfl, ((list_next_coded_iff (.lit [12, 0, 0, 0, 2, 0, 5, 1, 0x81, 0x61, 2, 0xff]) 12).2 _
      [_] ⟨none, 6, 0, 2, 5⟩ _ rfl ⟨_, rfl, rfl, rfl⟩ (by decide +kernel)).1.mpr
      ⟨by decide, fun h => absurd h (by decide), by decide +kernel⟩⟩⟩

/-- A zip list with 0xff in the place of an opcode: an empty string is handed out. -/
theorem list_end_yielded : ¬ (
    (∀ b sz z vs lval t, RdbZipList.init b sz = some z → z.walk.Path z.start vs lval → z.next lval = (true, t) →
      z.Coded lval t) ∧
    (∀ b sz l vs lval t, RdbListPack.init b sz = some l → l.walk.Path l.start vs lval → l.next lval = (true, t) →
      l.Linked lval t)) := by
  rintro ⟨h, -⟩
  obtain ⟨prev, c, bs, hcoded, hstarts, -⟩ := h (.lit [13, 0, 0, 0, 10, 0, 0, 0, 1, 0, 0, 0xff, 0xff]) 13 _ [] _
    ⟨some 11, 11, 0, 0, 0⟩ rfl rfl (by decide +kernel)
  obtain ⟨hlink, hbs⟩ := Mem.starts_append.mp hstarts
  rw [RdbZipList.link_length hlink, Mem.add_add] at hbs
  have hop : ∃ c : ZipCode, c.code.opcode 0xff = true := ⟨c, (hcoded.at hbs).1⟩
  exact absurd ((RdbZipList.opcode_iff_used 0xff).mp hop) (by decide)

end rdbparser
