import Rdbparser.Crc.Slice

namespace rdbparser

/-! The tables against the register that is shifted bit by bit. -/

/-- One turn of the register of the reflected crc, which takes its low bit. -/
def crc_bit_turn (crc : BitVec 64) : BitVec 64 :=
  if crc.getLsbD 0 then (crc >>> 1) ^^^ POLY.reverse else crc >>> 1

def crc_bit_turns : Nat → BitVec 64 → BitVec 64
  | 0, crc => crc
  | k + 1, crc => crc_bit_turns k (crc_bit_turn crc)

/-- The crc of bytes, one bit at a time. -/
def crc64_bits (crc : BitVec 64) (bs : List UInt8) : BitVec 64 :=
  bs.foldl (fun crc b => crc_bit_turns 8 (crc ^^^ b.toBitVec.setWidth 64)) crc

/-- A turn of one bit is linear. -/
theorem crc_bit_turn_xor (x y : BitVec 64) : crc_bit_turn (x ^^^ y) = crc_bit_turn x ^^^ crc_bit_turn y := by
  simp only [crc_bit_turn, BitVec.getLsbD_xor, BitVec.ushiftRight_xor_distrib]
  generalize x >>> 1 = u
  generalize y >>> 1 = v
  generalize POLY.reverse = p
  apply BitVec.eq_of_getLsbD_eq
  intro i hi
  cases x.getLsbD 0 <;> cases y.getLsbD 0 <;>
    simp only [Bool.xor_false, Bool.xor_true, Bool.not_false, Bool.not_true, if_true, Bool.false_eq_true, if_false,
      BitVec.getLsbD_xor] <;>
    cases u.getLsbD i <;> cases v.getLsbD i <;> cases p.getLsbD i <;> rfl

theorem crc_bit_turns_xor (k : Nat) (x y : BitVec 64) :
    crc_bit_turns k (x ^^^ y) = crc_bit_turns k x ^^^ crc_bit_turns k y := by
  induction k generalizing x y with
  | zero => rfl
  | succ k ih => rw [crc_bit_turns, crc_bit_turn_xor, ih, crc_bit_turns, crc_bit_turns]

theorem crc_bit_turns_succ (k : Nat) (x : BitVec 64) : crc_bit_turns (k + 1) x = crc_bit_turn (crc_bit_turns k x) := by
  induction k generalizing x with
  | zero => rfl
  | succ k ih => rw [crc_bit_turns, ih, crc_bit_turns]

/-- Bits that are not at the low end only move down. -/
theorem crc_bit_turns_high (k : Nat) {x : BitVec 64} (h : ∀ i < k, x.getLsbD i = false) :
    crc_bit_turns k x = x >>> k := by
  induction k generalizing x with
  | zero => simp [crc_bit_turns]
  | succ k ih =>
    have h0 := h 0 (Nat.succ_pos k)
    rw [crc_bit_turns, crc_bit_turn, h0, if_neg Bool.false_ne_true, ih, ← BitVec.shiftRight_add, Nat.add_comm]
    intro i hi
    rw [BitVec.getLsbD_ushiftRight]
    exact h _ (by omega)

/-- `crc_reflect` turns a word around, its low bit being there already. -/
theorem crc_reflect_getLsbD (k : Nat) (crc val : BitVec 64) {i : Nat} (hi : i < 64) :
    (crc_reflect k crc val).getLsbD i = if i < k then crc.getLsbD (k - i) else val.getLsbD (i - k) := by
  induction k generalizing crc val with
  | zero => simp [crc_reflect]
  | succ k ih =>
    rw [crc_reflect, ih]
    simp only [BitVec.getLsbD_or, BitVec.getLsbD_and, BitVec.getLsbD_ushiftRight, BitVec.getLsbD_shiftLeft,
      BitVec.getLsbD_one]
    rcases Nat.lt_trichotomy i k with hlt | rfl | hgt
    · rw [if_pos hlt, if_pos (by omega), show 1 + (k - i) = k + 1 - i by omega]
    · simp
    · rw [if_neg (by omega), if_neg (by omega), show i - (k + 1) = i - k - 1 by omega]
      simp [show i - k ≠ 0 by omega, show i - k < 64 by omega, show ¬ i - k < 1 by omega]

/-- The loop that reflects a crc reverses its bits. -/
theorem crc_reflect_eq (crc : BitVec 64) : crc_reflect 63 crc (crc &&& 1#64) = crc.reverse := by
  apply BitVec.eq_of_getLsbD_eq
  intro i hi
  rw [crc_reflect_getLsbD 63 crc _ hi, BitVec.getLsbD_reverse, BitVec.getMsbD_eq_getLsbD]
  split
  · simp [hi]
  · obtain rfl : i = 63 := by omega
    simp

/-- The bit `i` of a byte alone, at the low end of the register. -/
def bit_at (n : BitVec 8) (i : Nat) : BitVec 64 := (BitVec.ofBool (n.getLsbD i)).setWidth 64

theorem bit_at_getLsbD (n : BitVec 8) (i j : Nat) : (bit_at n i).getLsbD j = (decide (j = 0) && n.getLsbD i) := by
  rw [bit_at, BitVec.getLsbD_setWidth, BitVec.getLsbD_ofBool]
  by_cases hj : j = 0
  · simp [hj]
  · simp [hj]

/-- A shift to the left is one to the right of the bits reversed. -/
theorem reverse_shiftLeft_one (x : BitVec 64) : (x <<< 1).reverse = x.reverse >>> 1 := by
  apply BitVec.eq_of_getLsbD_eq
  intro i hi
  simp only [BitVec.getLsbD_reverse, BitVec.getMsbD_eq_getLsbD, BitVec.getLsbD_ushiftRight, BitVec.getLsbD_shiftLeft]
  by_cases hlast : i = 63
  · subst hlast
    rfl
  · simp [show i < 64 by omega, show 1 + i < 64 by omega, show ¬ 63 - i < 1 by omega,
      show 63 - i - 1 = 63 - (1 + i) by omega, show 63 - i < 64 by omega]

theorem reverse_xor (x y : BitVec 64) : (x ^^^ y).reverse = x.reverse ^^^ y.reverse := by
  apply BitVec.eq_of_getLsbD_eq
  intro i hi
  simp only [BitVec.getLsbD_reverse, BitVec.getLsbD_xor, BitVec.getMsbD_xor]

/-- A turn to the left is one to the right of the word turned around. -/
theorem crc_bit_reverse (n : BitVec 8) (crc : BitVec 64) (i : Nat) :
    (crc_bit n crc i).reverse = crc_bit_turn (crc.reverse ^^^ bit_at n i) := by
  have hshift : (crc.reverse ^^^ bit_at n i) >>> 1 = (crc <<< 1).reverse := by
    have hbit : bit_at n i >>> 1 = 0#64 := by
      apply BitVec.eq_of_getLsbD_eq
      intro j hj
      simp [bit_at_getLsbD]
    rw [BitVec.ushiftRight_xor_distrib, hbit, BitVec.xor_zero, reverse_shiftLeft_one]
  have hlow : (crc.reverse ^^^ bit_at n i).getLsbD 0 = (crc.getLsbD 63 ^^ n.getLsbD i) := by
    rw [BitVec.getLsbD_xor, bit_at_getLsbD, BitVec.getLsbD_reverse, BitVec.getMsbD_eq_getLsbD]
    rfl
  rw [crc_bit, crc_bit_turn, hlow, hshift]
  cases crc.getLsbD 63 ^^ n.getLsbD i
  · rfl
  · exact reverse_xor _ _

/-- The bits of a byte one by one, those to come still combined with the register. -/
theorem crc_bits_reverse (n : BitVec 8) (k : Nat) :
    ((List.range k).foldl (crc_bit n) 0#64).reverse ^^^ (n >>> k).setWidth 64 = crc_bit_turns k (n.setWidth 64) := by
  induction k with
  | zero =>
    have hzero : (0#64).reverse = 0#64 := BitVec.reverse_eq_zero_iff.mpr rfl
    rw [List.range_zero, List.foldl_nil, hzero, BitVec.zero_xor, BitVec.ushiftRight_zero, crc_bit_turns]
  | succ k ih =>
    have hnext : (n >>> k).setWidth 64 = bit_at n k ^^^ (n >>> (k + 1)).setWidth 64 <<< 1 := by
      apply BitVec.eq_of_getLsbD_eq
      intro i hi
      simp only [BitVec.getLsbD_xor, bit_at_getLsbD, BitVec.getLsbD_shiftLeft, BitVec.getLsbD_setWidth,
        BitVec.getLsbD_ushiftRight]
      by_cases h0 : i = 0
      · simp [h0]
      · simp [h0, hi, show ¬ i < 1 by omega, show i - 1 < 64 by omega, show k + 1 + (i - 1) = k + i by omega]
    have hdown : crc_bit_turn ((n >>> (k + 1)).setWidth 64 <<< 1) = (n >>> (k + 1)).setWidth 64 := by
      have hhigh := crc_bit_turns_high 1 (x := (n >>> (k + 1)).setWidth 64 <<< 1) (by
        intro i hi
        simp [show i = 0 by omega])
      rw [crc_bit_turns, crc_bit_turns] at hhigh
      rw [hhigh]
      apply BitVec.eq_of_getLsbD_eq
      intro i hi
      simp only [BitVec.getLsbD_ushiftRight, BitVec.getLsbD_shiftLeft, BitVec.getLsbD_setWidth]
      by_cases hlast : i = 63
      · simp [hlast]
      · simp [hi, show 1 + i < 64 by omega]
    rw [crc_bit_turns_succ, ← ih, hnext, ← BitVec.xor_assoc, crc_bit_turn_xor, hdown,
      List.range_succ, List.foldl_append,
      List.foldl_cons, List.foldl_nil, crc_bit_reverse]

/-- An entry of the first table is eight turns of a byte. -/
theorem crc_tab0_eq (n : BitVec 8) : crc_tab0 n = crc_bit_turns 8 (n.setWidth 64) := by
  have h := crc_bits_reverse n 8
  have hzero : (n >>> 8).setWidth 64 = 0#64 := by
    apply BitVec.eq_of_getLsbD_eq
    intro i hi
    simp
  rw [hzero, BitVec.xor_zero] at h
  rw [crc_tab0, ← h]
  exact crc_reflect_eq _

/-- A look-up for a byte is eight turns of the register. -/
theorem crc_turn_eq (x : BitVec 64) : crc_turn x = crc_bit_turns 8 x := by
  have hsplit : x = (x.setWidth 8).setWidth 64 ^^^ (x >>> 8) <<< 8 := by
    apply BitVec.eq_of_getLsbD_eq
    intro i hi
    simp only [BitVec.getLsbD_xor, BitVec.getLsbD_setWidth, BitVec.getLsbD_shiftLeft, BitVec.getLsbD_ushiftRight]
    by_cases hlow : i < 8
    · simp [hi, hlow]
    · simp [hi, hlow, show 8 + (i - 8) = i by omega]
  have hhigh : crc_bit_turns 8 ((x >>> 8) <<< 8) = x >>> 8 := by
    rw [crc_bit_turns_high 8 fun i hi => by simp [hi]]
    apply BitVec.eq_of_getLsbD_eq
    intro i hi
    simp only [BitVec.getLsbD_ushiftRight, BitVec.getLsbD_shiftLeft]
    by_cases hin : 8 + i < 64
    · simp [hin]
    · simp [hin, BitVec.getLsbD_of_ge x (8 + i) (by omega)]
  rw [crc_turn, crc_tab0_eq]
  conv => rhs; rw [hsplit, crc_bit_turns_xor, hhigh]

theorem foldl_crc_step_eq (crc : BitVec 64) (bs : List UInt8) : bs.foldl crc_step crc = crc64_bits crc bs := by
  induction bs generalizing crc with
  | nil => rfl
  | cons b bs ih =>
    rw [List.foldl_cons, ih, crc_step_eq, crc_turn_eq]
    rfl

/-- `jones_crc64` is the crc of the bytes bit by bit, wherever they lie and in whatever pieces they come:
neither the tables for eight bytes at a time nor the bytes in front of the aligned ones change it. -/
theorem jones_crc64_bits (crc : BitVec 64) (bs bs' : List UInt8) (next next' : Nat) :
    jones_crc64 next crc bs = crc64_bits crc bs ∧
      jones_crc64 next crc bs = jones_crc64 next' crc bs ∧
      jones_crc64 next' (jones_crc64 next crc bs) bs' = jones_crc64 next crc (bs ++ bs') := by
  refine ⟨?_, ?_, ?_⟩
  · rw [jones_crc64_eq, foldl_crc_step_eq]
  · rw [jones_crc64_eq, jones_crc64_eq]
  · rw [jones_crc64_eq, jones_crc64_eq, jones_crc64_eq, List.foldl_append]

-- "123456789", as in the test of the source
example : crc64_bits 0 [0x31, 0x32, 0x33, 0x34, 0x35, 0x36, 0x37, 0x38, 0x39] = 0xe9c6d914c4b8d9ca := by
  decide +kernel

end rdbparser
