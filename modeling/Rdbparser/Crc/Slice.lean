import Rdbparser.Crc

namespace rdbparser

/-! The tables are linear over xor, which makes eight bytes at once the same as one by one. -/

theorem crc_bit_xor (n m : BitVec 8) (c d : BitVec 64) (i : Nat) :
    crc_bit (n ^^^ m) (c ^^^ d) i = crc_bit n c i ^^^ crc_bit m d i := by
  simp only [crc_bit, BitVec.getLsbD_xor, BitVec.shiftLeft_xor_distrib]
  cases c.getLsbD 63 <;> cases d.getLsbD 63 <;> cases n.getLsbD i <;> cases m.getLsbD i <;>
    simp only [Bool.xor_false, Bool.xor_true, Bool.not_false, Bool.not_true, if_true,
      Bool.false_eq_true, if_false] <;>
    grind

theorem crc_bits_xor (is : List Nat) (n m : BitVec 8) (c d : BitVec 64) :
    is.foldl (crc_bit (n ^^^ m)) (c ^^^ d) = is.foldl (crc_bit n) c ^^^ is.foldl (crc_bit m) d := by
  induction is generalizing c d with
  | nil => rfl
  | cons i is ih =>
    rw [List.foldl_cons, crc_bit_xor, ih]
    rfl

/-- Reflection is linear in its two arguments, by induction on the number of bits. -/
theorem crc_reflect_xor (k : Nat) (c d v w : BitVec 64) :
    crc_reflect k (c ^^^ d) (v ^^^ w) = crc_reflect k c v ^^^ crc_reflect k d w := by
  induction k generalizing c d v w with
  | zero => rfl
  | succ k ih =>
    have hor : ∀ v x : BitVec 64, (v <<< 1) ||| (x &&& 1#64) = (v <<< 1) ^^^ (x &&& 1#64) := by
      intro v x
      apply BitVec.eq_of_getLsbD_eq
      intro i hi
      simp only [BitVec.getLsbD_or, BitVec.getLsbD_xor, BitVec.getLsbD_shiftLeft,
        BitVec.getLsbD_and, BitVec.getLsbD_one]
      by_cases h0 : i = 0
      · simp [h0]
      · simp [h0]
    have hstep : ∀ v w c d : BitVec 64, ((v ^^^ w) <<< 1) ^^^ (((c ^^^ d) >>> 1) &&& 1#64) =
        (v <<< 1 ^^^ (c >>> 1 &&& 1#64)) ^^^ (w <<< 1 ^^^ (d >>> 1 &&& 1#64)) := by
      intro v w c d
      apply BitVec.eq_of_getLsbD_eq
      intro i hi
      simp only [BitVec.getLsbD_xor, BitVec.getLsbD_shiftLeft, BitVec.getLsbD_and,
        BitVec.getLsbD_ushiftRight, BitVec.getLsbD_one]
      by_cases h0 : i = 0
      · simp [h0]
      · simp [h0, hi]
    simp only [crc_reflect, hor, BitVec.ushiftRight_xor_distrib]
    rw [← BitVec.ushiftRight_xor_distrib, hstep, BitVec.ushiftRight_xor_distrib, ih]

theorem crc_tab0_xor (n m : BitVec 8) : crc_tab0 (n ^^^ m) = crc_tab0 n ^^^ crc_tab0 m := by
  have hbits := crc_bits_xor [0, 1, 2, 3, 4, 5, 6, 7] n m 0#64 0#64
  rw [BitVec.xor_zero] at hbits
  simp only [crc_tab0, hbits]
  rw [← crc_reflect_xor]
  congr 1
  grind

@[simp] theorem crc_tab0_zero : crc_tab0 0#8 = 0#64 := by
  have h := crc_tab0_xor 0#8 0#8
  rwa [BitVec.xor_self, BitVec.xor_self] at h

/-- One byte's turn of the register, the byte already combined with it. -/
def crc_turn (x : BitVec 64) : BitVec 64 := crc_tab0 (x.setWidth 8) ^^^ (x >>> 8)

def crc_turns : Nat → BitVec 64 → BitVec 64
  | 0, x => x
  | k + 1, x => crc_turns k (crc_turn x)

theorem crc_turn_xor (x y : BitVec 64) : crc_turn (x ^^^ y) = crc_turn x ^^^ crc_turn y := by
  rw [crc_turn, BitVec.setWidth_xor, crc_tab0_xor, BitVec.ushiftRight_xor_distrib, crc_turn, crc_turn]
  grind

theorem crc_turns_xor (k : Nat) (x y : BitVec 64) :
    crc_turns k (x ^^^ y) = crc_turns k x ^^^ crc_turns k y := by
  induction k generalizing x y with
  | zero => rfl
  | succ k ih => rw [crc_turns, crc_turn_xor, ih, crc_turns, crc_turns]

theorem crc_turn_turns (k : Nat) (x : BitVec 64) :
    crc_turn (crc_turns k x) = crc_turns k (crc_turn x) := by
  induction k generalizing x with
  | zero => rw [crc_turns, crc_turns]
  | succ k ih => rw [crc_turns, ih, crc_turns]

/-- The tables are what a byte turns into. -/
theorem jones_tab_eq (k : Nat) (n : BitVec 8) : jones_tab k n = crc_turns k (crc_tab0 n) := by
  induction k with
  | zero => rfl
  | succ k ih =>
    change crc_turn (jones_tab k n) = _
    rw [ih, crc_turn_turns, crc_turns]

/-- A turn looks the low byte up and shifts the others down. -/
theorem crc_turns_succ (k : Nat) (x : BitVec 64) :
    crc_turns (k + 1) x = jones_tab k (x.setWidth 8) ^^^ crc_turns k (x >>> 8) := by
  rw [crc_turns, crc_turn, crc_turns_xor, jones_tab_eq]

/-- The eight tables of the middle loop are eight turns at once. -/
theorem crc_slice_eq (x : BitVec 64) : crc_slice x = crc_turns 8 x := by
  have hzero : x >>> 64 = 0#64 := by
    apply BitVec.eq_of_getLsbD_eq
    simp
  rw [crc_turns_succ 7, crc_turns_succ 6, crc_turns_succ 5, crc_turns_succ 4, crc_turns_succ 3,
    crc_turns_succ 2, crc_turns_succ 1, crc_turns_succ 0, crc_turns]
  simp only [← BitVec.shiftRight_add, Nat.reduceAdd, hzero, BitVec.xor_zero, crc_slice]
  simp only [BitVec.xor_assoc]

/-- A step of a byte is a turn of the crc and the byte. -/
theorem crc_step_eq (crc : BitVec 64) (b : UInt8) :
    crc_step crc b = crc_turn (crc ^^^ b.toBitVec.setWidth 64) := by
  have hhigh : (b.toBitVec.setWidth 64) >>> 8 = 0#64 := by
    apply BitVec.eq_of_getLsbD_eq
    intro i hi
    simp
  rw [crc_step, crc_turn, BitVec.ushiftRight_xor_distrib, hhigh, BitVec.xor_zero]
  rfl

/-- Bytes that are not at the low end only move down. -/
theorem crc_turn_shift {n : Nat} (hn : n < 2 ^ 56) :
    crc_turn (BitVec.ofNat 64 n <<< 8) = BitVec.ofNat 64 n := by
  have hlow : (BitVec.ofNat 64 n <<< 8).setWidth 8 = 0#8 := by
    apply BitVec.eq_of_getLsbD_eq
    intro i hi
    simp [hi]
  have hback : (BitVec.ofNat 64 n <<< 8) >>> 8 = BitVec.ofNat 64 n := by
    apply BitVec.eq_of_toNat_eq
    simp only [BitVec.toNat_ushiftRight, BitVec.toNat_shiftLeft, BitVec.toNat_ofNat,
      Nat.shiftLeft_eq, Nat.shiftRight_eq_div_pow]
    omega
  rw [crc_turn, hlow, hback, crc_tab0_zero, BitVec.zero_xor]

/-- A little endian number as the xor of its first byte and the rest, shifted. -/
theorem ofNat_le_nat_cons (b : UInt8) (n : Nat) :
    BitVec.ofNat 64 (b.toNat + 256 * n) = b.toBitVec.setWidth 64 ^^^ BitVec.ofNat 64 n <<< 8 := by
  apply BitVec.eq_of_getLsbD_eq
  intro i hi
  have hb : b.toNat < 2 ^ 8 := b.toNat_lt
  have hbit : b.toBitVec.getLsbD i = b.toNat.testBit i := rfl
  rw [BitVec.getLsbD_ofNat, Nat.add_comm, show 256 * n = 2 ^ 8 * n from rfl,
    Nat.testBit_two_pow_mul_add n hb]
  simp only [BitVec.getLsbD_xor, BitVec.getLsbD_setWidth, BitVec.getLsbD_shiftLeft,
    BitVec.getLsbD_ofNat, hbit, hi, decide_true, Bool.true_and]
  by_cases hlow : i < 8
  · simp [hlow]
  · have hhigh : b.toNat.testBit i = false :=
      Nat.testBit_lt_two_pow (Nat.lt_of_lt_of_le hb (Nat.pow_le_pow_right (by decide) (by omega)))
    simp [hlow, hhigh, show i - 8 < 64 by omega]

/-- Bytes one by one are as many turns of the register with all of them combined. -/
theorem crc_steps_eq (bs : List UInt8) (hbs : bs.length ≤ 8) (crc : BitVec 64) :
    bs.foldl crc_step crc = crc_turns bs.length (crc ^^^ BitVec.ofNat 64 (le_nat bs)) := by
  induction bs generalizing crc with
  | nil => simp [le_nat, crc_turns]
  | cons b bs ih =>
    have hlen : bs.length ≤ 7 := Nat.le_of_succ_le_succ hbs
    have hsmall : le_nat bs < 2 ^ 56 := by
      calc le_nat bs < 256 ^ bs.length := le_nat_lt bs
        _ ≤ 256 ^ 7 := Nat.pow_le_pow_right (by decide) hlen
        _ = 2 ^ 56 := by decide
    rw [List.foldl_cons, ih (by omega), crc_step_eq, List.length_cons, crc_turns, le_nat,
      ofNat_le_nat_cons, ← BitVec.xor_assoc, crc_turn_xor _ (BitVec.ofNat 64 (le_nat bs) <<< 8),
      crc_turn_shift hsmall]

/-- The middle loop does for eight bytes at once what single steps do. -/
theorem crc_middle_eq (crc : BitVec 64) (bs : List UInt8) :
    crc_middle crc bs = bs.foldl crc_step crc := by
  fun_induction crc_middle crc bs with
  | case1 crc b0 b1 b2 b3 b4 b5 b6 b7 bs ih =>
    have h := crc_steps_eq [b0, b1, b2, b3, b4, b5, b6, b7] (Nat.le_refl 8) crc
    simp only [List.length_cons, List.length_nil, Nat.reduceAdd] at h
    rw [ih, crc_slice_eq, ← h]
    simp only [List.foldl_cons, List.foldl_nil]
  | case2 => rfl

/-- The first loop takes single steps up to an aligned address, and leaves the rest. -/
theorem crc_align_eq (next : Nat) (crc : BitVec 64) (bs : List UInt8) :
    (crc_align next crc bs).2.foldl crc_step (crc_align next crc bs).1 = bs.foldl crc_step crc := by
  induction bs generalizing next crc with
  | nil => rfl
  | cons b bs ih =>
    rw [crc_align]
    split
    · exact ih _ _
    · rfl

/-- The crc of bytes does not depend on where they lie, nor on the pieces they come in. -/
theorem jones_crc64_eq (next : Nat) (crc : BitVec 64) (bs : List UInt8) :
    jones_crc64 next crc bs = bs.foldl crc_step crc := by
  change crc_middle (crc_align next crc bs).1 (crc_align next crc bs).2 = _
  rw [crc_middle_eq, crc_align_eq]

end rdbparser
