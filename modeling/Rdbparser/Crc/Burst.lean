import Rdbparser.Crc.Bits

namespace rdbparser

/-! A change of at most eight bytes changes the crc. -/

/-- A turn of one bit loses nothing: the polynomial is odd, so the bit that is shifted out can be told from what is
left. -/
theorem crc_bit_turn_eq_zero {x : BitVec 64} (h : crc_bit_turn x = 0#64) : x = 0#64 := by
  have hdown : ∀ i, (x >>> 1).getLsbD i = x.getLsbD (i + 1) := fun i => by
    rw [BitVec.getLsbD_ushiftRight, Nat.add_comm]
  have hbit : ∀ i, (crc_bit_turn x).getLsbD i = false := fun i => by rw [h, BitVec.getLsbD_zero]
  cases hlow : x.getLsbD 0 with
  | true =>
    -- the high bit of the polynomial is set, that of what is shifted down is not
    have hhigh := hbit 63
    rw [crc_bit_turn, hlow, if_pos rfl, BitVec.getLsbD_xor, hdown, BitVec.getLsbD_of_ge x (63 + 1) (Nat.le_refl 64),
      BitVec.getLsbD_reverse] at hhigh
    exact absurd hhigh (by decide)
  | false =>
    apply BitVec.eq_of_getLsbD_eq
    intro i hi
    rw [BitVec.getLsbD_zero]
    cases i with
    | zero => exact hlow
    | succ i =>
      have hnext := hbit i
      rwa [crc_bit_turn, hlow, if_neg Bool.false_ne_true, hdown] at hnext

/-- The turns of a byte lose nothing, as those of its bits do not. -/
theorem crc_turn_injective {x y : BitVec 64} (h : crc_turn x = crc_turn y) : x = y := by
  have hturns : ∀ (k : Nat) (z : BitVec 64), crc_bit_turns k z = 0#64 → z = 0#64 := by
    intro k
    induction k with
    | zero => exact fun z hz => hz
    | succ k ih => exact fun z hz => crc_bit_turn_eq_zero (ih _ hz)
  have hxor : crc_bit_turns 8 (x ^^^ y) = 0#64 := by
    rw [← crc_turn_eq, crc_turn_xor, h, BitVec.xor_self]
  exact BitVec.xor_eq_zero_iff.mp (hturns 8 _ hxor)

theorem crc_turns_injective (k : Nat) {x y : BitVec 64} (h : crc_turns k x = crc_turns k y) : x = y := by
  induction k generalizing x y with
  | zero => exact h
  | succ k ih => exact crc_turn_injective (ih h)

theorem crc_step_injective (b : UInt8) {x y : BitVec 64} (h : crc_step x b = crc_step y b) : x = y := by
  rw [crc_step_eq, crc_step_eq] at h
  exact (BitVec.xor_left_inj _).mp (crc_turn_injective h)

theorem foldl_crc_step_injective (bs : List UInt8) {x y : BitVec 64}
    (h : bs.foldl crc_step x = bs.foldl crc_step y) : x = y := by
  induction bs generalizing x y with
  | nil => exact h
  | cons b bs ih => exact crc_step_injective b (ih h)

/-- The crc of at most eight bytes tells them apart. -/
theorem foldl_crc_step_block {bs bs' : List UInt8} (hlen : bs.length = bs'.length) (hle : bs.length ≤ 8)
    {crc : BitVec 64} (h : bs.foldl crc_step crc = bs'.foldl crc_step crc) : bs = bs' := by
  rw [crc_steps_eq bs hle, crc_steps_eq bs' (hlen ▸ hle), ← hlen] at h
  have hnat := congrArg BitVec.toNat ((BitVec.xor_right_inj _).mp (crc_turns_injective _ h))
  have hlt : ∀ xs : List UInt8, xs.length ≤ 8 → le_nat xs < 2 ^ 64 := fun xs hxs =>
    calc le_nat xs < 256 ^ xs.length := le_nat_lt xs
      _ ≤ 256 ^ 8 := Nat.pow_le_pow_right (by decide) hxs
      _ = 2 ^ 64 := by decide
  rw [BitVec.toNat_ofNat, BitVec.toNat_ofNat, Nat.mod_eq_of_lt (hlt bs hle), Nat.mod_eq_of_lt (hlt bs' (hlen ▸ hle))]
    at hnat
  rw [← le_bytes_le_nat bs, ← le_bytes_le_nat bs', hnat, hlen]

/-- Two messages of the same length that differ at most in a window of eight bytes. -/
def Burst (bs bs' : List UInt8) : Prop :=
  bs.length = bs'.length ∧ ∃ i, ∀ j, j < i ∨ i + 8 ≤ j → bs[j]? = bs'[j]?

/-- A burst changes a block of at most eight bytes, with the same bytes in front of it and behind it. -/
theorem Burst.parts {bs bs' : List UInt8} (h : Burst bs bs') : ∃ pre mid mid' post, bs = pre ++ (mid ++ post) ∧
    bs' = pre ++ (mid' ++ post) ∧ mid.length = mid'.length ∧ mid.length ≤ 8 := by
  obtain ⟨hlen, i, hsame⟩ := h
  have hpre : bs.take i = bs'.take i := by
    apply List.ext_getElem?
    intro j
    rw [List.getElem?_take, List.getElem?_take]
    split
    · next hj => exact hsame j (.inl hj)
    · rfl
  have hpost : bs.drop (i + 8) = bs'.drop (i + 8) := by
    apply List.ext_getElem?
    intro j
    rw [List.getElem?_drop, List.getElem?_drop]
    exact hsame _ (.inr (Nat.le_add_right _ _))
  have hsplit : ∀ xs : List UInt8, xs = xs.take i ++ ((xs.drop i).take 8 ++ xs.drop (i + 8)) := fun xs => by
    rw [← List.drop_drop, List.take_append_drop, List.take_append_drop]
  refine ⟨bs.take i, (bs.drop i).take 8, (bs'.drop i).take 8, bs.drop (i + 8), hsplit bs, ?_, ?_, ?_⟩
  · rw [hpre, hpost]
    exact hsplit bs'
  · simp only [List.length_take, List.length_drop, hlen]
  · exact List.length_take_le 8 _

theorem Burst.take {bs bs' : List UInt8} (h : Burst bs bs') (n : Nat) : Burst (bs.take n) (bs'.take n) := by
  obtain ⟨hlen, i, hsame⟩ := h
  refine ⟨by rw [List.length_take, List.length_take, hlen], i, fun j hj => ?_⟩
  rw [List.getElem?_take, List.getElem?_take, hsame j hj]

theorem jones_crc64_burst {bs bs' : List UInt8} (h : Burst bs bs') (next next' : Nat) {crc : BitVec 64}
    (hcrc : jones_crc64 next crc bs = jones_crc64 next' crc bs') : bs = bs' := by
  obtain ⟨pre, mid, mid', post, rfl, rfl, hlen, hle⟩ := h.parts
  rw [jones_crc64_eq, jones_crc64_eq, List.foldl_append, List.foldl_append, List.foldl_append,
    List.foldl_append] at hcrc
  rw [foldl_crc_step_block hlen hle (foldl_crc_step_injective post hcrc)]

end rdbparser
