import Rdbparser.Encode.Imm

/-! What is found at immediate integers, from where they are written to end back to where they begin. -/

namespace rdbparser.RdbListPackEncode

open format RdbListPack ListPackEnc

/-! What is found at an integer. -/

/-- Where a call finds an integer, by the opcode and the bytes behind it. -/
theorem next_int {l : RdbListPack} (hl : l.end_ = l.lpbytes) {lval t : RdbListValue} (hpos : 0 < l.walk.pos lval)
    (hnext : l.walk.next lval = (true, t)) {w : Nat} (hfound : l.walk.found t = .int w) :
    ∃ c, lp_code (l.base.mem (l.walk.pos lval)) = c ∧ is_immed c = true ∧ c ≠ LP_END ∧
      lp_val c (l.base.mem.add (l.walk.pos lval)) = w ∧
      l.walk.pos t = l.walk.pos lval + (lp_size c + lpback_size (lp_size c)) := by
  refine ⟨_, rfl, ?_⟩
  change l.next lval = (true, t) at hnext
  change l.elem t = .int w at hfound
  simp only [RdbListPack.walk] at hpos ⊢
  generalize hentry : lval.entry + lval.entry_len = entry at hpos ⊢
  generalize hc : lp_code (l.base.mem entry) = c
  rw [RdbListPack.next] at hnext
  simp only [hentry, hc] at hnext
  by_cases hlt : entry < l.end_
  · by_cases hend : c = LP_END
    · rw [if_pos hlt, if_pos hend] at hnext
      exact Bool.noConfusion (Prod.mk.inj hnext).1
    · rw [if_pos hlt, if_neg hend] at hnext
      obtain ⟨hle, rfl⟩ := Prod.mk.inj hnext
      have hle := of_decide_eq_true hle
      by_cases hin : entry + lp_size c ≤ l.end_
      · cases himm : is_immed c with
        | false =>
          simp only [entry_at, if_pos hin, himm, Bool.false_eq_true, if_false, elem] at hfound
          cases hfound
        | true =>
          simp only [entry_at, if_pos hin, himm, if_true, elem, ListPackElem.int.injEq] at hfound ⊢
          exact ⟨trivial, hend, hfound, trivial⟩
      · simp only [entry_at, if_neg hin] at hle
        omega
  · rw [if_neg hlt] at hnext
    obtain ⟨hin, -⟩ := Prod.mk.inj hnext
    have hin := of_decide_eq_true hin
    omega

/-- The size of the code. -/
theorem imm_code_size (v : Int) : (imm_code v).length =
    if v ≤ 0x7f ∧ 0 ≤ v then 1 else if v ≤ 0xfff ∧ -0x1000 ≤ v then 2 else if v ≤ 0x7fff ∧ -0x8000 ≤ v then 3
    else if v ≤ 0x7fffff ∧ -0x800000 ≤ v then 4 else if v ≤ 0x7fffffff ∧ -0x80000000 ≤ v then 5 else 9 := by
  rw [imm_code_length, lp_size_eq, imm_form]
  split_ifs <;> rfl

theorem imm_bytes_back (v : Int) : imm_bytes v = imm_code v ++ [UInt8.ofNat (imm_code v).length] := by
  have hsmall : (imm_code v).length < 128 := by
    rw [imm_code_size]
    split_ifs <;> decide
  rw [imm_bytes, lpback, if_pos hsmall]

/-- What the bytes of a wide form say. -/
theorem lp_val_wide {c : ListPackEnc} {k : Nat}
    (hc : (c, k) ∈ [(LP_16BIT_INT, 2), (LP_24BIT_INT, 3), (LP_32BIT_INT, 4), (LP_64BIT_INT, 8)])
    (p : Mem) : lp_val c p = twos 64 (sext (8 * k) (le_nat ((p.add 1).take k))) := by
  simp only [List.mem_cons, Prod.mk.injEq, List.not_mem_nil, or_false] at hc
  rcases hc with ⟨rfl, rfl⟩ | ⟨rfl, rfl⟩ | ⟨rfl, rfl⟩ | ⟨rfl, rfl⟩
  · rfl
  · rw [lp_val]
    exact s24_sext _
  · rfl
  · have hlt := le_nat_lt ((p.add 1).take 8)
    rw [Mem.take_length] at hlt
    rw [twos_sext]
    exact (Nat.mod_eq_of_lt hlt).symm

/-- 13 bits are below 4096, or far below 0. -/
theorem s13_range (p : Mem) :
    s13 p < 2 ^ 12 ∨ (2 ^ 64 - 2 ^ 32 + 2 ^ 8 ≤ s13 p ∧ s13 p < 2 ^ 64 - 2 ^ 32 + 2 ^ 13) := by
  have hb := (p 1).toNat_lt
  have hlow : (p 0).toNat &&& 0xf = (p 0).toNat % 16 := Nat.and_two_pow_sub_one_eq_mod _ 4
  rw [s13, hlow]
  generalize (p 1).toNat = b at hb
  by_cases hsign : (p 0).toNat &&& 0x10 = 0
  · left
    have hbyte : ∀ n < 2 ^ 8, n &&& 0x10 = 0 → n % 32 < 16 := by decide +kernel
    have hsmall := hbyte _ (p 0).toNat_lt hsign
    rw [if_neg (not_not.mpr hsign), shiftLeft_or (by omega), show (0x1fff : Nat) = 2 ^ 13 - 1 from rfl,
      Nat.and_two_pow_sub_one_eq_mod]
    omega
  · right
    rw [if_pos hsign]
    have htop : twos 32 (16 - ((p 0).toNat % 16 : Nat)) = 16 - (p 0).toNat % 16 := by
      rw [twos]
      omega
    simp only [htop]
    have hword : (16 - (p 0).toNat % 16) <<< 8 ||| b = (16 - (p 0).toNat % 16) * 2 ^ 8 + b := shiftLeft_or (by omega)
    rw [Nat.mod_eq_of_lt (by rw [Nat.shiftLeft_eq]; omega), hword, shiftLeft_or (by omega)]
    omega

/-- An integer takes the first form that holds it. -/
theorem imm_form_class (v : Int) :
    match imm_form v with
    | .uint7 => 0 ≤ v ∧ v ≤ 0x7f
    | .int13 => -0x1000 ≤ v ∧ v ≤ 0xfff
    | .int16 => -0x8000 ≤ v ∧ v ≤ 0x7fff ∧ ¬ (-0x1000 ≤ v ∧ v ≤ 0xfff)
    | .int24 => -0x800000 ≤ v ∧ v ≤ 0x7fffff ∧ ¬ (-0x8000 ≤ v ∧ v ≤ 0x7fff)
    | .int32 => -0x80000000 ≤ v ∧ v ≤ 0x7fffffff ∧ ¬ (-0x800000 ≤ v ∧ v ≤ 0x7fffff)
    | .int64 => ¬ (-0x80000000 ≤ v ∧ v ≤ 0x7fffffff) := by
  unfold imm_form
  split_ifs <;> simp only <;> omega

/-- The low bits of a word that is small. -/
theorem twos_low {w : Nat} {v : Int} (hw : w ≤ 64) (hlo : -(2 ^ w : Nat) ≤ v) (hhi : v < (2 ^ w : Nat)) :
    ((twos 64 v % 2 ^ w : Nat) : Int) = if 0 ≤ v then v else v + (2 ^ w : Nat) := by
  rw [twos_mod hw, twos]
  have hpos : (0 : Int) < (2 ^ w : Nat) := Int.natCast_pos.mpr (Nat.two_pow_pos w)
  rw [Int.toNat_of_nonneg (Int.emod_nonneg v hpos.ne')]
  split
  · exact Int.emod_eq_of_lt ‹_› hhi
  · rw [← Int.add_emod_right, Int.emod_eq_of_lt (by omega) (by omega)]

/-- A wide form that ends as an integer does, but begins in front of it, holds another integer: the size of the element
before it would have to be one of its bytes. -/
theorem wide_ne (x : Int64) {k low back : Nat} (hk : k ∈ [2, 3, 4, 8]) (hsize : (imm_code x.toInt).length < k)
    (hlow : low < 256 ^ (k - (imm_code x.toInt).length - 1)) (hback : 0 < back ∧ back < 128) :
    sext (8 * k) (low + 256 ^ (k - (imm_code x.toInt).length - 1) * (back + 256 * le_nat (imm_code x.toInt))) ≠
      x.toInt := by
  have hclass := imm_form_class x.toInt
  have hlo := x.le_toInt
  have hhi := x.toInt_lt
  generalize x.toInt = v at *
  have htwos : (twos 64 v : Int) = if 0 ≤ v then v else v + 2 ^ 64 := by
    rw [twos]
    split <;> omega
  rw [imm_code] at hsize hlow ⊢
  generalize imm_form v = form at *
  have hbyte : ∀ n, (UInt8.ofNat n).toNat = n % 256 := fun n => UInt8.toNat_ofNat'
  have hcons : ∀ b bs, le_nat (b :: bs) = b.toNat + 256 * le_nat bs := fun _ _ => rfl
  simp only [List.mem_cons, List.not_mem_nil, or_false] at hk
  cases form with
  | uint7 =>
    have hlen : (imm_parts v .uint7).flatten.length = 1 := rfl
    have hcode : le_nat (imm_parts v .uint7).flatten = twos 64 v % 256 := by
      rw [← hbyte]
      exact Nat.add_zero _
    rw [hlen] at hsize hlow ⊢
    dsimp only at hclass
    have hlow8 := twos_low (w := 8) (v := v) (by decide) (by omega) (by omega)
    rw [hcode]
    generalize twos 64 v % 256 = u at hlow8 ⊢
    rw [if_pos hclass.1] at hlow8
    rcases hk with rfl | rfl | rfl | rfl <;> simp only [Nat.reduceSub, Nat.reducePow] at hlow ⊢ <;>
      (rw [sext_eq (by decide) (by omega)]; split <;> omega)
  | int13 =>
    have hlen : (imm_parts v .int13).flatten.length = 2 := rfl
    have hcode : le_nat (imm_parts v .int13).flatten = 0xc0 + twos 64 v / 256 % 16 + 256 * (twos 64 v % 256) := by
      rw [← hbyte, ← RdbLength.toNat_ofNat_lt (show 0xc0 + twos 64 v / 256 % 16 < 256 by omega)]
      rfl
    rw [hlen] at hsize hlow ⊢
    rw [hcode]
    dsimp only at hclass
    rcases hk with rfl | rfl | rfl | rfl <;> try omega
    all_goals
      simp only [Nat.reduceSub, Nat.reducePow] at hlow ⊢
      rw [sext_eq (by decide) (by omega)]
      split <;> omega
  | int16 =>
    have hlen : (imm_parts v .int16).flatten.length = 3 := rfl
    have hcode : le_nat (imm_parts v .int16).flatten = 0xf1 + 256 * (twos 64 v % 256 ^ 2) := by
      rw [← le_nat_le_bytes]
      rfl
    rw [hlen] at hsize hlow ⊢
    dsimp only at hclass
    have hlow16 := twos_low (w := 16) (v := v) (by decide) (by omega) (by omega)
    rw [hcode]
    generalize twos 64 v % 256 ^ 2 = u at hlow16 ⊢
    rcases hk with rfl | rfl | rfl | rfl <;> try omega
    all_goals
      simp only [Nat.reduceSub, Nat.reducePow] at hlow ⊢
      rw [sext_eq (by decide) (by omega)]
      split at hlow16 <;> split <;> omega
  | int24 =>
    have hlen : (imm_parts v .int24).flatten.length = 4 := rfl
    have hcode : le_nat (imm_parts v .int24).flatten =
        0xf2 + 256 * (twos 64 v / 2 ^ 16 % 256 + 256 * (twos 64 v % 256 ^ 2)) := by
      rw [← le_nat_le_bytes, ← hbyte]
      rfl
    rw [hlen] at hsize hlow ⊢
    rw [hcode]
    dsimp only at hclass
    rcases hk with rfl | rfl | rfl | rfl <;> try omega
    all_goals
      simp only [Nat.reduceSub, Nat.reducePow] at hlow ⊢
      rw [sext_eq (by decide) (by omega)]
      split at htwos <;> split <;> omega
  | int32 =>
    have hlen : (imm_parts v .int32).flatten.length = 5 := rfl
    have hcode : le_nat (imm_parts v .int32).flatten = 0xf3 + 256 * (twos 64 v % 256 ^ 4) := by
      rw [← le_nat_le_bytes]
      rfl
    rw [hlen] at hsize hlow ⊢
    dsimp only at hclass
    have hlow32 := twos_low (w := 32) (v := v) (by decide) (by omega) (by omega)
    rw [hcode]
    generalize twos 64 v % 256 ^ 4 = u at hlow32 ⊢
    rcases hk with rfl | rfl | rfl | rfl <;> try omega
    simp only [Nat.reduceSub, Nat.reducePow] at hlow ⊢
    rw [sext_eq (by decide) (by omega)]
    split at hlow32 <;> split <;> omega
  | int64 =>
    have hlen : (imm_parts v .int64).flatten.length = 9 := rfl
    rw [hlen] at hsize
    omega

/-- The value that is found in a wide form. -/
theorem wide_value (x : Int64) {c : ListPackEnc} {k : Nat}
    (hc : (c, k) ∈ [(LP_16BIT_INT, 2), (LP_24BIT_INT, 3), (LP_32BIT_INT, 4), (LP_64BIT_INT, 8)]) {p : Mem}
    (hval : lp_val c p = twos 64 x.toInt) :
    sext (8 * k) (le_nat ((p.add 1).take k)) = x.toInt ∧ lp_size c = k + 1 ∧ (imm_code x.toInt).length ≤ k + 1 := by
  have hlo := x.le_toInt
  have hhi := x.toInt_lt
  rw [lp_val_wide hc] at hval
  have hsize := imm_code_size x.toInt
  have hbound : ∀ w, 0 < w → -((2 ^ w : Nat) : Int) ≤ 2 * sext w (le_nat ((p.add 1).take k)) ∧
      2 * sext w (le_nat ((p.add 1).take k)) < (2 ^ w : Nat) := fun w hw => by
    obtain ⟨v, rfl⟩ : ∃ v, w = v + 1 := ⟨w - 1, by omega⟩
    have hmin := @Int.le_bmod (le_nat ((p.add 1).take k)) (2 ^ (v + 1)) (Nat.two_pow_pos _)
    have hmax := @Int.bmod_lt (le_nat ((p.add 1).take k)) (2 ^ (v + 1)) (Nat.two_pow_pos _)
    rw [sext]
    rw [Nat.pow_succ] at *
    omega
  have hword := congrArg (sext 64) hval
  rw [sext_twos (i := x.toInt) (by omega) (by omega)] at hword
  simp only [List.mem_cons, Prod.mk.injEq, List.not_mem_nil, or_false] at hc
  have hrange := hbound (8 * k)
  rcases hc with ⟨rfl, rfl⟩ | ⟨rfl, rfl⟩ | ⟨rfl, rfl⟩ | ⟨rfl, rfl⟩
  all_goals
    simp only [Nat.reduceMul, Nat.reducePow] at hrange hword ⊢
    have hrange := hrange (by decide)
    rw [sext_twos (by omega) (by omega)] at hword
    refine ⟨hword, lp_size_eq _, ?_⟩
    rw [hsize]
    split_ifs <;> omega

theorem imm_bytes_length (v : Int) : (imm_bytes v).length = (imm_code v).length + 1 := by
  rw [imm_bytes_back, List.length_append, List.length_singleton]

/-- The size behind an integer is no code of a wide form. -/
theorem lp_code_back (x : Int64) : 0 < (UInt8.ofNat (imm_code x.toInt).length).toNat ∧
    (UInt8.ofNat (imm_code x.toInt).length).toNat < 128 := by
  rw [imm_code_size]
  split_ifs <;> decide

theorem lp_code_small {b : UInt8} (h : b.toNat < 128) : lp_code b = LP_7BIT_UINT := by
  have hcode : ∀ n < 128, lp_code (UInt8.ofNat n) = LP_7BIT_UINT := by decide +kernel
  rw [← UInt8.ofNat_toNat (x := b)]
  exact hcode _ h

section found

variable (x : Int64) {l : RdbListPack} {lval t : RdbListValue} (hl : l.end_ = l.lpbytes) (hpos : 0 < l.walk.pos lval)
  (hnext : l.walk.next lval = (true, t)) (hfound : l.walk.found t = .int (twos 64 x.toInt))

include hl hpos hnext hfound

/-- What is found to be the integer, and ends as it does, is not shorter. -/
theorem found_ge (hlast : l.base.mem (l.walk.pos t - 1) = UInt8.ofNat (imm_code x.toInt).length)
    (hthird : l.walk.pos t = l.walk.pos lval + 3 → 3 ≤ (imm_bytes x.toInt).length →
      l.base.mem (l.walk.pos lval) = (imm_bytes x.toInt).getD ((imm_bytes x.toInt).length - 3) 0) :
    l.walk.pos lval + (imm_bytes x.toInt).length ≤ l.walk.pos t := by
  obtain ⟨c, hc, himm, hne, hval, hsize⟩ := next_int hl hpos hnext hfound
  have hlo := x.le_toInt
  have hhi := x.toInt_lt
  have hlen := imm_code_size x.toInt
  rw [imm_bytes_length] at hthird ⊢
  cases c with
  | LP_7BIT_UINT =>
    have hlt : twos 64 x.toInt < 2 ^ 7 := hval ▸ Nat.and_lt_two_pow _ (by decide)
    have hone : (imm_code x.toInt).length = 1 := by
      rw [twos] at hlt
      rw [hlen, if_pos (by omega)]
    rw [hsize, hone]
    exact Nat.le_refl _
  | LP_6BIT_STR => exact absurd himm (by decide)
  | LP_13BIT_INT =>
    have hsize : l.walk.pos t = l.walk.pos lval + 3 := hsize
    rcases s13_range (l.base.mem.add (l.walk.pos lval)) with hsmall | hfar
    · rw [show s13 _ = _ from hval, twos] at hsmall
      have htwo : (imm_code x.toInt).length ≤ 2 := by
        rw [hlen]
        split_ifs <;> omega
      omega
    · -- far below 0: the byte in its place is one of the sign
      rw [show s13 _ = _ from hval] at hfar
      have hform : imm_form x.toInt = .int64 := by
        have hclass := imm_form_class x.toInt
        rw [twos] at hfar
        cases hform : imm_form x.toInt <;> rw [hform] at hclass <;> first | rfl | (dsimp only at hclass; omega)
      have hbytes : imm_bytes x.toInt = 0xf4 :: (le_bytes 8 (twos 64 x.toInt) ++ [9]) := by
        rw [imm_bytes_back, imm_code, hform]
        rfl
      have hbyte : (imm_bytes x.toInt).getD 7 0 = 0xff := by
        rw [hbytes]
        change UInt8.ofNat (twos 64 x.toInt / 256 / 256 / 256 / 256 / 256 / 256) = 0xff
        apply UInt8.toNat_inj.mp
        rw [UInt8.toNat_ofNat']
        change _ = 255
        omega
      have hten : (imm_code x.toInt).length + 1 = 10 := by
        rw [← imm_bytes_length, hbytes]
        rfl
      rw [hten] at hthird
      rw [hthird hsize (by decide), hbyte] at hc
      exact absurd hc (by decide)
  | LP_12BIT_STR => exact absurd himm (by decide)
  | LP_32BIT_STR => exact absurd himm (by decide)
  | LP_16BIT_INT =>
    obtain ⟨-, hcode, hle⟩ := wide_value x (k := 2) (by simp) hval
    rw [hcode] at hsize
    have hback := lpback_size_pos (2 + 1)
    omega
  | LP_24BIT_INT =>
    obtain ⟨-, hcode, hle⟩ := wide_value x (k := 3) (by simp) hval
    rw [hcode] at hsize
    have hback := lpback_size_pos (3 + 1)
    omega
  | LP_32BIT_INT =>
    obtain ⟨-, hcode, hle⟩ := wide_value x (k := 4) (by simp) hval
    rw [hcode] at hsize
    have hback := lpback_size_pos (4 + 1)
    omega
  | LP_64BIT_INT =>
    obtain ⟨-, hcode, hle⟩ := wide_value x (k := 8) (by simp) hval
    rw [hcode] at hsize
    have hback := lpback_size_pos (8 + 1)
    omega
  | LP_END => exact absurd rfl hne
  | LP_UNUSED =>
    have hsize : l.walk.pos t = l.walk.pos lval + 1 := hsize
    rw [hsize, Nat.add_sub_cancel] at hlast
    rw [hlast, lp_code_small (lp_code_back x).2] at hc
    exact absurd hc (by decide)

/-- Nor is it longer, if a size is in front of it. -/
theorem found_le (hprev : ∀ q, l.walk.pos lval ≤ q → q + (imm_bytes x.toInt).length + 1 = l.walk.pos t →
      0 < (l.base.mem q).toNat ∧ (l.base.mem q).toNat < 128)
    (hbytes : ∀ q, l.walk.pos lval ≤ q → q + (imm_bytes x.toInt).length = l.walk.pos t →
      (l.base.mem.add q).Starts (imm_bytes x.toInt)) :
    l.walk.pos t ≤ l.walk.pos lval + (imm_bytes x.toInt).length := by
  by_contra hlong
  obtain ⟨c, hc, himm, hne, hval, hsize⟩ := next_int hl hpos hnext hfound
  have hone : 0 < (imm_code x.toInt).length := by
    rw [imm_code_size]
    split_ifs <;> decide
  rw [imm_bytes_length] at hlong hprev hbytes
  have hwide : ∀ k, (c, k) ∈ [(LP_16BIT_INT, 2), (LP_24BIT_INT, 3), (LP_32BIT_INT, 4), (LP_64BIT_INT, 8)] →
      l.walk.pos t = l.walk.pos lval + (k + 2) → c ≠ LP_7BIT_UINT → False := fun k hk hsize hcode => by
    obtain ⟨hvalue, -, -⟩ := wide_value x hk hval
    obtain ⟨d, hd⟩ : ∃ d, l.walk.pos t = l.walk.pos lval + d + ((imm_code x.toInt).length + 1) + 1 :=
      ⟨l.walk.pos t - (l.walk.pos lval + ((imm_code x.toInt).length + 1) + 1), by omega⟩
    obtain ⟨hback, hsmall⟩ := hprev (l.walk.pos lval + d) (by omega) (by omega)
    cases d with
    | zero => exact hcode (hc.symm.trans (lp_code_small hsmall))
    | succ d =>
      have hstarts := hbytes (l.walk.pos lval + (d + 1) + 1) (by omega) (by omega)
      rw [imm_bytes_back, Mem.starts_append] at hstarts
      have hk' : k = d + ((imm_code x.toInt).length + 1) := by omega
      have hlow := le_nat_lt ((l.base.mem.add (l.walk.pos lval + 1)).take d)
      rw [Mem.take_length] at hlow
      have hnum : le_nat (((l.base.mem.add (l.walk.pos lval)).add 1).take k) =
          le_nat ((l.base.mem.add (l.walk.pos lval + 1)).take d) +
            256 ^ d * ((l.base.mem (l.walk.pos lval + (d + 1))).toNat + 256 * le_nat (imm_code x.toInt)) := by
        have hsplit : (l.base.mem.add (l.walk.pos lval + 1)).take k = (l.base.mem.add (l.walk.pos lval + 1)).take d ++
            l.base.mem (l.walk.pos lval + (d + 1)) :: imm_code x.toInt := by
          have hcode := hstarts.1.take
          rw [hk', Mem.take_add, Mem.take_succ, Mem.add_add, Mem.add_add, Mem.add_apply]
          rw [show l.walk.pos lval + 1 + d + 1 = l.walk.pos lval + (d + 1) + 1 by omega, hcode,
            show l.walk.pos lval + 1 + d + 0 = l.walk.pos lval + (d + 1) by omega]
        rw [Mem.add_add, hsplit, le_nat_append, Mem.take_length]
        rfl
      have hpow : k - (imm_code x.toInt).length - 1 = d := by omega
      have hdiffers := @wide_ne x k (le_nat ((l.base.mem.add (l.walk.pos lval + 1)).take d))
        (l.base.mem (l.walk.pos lval + (d + 1))).toNat (List.mem_map_of_mem (f := Prod.snd) hk) (by omega)
      rw [hpow] at hdiffers
      rw [hnum] at hvalue
      exact hdiffers hlow ⟨hback, hsmall⟩ hvalue
  cases c with
  | LP_7BIT_UINT =>
    have hsize : l.walk.pos t = l.walk.pos lval + 2 := hsize
    omega
  | LP_6BIT_STR => exact absurd himm (by decide)
  | LP_13BIT_INT =>
    have hsize : l.walk.pos t = l.walk.pos lval + 3 := hsize
    obtain ⟨-, hsmall⟩ := hprev (l.walk.pos lval) (Nat.le_refl _) (by omega)
    rw [lp_code_small hsmall] at hc
    exact absurd hc (by decide)
  | LP_12BIT_STR => exact absurd himm (by decide)
  | LP_32BIT_STR => exact absurd himm (by decide)
  | LP_16BIT_INT => exact hwide 2 (by simp) hsize nofun
  | LP_24BIT_INT => exact hwide 3 (by simp) hsize nofun
  | LP_32BIT_INT => exact hwide 4 (by simp) hsize nofun
  | LP_64BIT_INT => exact hwide 8 (by simp) hsize nofun
  | LP_END => exact absurd rfl hne
  | LP_UNUSED =>
    have hsize : l.walk.pos t = l.walk.pos lval + 1 := hsize
    omega

end found

/-- The bytes from `k` on, except those that the header takes the place of. -/
def Held (p : Mem) (k : Nat) (bs : List UInt8) : Prop := ∀ i (hi : i < bs.length), 6 ≤ k + i → p (k + i) = bs[i]

namespace Held

variable {p : Mem} {k : Nat} {as bs : List UInt8}

theorem left (h : Held p k (as ++ bs)) : Held p k as := fun i hi hk => by
  rw [h i (by rw [List.length_append]; omega) hk, List.getElem_append_left hi]

theorem right (h : Held p k (as ++ bs)) : Held p (k + as.length) bs := fun i hi hk => by
  rw [Nat.add_assoc] at hk ⊢
  rw [h (as.length + i) (by rw [List.length_append]; omega) hk, List.getElem_append_right (Nat.le_add_right _ _)]
  simp only [Nat.add_sub_cancel_left]

theorem starts (h : Held p k bs) (hk : 6 ≤ k) : (p.add k).Starts bs :=
  Mem.starts_of_get fun i hi => h i hi (by omega)

/-- The last byte of an element is its size. -/
theorem last {x : Int64} (h : Held p k (as ++ imm_bytes x.toInt)) {q : Nat}
    (hq : q + 1 = k + (as ++ imm_bytes x.toInt).length) (hin : 6 ≤ q) : p q =
      UInt8.ofNat (imm_code x.toInt).length := by
  rw [imm_bytes_back, ← List.append_assoc] at h
  rw [imm_bytes_back, ← List.append_assoc, List.length_append, List.length_singleton] at hq
  have hbyte := h.right 0 Nat.one_pos (by omega)
  rw [show q = k + (as ++ imm_code x.toInt).length + 0 by omega, hbyte]
  rfl

end Held

/-- A walk does not go back. -/
theorem path_le {l : RdbListPack} (hl : l.end_ = l.lpbytes) {s u : RdbListValue} {vs : List ListPackElem}
    (hs : 0 < l.walk.pos s)
    (h : l.walk.Path s vs u) : l.walk.pos s ≤ l.walk.pos u := by
  induction vs generalizing s with
  | nil =>
    obtain rfl := h
    exact Nat.le_refl _
  | cons v vs ih =>
    obtain ⟨t, hnext, -, hrest⟩ := h
    obtain ⟨hentry, hlen, -⟩ := next_bounds hl hs hnext
    have hpos : l.walk.pos s ≤ l.walk.pos t := by
      change _ ≤ t.entry + t.entry_len
      rw [hentry]
      exact Nat.le_add_right _ _
    exact Nat.le_trans hpos (ih (Nat.lt_of_lt_of_le hs hpos) hrest)

/-- From where the elements `vs` end, the walk is traced back to where they begin. -/
theorem path_back {l : RdbListPack} (hl : l.end_ = l.lpbytes) (hstart : 6 ≤ l.walk.pos l.start)
    (vs : List Int64) {pre : List Int64}
    {k : Nat} {front : List UInt8} (hheld : Held l.base.mem k (front ++ vs.flatMap fun v => imm_bytes v.toInt))
    (hfront : ∀ q, 6 ≤ q → q + 1 = k + front.length →
      0 < (l.base.mem q).toNat ∧ (l.base.mem q).toNat < 128) {u : RdbListValue}
    (hpath : l.walk.Path l.start ((pre ++ vs).map fun v => .int (twos 64 v.toInt)) u)
    (hu : l.walk.pos u = k + (front ++ vs.flatMap fun v => imm_bytes v.toInt).length) :
    ∃ t, l.walk.Path l.start (pre.map fun v => .int (twos 64 v.toInt)) t ∧ l.walk.pos t = k + front.length := by
  induction vs generalizing pre front with
  | nil =>
    rw [List.append_nil] at hpath
    rw [List.flatMap_nil, List.append_nil] at hu
    exact ⟨u, hpath, hu⟩
  | cons x vs ih =>
    rw [List.flatMap_cons, ← List.append_assoc] at hheld hu
    rw [List.append_cons] at hpath
    have hsize : ∀ q, 6 ≤ q → q + 1 = k + (front ++ imm_bytes x.toInt).length →
        l.base.mem q = UInt8.ofNat (imm_code x.toInt).length := fun q hq hlast => hheld.left.last hlast hq
    obtain ⟨_, hpath', ht'⟩ := ih hheld (fun q hq hlast => by
      rw [hsize q hq hlast]
      exact lp_code_back x) hpath hu
    rw [List.map_append, Walk.path_append] at hpath'
    obtain ⟨t, hpre, t', hnext, hfound, rfl⟩ := hpath'
    refine ⟨t, hpre, ?_⟩
    have hsix := Nat.le_trans hstart (path_le hl (Nat.lt_of_lt_of_le (by decide) hstart) hpre)
    have hpos : 0 < l.walk.pos t := Nat.lt_of_lt_of_le (by decide) hsix
    rw [List.length_append] at ht'
    have hlater : l.walk.pos t < l.walk.pos t' := by
      obtain ⟨hentry, hlen, -⟩ := next_bounds hl hpos hnext
      change _ < t'.entry + t'.entry_len
      rw [hentry]
      exact Nat.lt_add_of_pos_right hlen
    have hge := found_ge x hl hpos hnext hfound (hsize _ (by omega) (by rw [List.length_append]; omega))
      fun hthree hlen => by
      have hbyte := hheld.left.right ((imm_bytes x.toInt).length - 3) (by omega) (by omega)
      rw [show k + front.length + ((imm_bytes x.toInt).length - 3) = l.walk.pos t by omega] at hbyte
      rw [hbyte]
      exact (List.getElem_eq_getD 0)
    have hle := found_le x hl hpos hnext hfound (fun q hq hlast => hfront q (by omega) (by omega)) fun q hq hlast => by
      rw [show q = k + front.length by omega]
      exact hheld.left.right.starts (by omega)
    omega

end rdbparser.RdbListPackEncode
