import Rdbparser.Format.Header
import Rdbparser.ListPack.Walk

namespace rdbparser.format

/-- The forms of an immediate integer in a list pack: 7 bits without a sign, or two's complement. -/
inductive LpIntForm
  | uint7 | int13 | int16 | int24 | int32 | int64
  deriving DecidableEq, Repr

namespace LpIntForm

/-- The integers a form is able to hold. -/
def Holds : LpIntForm → Int → Prop
  | uint7, v => 0 ≤ v ∧ v < 2 ^ 7
  | int13, v => -2 ^ 12 ≤ v ∧ v < 2 ^ 12
  | int16, v => -2 ^ 15 ≤ v ∧ v < 2 ^ 15
  | int24, v => -2 ^ 23 ≤ v ∧ v < 2 ^ 23
  | int32, v => -2 ^ 31 ≤ v ∧ v < 2 ^ 31
  | int64, v => -2 ^ 63 ≤ v ∧ v < 2 ^ 63

/-- 13 bits are big endian behind the prefix 110, the larger ones little endian behind a code of their own. -/
def bytes : LpIntForm → Int → List UInt8
  | uint7, v => [UInt8.ofNat v.toNat]
  | int13, v => [UInt8.ofNat (0xc0 + twos 13 v / 256), UInt8.ofNat (twos 13 v)]
  | int16, v => 0xf1 :: le_bytes 2 (twos 16 v)
  | int24, v => 0xf2 :: le_bytes 3 (twos 24 v)
  | int32, v => 0xf3 :: le_bytes 4 (twos 32 v)
  | int64, v => 0xf4 :: le_bytes 8 (twos 64 v)

end LpIntForm

/-- A size behind an element, in groups of 7 bits, the highest first and without a mark; 64 bits are at most ten
groups. -/
def lpback : Nat → Nat → List UInt8
  | 0, n => [UInt8.ofNat n]
  | fuel + 1, n => if n < 128 then [UInt8.ofNat n] else lpback fuel (n / 128) ++ [UInt8.ofNat (0x80 + n % 128)]

/-- An immediate integer in a form able to hold it. -/
structure LpInt where
  form : LpIntForm
  val : Int
  fits : form.Holds val

/-- The element and the size of its code behind it. -/
def LpInt.bytes (x : LpInt) : List UInt8 := x.form.bytes x.val ++ lpback 9 (x.form.bytes x.val).length

/-- The bytes of a list pack of which `lplen` is said to be the number of elements. -/
def listpack (lplen : Nat) (elems : List UInt8) : List UInt8 :=
  le_bytes 4 (6 + elems.length + 1) ++ (le_bytes 2 lplen ++ (elems ++ [0xff]))

theorem listpack_length (lplen : Nat) (elems : List UInt8) : (listpack lplen elems).length = 6 + elems.length + 1 := by
  simp only [listpack, List.length_append, le_bytes_length, List.length_singleton]
  omega

/-- A back length takes a byte at least. -/
theorem lpback_pos (fuel n : Nat) : 0 < (lpback fuel n).length := by
  cases fuel with
  | zero => exact Nat.one_pos
  | succ fuel =>
    rw [lpback]
    split
    · exact Nat.one_pos
    · rw [List.length_append]
      exact Nat.succ_pos _

/-- The loop that counts the bytes of a back length counts those that are stored. -/
theorem lpback_length (fuel n : Nat) (i : Nat) :
    RdbListPack.lpback_size_loop fuel n (i + 1) = i + (lpback fuel n).length := by
  induction fuel generalizing n i with
  | zero => rfl
  | succ fuel ih =>
    rw [RdbListPack.lpback_size_loop, lpback]
    by_cases h : n < 128
    · rw [if_neg (by omega), if_pos h]
      rfl
    · rw [if_pos (by omega), if_neg h, ih, List.length_append, List.length_singleton, Nat.shiftRight_eq_div_pow]
      exact Nat.add_right_comm i 1 _

/-- A larger size takes no fewer bytes. -/
theorem lpback_length_mono (fuel : Nat) {m n : Nat} (h : m ≤ n) : (lpback fuel m).length ≤ (lpback fuel n).length := by
  induction fuel generalizing m n with
  | zero => exact Nat.le_refl 1
  | succ fuel ih =>
    by_cases hm : m < 128
    · rw [lpback, if_pos hm]
      exact lpback_pos (fuel + 1) n
    · have hn : ¬ n < 128 := by omega
      rw [lpback, if_neg hm, lpback, if_neg hn, List.length_append, List.length_append]
      exact Nat.add_le_add_right (ih (Nat.div_le_div_right h)) 1

/-- The decoder skips the size by the same number of bytes. -/
theorem lpback_size_eq (n : Nat) : RdbListPack.lpback_size n = (lpback 9 n).length := by
  rw [RdbListPack.lpback_size, lpback_length, Nat.zero_add]

end rdbparser.format
