import Rdbparser.ZipList

/-! What the immediate integers say of the bytes they are read from. -/

namespace rdbparser

theorem sext_eq {w n : Nat} (hw : 0 < w) (h : n < 2 ^ w) :
    sext w n = if 2 * n < 2 ^ w then (n : Int) else (n : Int) - (2 ^ w : Nat) := by
  obtain ⟨v, rfl⟩ : ∃ v, w = v + 1 := ⟨w - 1, by omega⟩
  have hmod : (n : Int) % (2 ^ (v + 1) : Nat) = n := Int.emod_eq_of_lt (by omega) (by exact_mod_cast h)
  rw [sext, Int.bmod_def, hmod]
  rw [Nat.pow_succ] at *
  split <;> split <;> omega

theorem shiftLeft_or {a b i : Nat} (h : b < 2 ^ i) : a <<< i ||| b = a * 2 ^ i + b := by
  rw [← Nat.shiftLeft_add_eq_or_of_lt h, Nat.shiftLeft_eq]

/-- Two's complement in whole bytes. -/
theorem sext_starts {k : Nat} {v : Int} {p : Mem} (h : p.Starts (le_bytes k (twos (8 * k) v)))
    (hlo : -(2 ^ (8 * k) : Nat) ≤ 2 * v) (hhi : 2 * v < (2 ^ (8 * k) : Nat)) :
    sext (8 * k) (le_nat (p.take k)) = v := by
  have htake : p.take k = le_bytes k (twos (8 * k) v) := by simpa using h.take
  have hlt := twos_lt (8 * k) v
  rw [Nat.pow_mul] at hlt
  rw [htake, le_nat_le_bytes, Nat.mod_eq_of_lt hlt, sext_twos hlo hhi]

theorem le_nat_take_one (p : Mem) : le_nat (p.take 1) = (p 0).toNat := by
  simp [Mem.take, le_nat]

/-- 24 bits, little endian, of which the highest byte is extended by hand. -/
theorem s24_sext (p : Mem) : s24 p = twos 64 (sext 24 (le_nat (p.take 3))) := by
  have hlow := le_nat_lt (p.take 2)
  rw [Mem.take_length] at hlow
  have hbyte := (p 2).toNat_lt
  have hwhole : le_nat (p.take 3) = le_nat (p.take 2) + 2 ^ 16 * (p 2).toNat := by
    simp only [Mem.take, List.range_succ, List.range_zero, List.map_cons, List.map_nil, List.nil_append,
      List.cons_append, le_nat]
    omega
  rw [s24, hwhole, sext_eq (by decide) (by omega), sext_eq (by decide) (by omega)]
  generalize le_nat (p.take 2) = low at hlow
  generalize (p 2).toNat = top at hbyte
  by_cases hneg : 2 * top < 2 ^ 8
  · have htwos : twos 32 (top : Int) = top := by
      rw [twos]
      omega
    simp only [if_pos hneg, htwos, Nat.shiftLeft_eq]
    rw [if_neg (by omega), if_pos (by omega), Nat.mod_eq_of_lt (by omega), ← Nat.shiftLeft_eq,
      shiftLeft_or (by omega), twos]
    omega
  · have htwos : twos 32 ((top : Int) - (2 ^ 8 : Nat)) = top + 2 ^ 32 - 2 ^ 8 := by
      rw [twos]
      omega
    simp only [if_neg hneg, htwos]
    rw [if_pos (by omega), if_neg (by omega)]
    have hshift : (top + 2 ^ 32 - 2 ^ 8) <<< 16 % 2 ^ 32 = (top + 2 ^ 16 - 2 ^ 8) <<< 16 := by
      rw [Nat.shiftLeft_eq, Nat.shiftLeft_eq]
      omega
    have hin : (top + 2 ^ 16 - 2 ^ 8) <<< 16 ||| low = (top + 2 ^ 16 - 2 ^ 8) * 2 ^ 16 + low := shiftLeft_or (by omega)
    rw [hshift, hin, shiftLeft_or (by omega), twos]
    omega

end rdbparser
