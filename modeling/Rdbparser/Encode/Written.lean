import Rdbparser.Encode.Lists

/-! What the encoders of lists have written, and the strings they are given. -/

namespace rdbparser

/-- A string as `append_link` is given it: whole, or in two parts. -/
inductive LinkArg
  | whole (data : Mem) (sz : Nat)
  | two (data data2 : Mem) (sz sz2 : Nat)

def LinkArg.text : LinkArg → List UInt8
  | .whole data sz => data.take sz
  | .two data data2 sz sz2 => data.take sz ++ data2.take sz2

/-- A whole string and one in two parts. -/
def two_args : List LinkArg := [.whole (Mem.ofList [0x61] 0) 1, .two (Mem.ofList [0x62] 0) (Mem.ofList [0x63] 0) 1 1]

/-- The first with the second, the third with the fourth and so on. -/
def pairs {α : Type} : List α → List (α × α)
  | a :: b :: as => (a, b) :: pairs as
  | _ => []

/-- An even number of elements taken two by two, and put together again. -/
theorem pairs_flatMap {α : Type} (as : List α) (h : as.length % 2 = 0) :
    ((pairs as).flatMap fun p => [p.1, p.2]) = as := by
  induction as using pairs.induct with
  | case1 a b as ih =>
    rw [List.length_cons, List.length_cons] at h
    rw [pairs, List.flatMap_cons, ih (by omega)]
    rfl
  | case2 as hshort =>
    match as with
    | [] => rfl
    | [_] => exact absurd h (by simp)
    | a :: b :: as => exact absurd rfl (hshort a b as)

theorem u32_of_lt {n : Nat} (h : n < 2 ^ 32) : u32 n = n := Nat.mod_eq_of_lt h

theorem sub32_of_le {a b : Nat} (hle : b ≤ a) (hpos : 0 < b) (hlt : a < 2 ^ 32) : sub32 a b = a - b := by
  rw [sub32, u32]
  omega

/-- A number is not changed by a mask that it fits. -/
theorem and_mask_eq {n k : Nat} : n &&& (2 ^ k - 1) = n ↔ n < 2 ^ k := by
  rw [Nat.and_two_pow_sub_one_eq_mod]
  constructor
  · intro h
    rw [← h]
    exact Nat.mod_lt n (Nat.two_pow_pos k)
  · exact Nat.mod_eq_of_lt

/-- A byte is the low bits of a number. -/
theorem ofNat_and_0xff (n : Nat) : UInt8.ofNat (n &&& 0xff) = UInt8.ofNat n := by
  apply UInt8.toNat_inj.mp
  rw [UInt8.toNat_ofNat', UInt8.toNat_ofNat', show 0xff = 2 ^ 8 - 1 from rfl, Nat.and_two_pow_sub_one_eq_mod]
  omega

/-- The bytes `xs` are at the start of a buffer, and `off` is behind them. -/
structure Written (p : Mem) (off : Nat) (xs : List UInt8) : Prop where
  starts : p.Starts xs
  off_eq : off = xs.length

namespace Written

variable {p : Mem} {off : Nat} {xs : List UInt8}

theorem store (h : Written p off xs) (bs : List UInt8) (hfits : xs.length + bs.length < 2 ^ 32) :
    Written (p.store off bs) (u32 (off + bs.length)) (xs ++ bs) := by
  refine ⟨?_, ?_⟩
  · rw [h.off_eq]
    exact h.starts.store_end bs
  · rw [h.off_eq, u32_of_lt hfits, List.length_append]

/-- What is stored within takes the place of as many bytes. -/
theorem store_inside (xs bs : List UInt8) {old ys : List UInt8} (h : Written p off (xs ++ (old ++ ys)))
    (hlen : bs.length = old.length) :
    Written (p.store xs.length bs) off (xs ++ (bs ++ ys)) := by
  refine ⟨h.starts.store hlen, h.off_eq.trans ?_⟩
  simp only [List.length_append, hlen]

/-- Two parts behind one another. -/
theorem store_two (h : Written p off xs) (data data2 : Mem) (sz sz2 : Nat) (hfits : xs.length + (sz + sz2) < 2 ^ 32) :
    Written (if 0 < sz2 then (p.store off (data.take sz)).store (u32 (off + sz)) (data2.take sz2)
        else p.store off (data.take sz)) (u32 (off + u32 (sz + sz2))) (xs ++ (data.take sz ++ data2.take sz2)) := by
  have hfirst := h.store (data.take sz) (by rw [Mem.take_length]; omega)
  rw [Mem.take_length] at hfirst
  have hoff : u32 (off + sz) = xs.length + sz := by rw [h.off_eq, u32_of_lt (by omega)]
  by_cases hempty : sz2 = 0
  · subst hempty
    rw [if_neg (Nat.lt_irrefl 0), Mem.take_zero, List.append_nil, Nat.add_zero, u32_of_lt (n := sz) (by omega)]
    exact hfirst
  · have hsecond := hfirst.store (data2.take sz2) (by
      rw [List.length_append, Mem.take_length, Mem.take_length]
      omega)
    rw [if_pos (Nat.pos_of_ne_zero hempty), u32_of_lt (n := sz + sz2) (by omega), ← List.append_assoc]
    rw [Mem.take_length, hoff, Nat.add_assoc] at hsecond
    rw [hoff, h.off_eq]
    rwa [h.off_eq] at hsecond

/-- A buffer of which nothing is written yet but room is left for `n` bytes. -/
theorem of_room (p : Mem) (n : Nat) : Written p n (p.take n) :=
  ⟨by rw [Mem.Starts, Mem.take_length], (Mem.take_length p n).symm⟩

end Written

end rdbparser
