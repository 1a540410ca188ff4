import Mathlib.Logic.Function.Iterate
import Rdbparser.Encode.Mixed

/-! Sizes behind the elements of a list pack, read from the last byte towards the first. -/

namespace rdbparser

/-- The size is accumulated while the mark is set, 7 bits at a time and the low ones first. What is left are the bytes
in front of it. -/
def lpback_read : List UInt8 → Option (Nat × List UInt8)
  | [] => none
  | b :: bs =>
    if b.toNat &&& 0x80 = 0 then some (b.toNat, bs)
    else (lpback_read bs).map fun (n, rest) => ((b.toNat &&& 0x7f) + (n <<< 7), rest)

/-- The start of the element that ends at `i`. -/
def element_before (p : Mem) (i : Nat) : Option Nat :=
  (lpback_read (p.take i).reverse).map fun (n, rest) => rest.length - n

namespace RdbListPackEncode

open RdbListPack format

/-- What `encode_back` writes is read back, and no byte in front of it. -/
theorem lpback_read_lpback (fuel : Nat) {n : Nat} (h : n < 128 ^ (fuel + 1)) (rest : List UInt8) :
    lpback_read ((lpback fuel n).reverse ++ rest) = some (n, rest) := by
  have hlast : ∀ m < 128, lpback_read ([UInt8.ofNat m].reverse ++ rest) = some (m, rest) := by
    intro m hm
    have hbyte : ∀ m < 128, (UInt8.ofNat m).toNat &&& 0x80 = 0 ∧ (UInt8.ofNat m).toNat = m := by decide +kernel
    obtain ⟨hmark, hval⟩ := hbyte m hm
    rw [List.reverse_singleton, List.singleton_append, lpback_read, if_pos hmark, hval]
  induction fuel generalizing n with
  | zero => exact hlast n h
  | succ fuel ih =>
    rw [lpback]
    by_cases hn : n < 128
    · rw [if_pos hn]
      exact hlast n hn
    · have hbyte : ∀ m < 128, (UInt8.ofNat (0x80 + m)).toNat &&& 0x80 ≠ 0 ∧
          (UInt8.ofNat (0x80 + m)).toNat &&& 0x7f = m := by
        decide +kernel
      obtain ⟨hmark, hval⟩ := hbyte (n % 128) (Nat.mod_lt n (by decide))
      have hhigh : n / 128 < 128 ^ (fuel + 1) := by
        rw [Nat.pow_succ] at h
        omega
      rw [if_neg hn, List.reverse_append, List.reverse_singleton, List.singleton_append, List.cons_append,
        lpback_read, if_neg hmark,
        ih hhigh, hval]
      have hsum : n % 128 + (n / 128) <<< 7 = n := by
        rw [Nat.shiftLeft_eq]
        omega
      exact congrArg (fun n => some (n, rest)) hsum

/-- A back length takes a byte more than there is fuel at most. -/
theorem lpback_length_le (fuel n : Nat) : (lpback fuel n).length ≤ fuel + 1 := by
  induction fuel generalizing n with
  | zero => exact Nat.le_refl 1
  | succ fuel ih =>
    rw [lpback]
    split
    · exact Nat.le_add_left 1 _
    · rw [List.length_append]
      exact Nat.succ_le_succ (ih _)

theorem sub32_inj {a i j : Nat} (hi : i < 2 ^ 32) (hj : j < 2 ^ 32) (h : sub32 a i = sub32 a j) : i = j := by
  rw [sub32, sub32, u32, u32] at h
  omega

theorem store_one (p : Mem) (a : Nat) (b : UInt8) (x : Nat) : (p.store a [b]) x = if x = a then b else p x := by
  rw [Mem.store, List.length_singleton]
  by_cases hx : x = a
  · rw [if_pos hx, if_pos (by omega), hx, Nat.sub_self]
    rfl
  · rw [if_neg hx, if_neg (by omega)]

/-- The loop with the store behind it. -/
def back_stored (off k i n : Nat) (p : Mem) : Mem :=
  (back_loop off k i n p).2.store (sub32 off (i + k)) [UInt8.ofNat (back_loop off k i n p).1]

/-- A group is stored at each place, and nothing elsewhere; the offset may have gone beyond 32 bits. -/
def Groups (p q : Mem) (off top : Nat) (bs : List UInt8) : Prop :=
  (∀ m < bs.length, bs[m]? = some (q (sub32 off (top - m)))) ∧ ∀ x, (∀ m < bs.length, x ≠ sub32 off (top - m)) →
    q x = p x

theorem groups_one (p : Mem) (off i : Nat) (b : UInt8) : Groups p (p.store (sub32 off i) [b]) off i [b] := by
  refine ⟨fun m hm => ?_, fun x hx => ?_⟩
  · obtain rfl : m = 0 := Nat.lt_one_iff.mp hm
    rw [Nat.sub_zero, store_one, if_pos rfl]
    rfl
  · have hone : x ≠ sub32 off i := hx 0 Nat.one_pos
    rw [store_one, if_neg hone]

/-- The loop of the back length stores its groups of seven bits from the last byte to the first. -/
theorem back_stored_groups {fuel n k i : Nat} (off : Nat) {p : Mem} (hlen : (lpback fuel n).length = k + 1)
    (hlt : i + k < 2 ^ 32) :
    Groups p (back_stored off k i n p) off (i + k) (lpback fuel n) := by
  induction fuel generalizing n k i p with
  | zero =>
    obtain rfl : k = 0 := (Nat.succ.inj hlen).symm
    exact groups_one p off i _
  | succ fuel ih =>
    rw [lpback] at hlen ⊢
    by_cases hn : n < 128
    · rw [if_pos hn] at hlen ⊢
      obtain rfl : k = 0 := (Nat.succ.inj hlen).symm
      exact groups_one p off i _
    · rw [if_neg hn, List.length_append, List.length_singleton] at hlen
      have hpos := lpback_pos fuel (n / 128)
      obtain ⟨j, rfl⟩ : ∃ j, k = j + 1 := ⟨k - 1, by omega⟩
      have hstep : back_stored off (j + 1) i n p =
          back_stored off j (i + 1) (n / 128) (p.store (sub32 off i) [UInt8.ofNat (0x80 + n % 128)]) := by
        rw [back_stored, back_loop, group_mark, Nat.shiftRight_eq_div_pow, back_stored, Nat.add_right_comm]
        rfl
      have hplace : ∀ m < (lpback fuel (n / 128)).length, sub32 off i ≠ sub32 off (i + 1 + j - m) := by
        intro m hm h
        have hsame := sub32_inj (by omega) (by omega) h
        omega
      obtain ⟨hget, hkept⟩ := ih (n := n / 128) (k := j) (i := i + 1)
        (p := p.store (sub32 off i) [UInt8.ofNat (0x80 + n % 128)])
        (by omega) (by omega)
      rw [if_neg hn, hstep, show i + (j + 1) = i + 1 + j by omega]
      refine ⟨fun m hm => ?_, fun x hx => ?_⟩
      · rw [List.length_append, List.length_singleton] at hm
        by_cases hlast : m < (lpback fuel (n / 128)).length
        · rw [List.getElem?_append_left hlast, hget m hlast]
        · obtain rfl : m = (lpback fuel (n / 128)).length := by omega
          rw [List.getElem?_append_right (Nat.le_refl _), Nat.sub_self,
            show i + 1 + j - (lpback fuel (n / 128)).length = i by omega,
            hkept _ hplace, store_one, if_pos rfl]
          rfl
      · rw [List.length_append, List.length_singleton] at hx
        have hone := hx (lpback fuel (n / 128)).length (Nat.lt_succ_self _)
        rw [show i + 1 + j - (lpback fuel (n / 128)).length = i by omega] at hone
        rw [hkept x fun m hm => hx m (Nat.lt_succ_of_lt hm), store_one, if_neg hone]

/-- What is at the places of the size. -/
def back_bytes (e : RdbListPackEncode) : List UInt8 :=
  (List.range (lpback_size e.link_sz)).map fun m => e.encode_back.p (u32 (e.off + m))

/-- The bytes of a back length, how far the offset is moved, and that no other byte is changed. -/
theorem encode_back_bytes (e : RdbListPackEncode) : back_bytes e = lpback 9 e.link_sz ∧
    e.encode_back.off = u32 (e.off + lpback_size e.link_sz) ∧
    ∀ x, (∀ m < lpback_size e.link_sz, x ≠ u32 (e.off + m)) → e.encode_back.p x = e.p x := by
  have hpos := lpback_pos 9 e.link_sz
  have hle := lpback_length_le 9 e.link_sz
  obtain ⟨k, hk⟩ : ∃ k, (lpback 9 e.link_sz).length = k + 1 := ⟨(lpback 9 e.link_sz).length - 1, by omega⟩
  obtain ⟨hget, hkept⟩ := back_stored_groups (i := 1) (u32 (e.off + (k + 1))) (p := e.p) hk (by omega)
  have hplace : ∀ m < (lpback 9 e.link_sz).length, sub32 (u32 (e.off + (k + 1))) (1 + k - m) = u32 (e.off + m) := by
    intro m hm
    unfold sub32 u32
    omega
  have hp : e.encode_back.p = back_stored (u32 (e.off + (k + 1))) k 1 e.link_sz e.p := by
    rw [encode_back, lpback_size_eq, hk, back_stored, Nat.add_comm 1 k, Nat.add_sub_cancel]
  refine ⟨List.ext_getElem? fun m => ?_, rfl, fun x hx => ?_⟩
  · rw [back_bytes, lpback_size_eq, hp]
    by_cases hm : m < (lpback 9 e.link_sz).length
    · rw [hget m hm, hplace m hm, List.getElem?_map, List.getElem?_range hm]
      rfl
    · rw [List.getElem?_eq_none (Nat.le_of_not_lt hm), List.getElem?_eq_none (by simpa using Nat.le_of_not_lt hm)]
  · rw [hp]
    exact hkept x fun m hm => hplace m hm ▸ hx m (lpback_size_eq _ ▸ hm)

/-- Where the element `k` begins. -/
def elem_start (out : Mem) (xs : List LpArg) (k : Nat) : Nat := ((xs.take k).foldl append_arg (init out)).off

/-- An element starts behind the header and the bytes of those in front of it. -/
theorem elem_start_eq {out : Mem} {xs : List LpArg} (hfits : 6 + (xs.flatMap LpArg.bytes).length + 1 < 2 ^ 32)
    (k : Nat) :
    elem_start out xs k = 6 + ((xs.take k).flatMap LpArg.bytes).length := by
  have hsplit : ((xs.take k).flatMap LpArg.bytes).length + ((xs.drop k).flatMap LpArg.bytes).length =
      (xs.flatMap LpArg.bytes).length := by
    rw [← List.length_append, ← List.flatMap_append, List.take_append_drop]
  have hwritten := append_args_written (e := init out) (xs.take k) (.of_room out 6) (by
    rw [Mem.take_length]
    omega)
  rw [elem_start, hwritten.off_eq, List.length_append, Mem.take_length]

/-- The size behind an element leads to its start. -/
theorem element_before_eq {p : Mem} {pre : List UInt8} {x : LpArg} (h : p.Starts (pre ++ x.bytes))
    (hfits : x.body.length < 2 ^ 32) :
    element_before p (pre.length + x.bytes.length) = some pre.length := by
  have hread := lpback_read_lpback 9 (n := x.body.length) (by omega) (pre ++ x.body).reverse
  rw [← List.reverse_append, List.append_assoc] at hread
  have htake := h.take
  rw [List.length_append] at htake
  rw [element_before, htake, LpArg.bytes, hread]
  change some ((pre ++ x.body).reverse.length - x.body.length) = _
  rw [List.length_reverse, List.length_append, Nat.add_sub_cancel]

/-- From behind each element its back length leads to where it starts, down to the first. -/
theorem list_back_step (out : Mem) (xs : List LpArg) (hfits : 6 + (xs.flatMap LpArg.bytes).length + 1 < 2 ^ 32) :
    elem_start out xs xs.length + 1 = (encode_args out xs).off ∧
      (encode_args out xs).p (elem_start out xs xs.length) = 0xff ∧
    ∀ k < xs.length, element_before (encode_args out xs).p (elem_start out xs (k + 1)) =
      some (elem_start out xs k) := by
  have hwritten := append_end_written (Mem.take_length out 6)
    (append_args_written (e := init out) xs (.of_room out 6) (by
    rw [Mem.take_length]
    omega)) hfits
  have hstarts := hwritten.starts
  have hoff := hwritten.off_eq
  rw [listpack, ← List.append_assoc] at hstarts
  refine ⟨?_, ?_, fun k hk => ?_⟩
  · rw [elem_start_eq hfits, List.take_length]
    exact (hoff.trans (listpack_length _ _)).symm
  · rw [← List.append_assoc, Mem.starts_append] at hstarts
    have hlast := (Mem.starts_cons.mp hstarts.2).1
    rw [Mem.add_apply, Nat.add_zero, List.length_append, List.length_append, le_bytes_length, le_bytes_length] at hlast
    rw [elem_start_eq hfits, List.take_length]
    exact hlast
  · have htake : xs.take (k + 1) = xs.take k ++ [xs[k]] := List.take_succ_eq_append_getElem hk
    have hall : xs.flatMap LpArg.bytes =
        (xs.take k).flatMap LpArg.bytes ++ xs[k].bytes ++ (xs.drop (k + 1)).flatMap LpArg.bytes := by
      conv => lhs; rw [← List.take_append_drop (k + 1) xs, htake, List.flatMap_append, List.flatMap_append,
        List.flatMap_singleton]
    have hbody : xs[k].body.length < 2 ^ 32 := by
      rw [hall, List.length_append, List.length_append, LpArg.bytes, List.length_append] at hfits
      omega
    rw [elem_start_eq hfits, elem_start_eq hfits, htake, List.flatMap_append, List.flatMap_singleton,
      List.length_append]
    rw [hall, ← List.append_assoc, Mem.starts_append, ← List.append_assoc, Mem.starts_append,
      ← List.append_assoc] at hstarts
    have hbefore := element_before_eq hstarts.1.1 hbody
    rwa [List.length_append, List.length_append, le_bytes_length, le_bytes_length, Nat.add_assoc] at hbefore

/-- The size written behind an element is read from its last byte, up to its first; so a list pack is traversed
from its end marker to its first element. Elements may be strings and integers of any size that fits, in any
order. -/
theorem list_encode_back :
    (∀ e : RdbListPackEncode, e.link_sz < 2 ^ 32 →
      back_bytes e = lpback 9 e.link_sz ∧ lpback_read (back_bytes e).reverse = some (e.link_sz, []) ∧
      e.encode_back.off = u32 (e.off + lpback_size e.link_sz) ∧
      ∀ x, (∀ m < lpback_size e.link_sz, x ≠ u32 (e.off + m)) → e.encode_back.p x = e.p x) ∧
    ∀ (out : Mem) (xs : List LpArg), 6 + (xs.flatMap LpArg.bytes).length + 1 < 2 ^ 32 →
      elem_start out xs 0 = 6 ∧ elem_start out xs xs.length + 1 = (encode_args out xs).off ∧
      (encode_args out xs).p (elem_start out xs xs.length) = 0xff ∧
      ∀ j ≤ xs.length, (fun i => i.bind (element_before (encode_args out xs).p))^[j]
        (some (elem_start out xs xs.length)) =
        some (elem_start out xs (xs.length - j)) := by
  refine ⟨fun e hlink => ?_, fun out xs hfits => ?_⟩
  · obtain ⟨hbytes, hoff, hkept⟩ := encode_back_bytes e
    have hread := lpback_read_lpback 9 (n := e.link_sz) (by omega) []
    rw [List.append_nil] at hread
    exact ⟨hbytes, hbytes ▸ hread, hoff, hkept⟩
  · obtain ⟨hend, hmark, hstep⟩ := list_back_step out xs hfits
    refine ⟨rfl, hend, hmark, fun j hj => ?_⟩
    induction j with
    | zero => rfl
    | succ j ih =>
      rw [Function.iterate_succ_apply', ih (Nat.le_of_succ_le hj), Option.bind_some]
      have hbefore := hstep (xs.length - (j + 1)) (by omega)
      rwa [show xs.length - (j + 1) + 1 = xs.length - j by omega] at hbefore

theorem list_encode_back_three : lpback_read (back_bytes { init 0 with link_sz := 500 }).reverse = some (500, []) ∧
    ∀ j ≤ 3, (fun i => i.bind (element_before (encode_args 0 three_args).p))^[j] (some (elem_start 0 three_args 3)) =
      some (elem_start 0 three_args (3 - j)) :=
  ⟨(list_encode_back.1 { init 0 with link_sz := 500 } (by decide)).2.1,
    (list_encode_back.2 0 three_args (by decide)).2.2.2⟩

end RdbListPackEncode

end rdbparser
