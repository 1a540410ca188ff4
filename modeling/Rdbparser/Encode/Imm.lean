import Rdbparser.Encode.ListPack
import Rdbparser.ListPack.Ints

/-! Immediate integers as they are written, and what is read of them. -/

namespace rdbparser.RdbListPackEncode

open format RdbListPack ListPackEnc

/-- The form an integer is written in. -/
def imm_form (v : Int) : LpIntForm :=
  if v ≤ 0x7f ∧ 0 ≤ v then .uint7
  else if v ≤ 0xfff ∧ -0x1000 ≤ v then .int13
  else if v ≤ 0x7fff ∧ -0x8000 ≤ v then .int16
  else if v ≤ 0x7fffff ∧ -0x800000 ≤ v then .int24
  else if v ≤ 0x7fffffff ∧ -0x80000000 ≤ v then .int32
  else .int64

theorem lpnext_imm_code_eq (v : Int) : lpnext_imm_code v = int_enc (imm_form v) := by
  simp only [imm_form, apply_ite int_enc]
  rfl

theorem imm_form_holds (x : Int64) : (imm_form x.toInt).Holds x.toInt := by
  have hlo := x.le_toInt
  have hhi := x.toInt_lt
  unfold imm_form
  split_ifs <;> simp only [LpIntForm.Holds] <;> omega

/-- The parts that are written for an integer in this form; 13 bits lack their sign, and 24 bits begin with the
highest byte. -/
def imm_parts (v : Int) : LpIntForm → List (List UInt8)
  | .uint7 => [[UInt8.ofNat (twos 64 v)]]
  | .int13 => [[UInt8.ofNat (0xc0 + twos 64 v / 256 % 16)], [UInt8.ofNat (twos 64 v)]]
  | .int16 => [[0xf1], le_bytes 2 (twos 64 v)]
  | .int24 => [[0xf2], [UInt8.ofNat (twos 64 v / 2 ^ 16)], le_bytes 2 (twos 64 v)]
  | .int32 => [[0xf3], le_bytes 4 (twos 64 v)]
  | .int64 => [[0xf4], le_bytes 8 (twos 64 v)]

def imm_code (v : Int) : List UInt8 := (imm_parts v (imm_form v)).flatten

theorem imm_code_length (v : Int) : (imm_code v).length = lp_size (int_enc (imm_form v)) := by
  rw [imm_code, lp_size_eq]
  cases imm_form v <;> rfl

variable {e : RdbListPackEncode} {xs : List UInt8}

/-- Only the bits that the bytes hold are stored. -/
theorem le_bytes_and (k n : Nat) : le_bytes k (n &&& (2 ^ (8 * k) - 1)) = le_bytes k n := by
  rw [Nat.and_two_pow_sub_one_eq_mod, Nat.pow_mul]
  exact le_bytes_mod k n

/-- The bytes of an integer are put down one part after the other. -/
theorem encode_immediate_int_parts (v : Int) (form : LpIntForm) :
    { e with next := int_enc form }.encode_immediate_int (twos 64 v) =
      { (imm_parts v form).foldl put { e with next := int_enc form } with link_sz := lp_size (int_enc form) } := by
  have h16 : le_bytes 2 (twos 64 v &&& 0xffff) = le_bytes 2 (twos 64 v) := le_bytes_and 2 _
  cases form with
  | uint7 => rfl
  | int13 =>
    have hmark : ∀ n < 16, (0xc0 : UInt8) ||| UInt8.ofNat n = UInt8.ofNat (0xc0 + n) := by decide
    have hhi : (twos 64 v >>> 8) &&& 0xf = twos 64 v / 256 % 16 := by
      rw [show (0xf : Nat) = 2 ^ 4 - 1 from rfl, Nat.and_two_pow_sub_one_eq_mod, Nat.shiftRight_eq_div_pow]
    simp only [encode_immediate_int, int_enc, hhi, hmark _ (Nat.mod_lt (twos 64 v / 256) (show 0 < 16 by decide)),
      ofNat_and_0xff]
    rfl
  | int16 =>
    simp only [encode_immediate_int, int_enc, h16]
    rfl
  | int24 =>
    have htop : UInt8.ofNat ((twos 64 v &&& 0xff0000) >>> 16) = UInt8.ofNat (twos 64 v / 2 ^ 16) := by
      rw [Nat.shiftRight_and_distrib, Nat.shiftRight_eq_div_pow]
      exact ofNat_and_0xff _
    simp only [encode_immediate_int, int_enc, h16, htop]
    rfl
  | int32 =>
    have h32 : le_bytes 4 (twos 64 v &&& 0xffffffff) = le_bytes 4 (twos 64 v) := le_bytes_and 4 _
    simp only [encode_immediate_int, int_enc, h32]
    rfl
  | int64 => rfl

/-- Parts are put down one behind the other. -/
theorem puts_written (parts : List (List UInt8)) (h : Written e.p e.off xs)
    (hfits : xs.length + parts.flatten.length < 2 ^ 32) :
    Written (parts.foldl put e).p (parts.foldl put e).off (xs ++ parts.flatten) := by
  induction parts generalizing e xs with
  | nil => rwa [List.flatten_nil, List.append_nil]
  | cons bs parts ih =>
    rw [List.flatten_cons, List.length_append] at hfits
    have hrest := ih (put_written h bs (by omega)) (by
      rw [List.length_append]
      omega)
    rwa [List.flatten_cons, ← List.append_assoc]

/-- An element for an integer: its code, and the size of it. -/
def imm_bytes (v : Int) : List UInt8 := imm_code v ++ lpback 9 (imm_code v).length

/-- Appending an integer puts its bytes behind those that are there. -/
theorem append_immediate_int_written (v : Int) (h : Written e.p e.off xs)
    (hfits : xs.length + (imm_bytes v).length < 2 ^ 32) :
    Written (e.append_immediate_int v).p (e.append_immediate_int v).off (xs ++ imm_bytes v) := by
  rw [imm_bytes, List.length_append] at hfits
  have hcode := puts_written (e := { e with next := int_enc (imm_form v) }) (imm_parts v (imm_form v)) h
    (show xs.length + (imm_code v).length < 2 ^ 32 by omega)
  rw [append_immediate_int, lpnext_imm_code_eq, encode_immediate_int_parts, ← imm_code_length,
    imm_bytes, ← List.append_assoc]
  refine encode_back_written hcode ?_
  change (xs ++ imm_code v).length + (lpback 9 (imm_code v).length).length < 2 ^ 32
  rw [List.length_append]
  omega

/-- Appending integers puts the bytes of each behind those of the one before. -/
theorem appends_immediate_int_written (vs : List Int64) (h : Written e.p e.off xs)
    (hfits : xs.length + (vs.flatMap fun v => imm_bytes v.toInt).length < 2 ^ 32) :
    Written (vs.foldl (fun e v => e.append_immediate_int v.toInt) e).p
      (vs.foldl (fun e v => e.append_immediate_int v.toInt) e).off
      (xs ++ vs.flatMap fun v => imm_bytes v.toInt) := by
  induction vs generalizing e xs with
  | nil => rwa [List.flatMap_nil, List.append_nil]
  | cons v vs ih =>
    rw [List.flatMap_cons, List.length_append] at hfits
    have hrest := ih (append_immediate_int_written v.toInt h (by omega)) (by
      rw [List.length_append]
      omega)
    rwa [List.flatMap_cons, ← List.append_assoc]

/-- What is written for the integers. -/
def encode_ints (out : Mem) (vs : List Int64) : RdbListPackEncode :=
  (vs.foldl (fun e v => e.append_immediate_int v.toInt) (init out)).append_end

/-- The integer that is read: 13 bits are without their sign, and 24 bits are moved by a byte. -/
def imm_read (v : Int) : Int :=
  match imm_form v with
  | .int13 => v % 2 ^ 12
  | .int24 => sext 24 (twos 24 v / 2 ^ 16 + 256 * (twos 24 v % 2 ^ 16))
  | _ => v

/-- The code is that of the integer that is read, in the same form. -/
theorem imm_code_eq (x : Int64) : imm_code x.toInt = (imm_form x.toInt).bytes (imm_read x.toInt) ∧
    (imm_form x.toInt).Holds (imm_read x.toInt) ∧ ¬ (imm_form x.toInt = .int13 ∧ imm_read x.toInt < 0) := by
  have hv := imm_form_holds x
  generalize x.toInt = v at hv ⊢
  have hlow : ∀ k, k ≤ 8 → le_bytes k (twos 64 v) = le_bytes k (twos (8 * k) v) := fun k hk => by
    rw [← le_bytes_mod k (twos 64 v), ← twos_mod (v := 64) (w := 8 * k) (by omega), Nat.pow_mul]
  rw [imm_code, imm_read]
  generalize imm_form v = form at hv ⊢
  cases form with
  | uint7 =>
    have hv : 0 ≤ v ∧ v < 2 ^ 7 := hv
    have htwos : twos 64 v = v.toNat := by
      rw [twos]
      omega
    exact ⟨congrArg (fun n => [UInt8.ofNat n]) htwos, hv, fun h => absurd h.1 (by decide)⟩
  | int13 =>
    have hnn : 0 ≤ v % 2 ^ 12 ∧ v % 2 ^ 12 < 2 ^ 12 := by omega
    have htwos : (twos 64 v : Int) = v % 2 ^ 64 := by
      rw [twos]
      omega
    have hlow : (twos 13 (v % 2 ^ 12) : Int) = v % 2 ^ 12 := by
      rw [twos]
      omega
    dsimp only
    refine ⟨?_, ⟨by omega, hnn.2⟩, fun h => by omega⟩
    have hhi : twos 64 v / 256 % 16 = twos 13 (v % 2 ^ 12) / 256 := by omega
    have hlo : UInt8.ofNat (twos 64 v) = UInt8.ofNat (twos 13 (v % 2 ^ 12)) := by
      apply UInt8.toNat_inj.mp
      rw [UInt8.toNat_ofNat', UInt8.toNat_ofNat']
      omega
    rw [imm_parts, LpIntForm.bytes, hhi, hlo]
    rfl
  | int16 => exact ⟨congrArg (0xf1 :: ·) (hlow 2 (by decide)), hv, fun h => absurd h.1 (by decide)⟩
  | int24 =>
    have hlt := twos_lt 24 v
    have htop : twos 64 v / 2 ^ 16 % 256 = twos 24 v / 2 ^ 16 := by
      rw [← twos_mod (v := 64) (w := 24) (by decide)]
      omega
    have hlow : twos 64 v % 2 ^ 16 = twos 24 v % 2 ^ 16 := by
      rw [← twos_mod (v := 64) (w := 24) (by decide)]
      omega
    dsimp only
    generalize hn : twos 24 v / 2 ^ 16 + 256 * (twos 24 v % 2 ^ 16) = n
    have htwos : twos 24 (sext 24 n) = n := by
      rw [sext_eq (by decide) (by omega), twos]
      split <;> omega
    refine ⟨?_, ?_, fun h => absurd h.1 (by decide)⟩
    · have hfirst : UInt8.ofNat (twos 64 v / 2 ^ 16) = UInt8.ofNat n := by
        apply UInt8.toNat_inj.mp
        rw [UInt8.toNat_ofNat', UInt8.toNat_ofNat']
        omega
      have hrest : le_bytes 2 (twos 64 v) = le_bytes 2 (n / 256) := by
        rw [← le_bytes_mod 2 (twos 64 v), show twos 64 v % 256 ^ 2 = n / 256 by omega]
      rw [imm_parts, LpIntForm.bytes, htwos, hfirst, hrest]
      rfl
    · have hlo : -(2 ^ 23) ≤ sext 24 n := Int.le_bmod (by decide)
      have hhi : sext 24 n < 2 ^ 23 := Int.bmod_lt (by decide)
      exact ⟨hlo, hhi⟩
  | int32 => exact ⟨congrArg (0xf3 :: ·) (hlow 4 (by decide)), hv, fun h => absurd h.1 (by decide)⟩
  | int64 => exact ⟨rfl, hv, fun h => absurd h.1 (by decide)⟩

/-- An integer that is not below 0 in 13 bits, and not of different bytes in 24. -/
def Kept (v : Int) : Prop :=
  ¬ (-0x1000 ≤ v ∧ v < 0) ∧ (lpnext_imm_code v = LP_24BIT_INT → twos 24 v % 0x10101 = 0)

instance (v : Int) : Decidable (Kept v) := inferInstanceAs (Decidable (_ ∧ _))

/-- An integer is read back as it is written if and only if its form keeps it: those of 13 bits from 0 on, those of 24
bits with three equal bytes, and all others. -/
theorem imm_read_eq (v : Int) : imm_read v = v ↔ Kept v := by
  have hcode : lpnext_imm_code v = LP_24BIT_INT ↔ imm_form v = .int24 := by
    rw [lpnext_imm_code_eq]
    cases imm_form v <;> decide
  have h13 : imm_form v = .int13 ↔ -0x1000 ≤ v ∧ v ≤ 0xfff ∧ ¬ (0 ≤ v ∧ v ≤ 0x7f) := by
    unfold imm_form
    split_ifs <;> simp <;> omega
  have h24 : imm_form v = .int24 → -0x800000 ≤ v ∧ v ≤ 0x7fffff ∧ ¬ (-0x8000 ≤ v ∧ v ≤ 0x7fff) := by
    unfold imm_form
    split_ifs <;> simp
    omega
  rw [Kept, hcode]
  by_cases hint13 : imm_form v = .int13
  · have hv := h13.mp hint13
    rw [imm_read, hint13]
    dsimp only
    constructor
    · exact fun h => ⟨by omega, nofun⟩
    · exact fun h => by omega
  · by_cases hint24 : imm_form v = .int24
    · have hv := h24 hint24
      have hlt := twos_lt 24 v
      have hback : ∀ n < 2 ^ 24, sext 24 n = v ↔ n = twos 24 v := fun n hn => by
        constructor
        · rintro rfl
          rw [sext_eq (by decide) hn, twos]
          split <;> omega
        · rintro rfl
          exact sext_twos (by omega) (by omega)
      rw [imm_read, hint24]
      dsimp only
      rw [hback _ (by omega)]
      constructor
      · exact fun h => ⟨by omega, fun _ => by omega⟩
      · exact fun h => by
          have hsame := h.2 rfl
          omega
    · have hread : imm_read v = v := by
        rw [imm_read]
        split
        · exact absurd ‹_› hint13
        · exact absurd ‹_› hint24
        · rfl
      refine iff_of_true hread ⟨fun h => hint13 (h13.mpr ?_), fun h => absurd h hint24⟩
      omega

theorem imm_bytes_eq (x : Int64) : imm_bytes x.toInt =
    LpInt.bytes ⟨imm_form x.toInt, imm_read x.toInt, (imm_code_eq x).2.1⟩ := by
  change imm_bytes x.toInt = (imm_form x.toInt).bytes (imm_read x.toInt) ++
    lpback 9 ((imm_form x.toInt).bytes (imm_read x.toInt)).length
  rw [imm_bytes, (imm_code_eq x).1]

/-- An integer is found where it was written, but not always the same. -/
theorem next_imm_bytes (x : Int64) {l : RdbListPack} {lval : RdbListValue}
    (hp : (l.base.mem.add (l.walk.pos lval)).Starts (imm_bytes x.toInt))
    (hend : l.walk.pos lval + (imm_bytes x.toInt).length ≤ l.end_) :
    ∃ t, l.walk.next lval = (true, t) ∧ l.walk.found t = .int (twos 64 (imm_read x.toInt)) ∧
      l.walk.pos t = l.walk.pos lval + (imm_bytes x.toInt).length := by
  rw [imm_bytes_eq] at hp hend ⊢
  obtain ⟨t, hnext, hpos, hfound⟩ := next_lpint _ hp hend
  exact ⟨t, hnext, hfound.mpr (imm_code_eq x).2.2, hpos⟩

/-- The same for the word of 64 bits that is handed out. -/
theorem imm_read_word (x : Int64) : twos 64 (imm_read x.toInt) = twos 64 x.toInt ↔ imm_read x.toInt = x.toInt := by
  have hlo := x.le_toInt
  have hhi := x.toInt_lt
  have hrange : -2 ^ 63 ≤ imm_read x.toInt ∧ imm_read x.toInt < 2 ^ 63 := by
    have hread := (imm_code_eq x).2.1
    generalize imm_form x.toInt = form at hread
    cases form <;> simp only [LpIntForm.Holds] at hread <;> omega
  constructor
  · intro h
    have hword := congrArg (sext 64) h
    rwa [sext_twos (by omega) (by omega), sext_twos (by omega) (by omega)] at hword
  · exact congrArg (twos 64)

/-- What is written for the integers is a list pack of them. -/
theorem encode_ints_written (out : Mem) (vs : List Int64)
    (hfits : 6 + (vs.flatMap fun v => imm_bytes v.toInt).length + 1 < 2 ^ 32) :
    ∃ lplen, Written (encode_ints out vs).p (encode_ints out vs).off
      (listpack lplen (vs.flatMap fun v => imm_bytes v.toInt)) :=
  ⟨_, append_end_written (Mem.take_length out 6) (appends_immediate_int_written vs (.of_room out 6) (by
    rw [Mem.take_length]
    exact Nat.lt_of_succ_lt hfits)) hfits⟩

/-- The integers are found in a list pack of them if and only if they are read as they were written. -/
theorem listpack_imm_iff {lplen : Nat} {vs : List Int64}
    (hfits : 6 + (vs.flatMap fun v => imm_bytes v.toInt).length + 1 < 2 ^ 32) {b : Ptr}
    (hb : b.mem.Starts (listpack lplen (vs.flatMap fun v => imm_bytes v.toInt))) :
    (∃ l, RdbListPack.init b (listpack lplen (vs.flatMap fun v => imm_bytes v.toInt)).length = some l ∧
      l.first = l.next l.start ∧
      l.walk.Finds (fun i => i + 1 = (listpack lplen (vs.flatMap fun v => imm_bytes v.toInt)).length ∧
        b.mem i = 0xff) l.start
        (vs.map fun v => .int (twos 64 v.toInt))) ↔
    ∀ v ∈ vs, imm_read v.toInt = v.toInt := by
  refine listpack_finds_iff (fun v : Int64 => .int (twos 64 v.toInt)) (fun v => imm_read v.toInt = v.toInt)
    (fun v l lval hv hp hend => ?_) (fun v l lval hv hp hend t hnext hfound => ?_) hfits hb
  · obtain ⟨t, hnext, hfound, hpos⟩ := next_imm_bytes v hp (Nat.le_of_lt hend)
    exact ⟨t, hnext, by rw [hfound, hv], hpos⟩
  · obtain ⟨t', hnext', hfound', -⟩ := next_imm_bytes v hp (Nat.le_of_lt hend)
    obtain rfl := (Prod.mk.inj (hnext'.symm.trans hnext)).2
    rw [hfound', ListPackElem.int.injEq] at hfound
    exact hv ((imm_read_word v).mp hfound)

end rdbparser.RdbListPackEncode
