import Rdbparser.ListPack.Read
import Rdbparser.Length.Header

/-! List packs of immediate integers in the documented forms. -/

namespace rdbparser.RdbListPack

open format ListPackEnc

/-- The code of an integer in this form. -/
def int_enc : LpIntForm → ListPackEnc
  | .uint7 => LP_7BIT_UINT
  | .int13 => LP_13BIT_INT
  | .int16 => LP_16BIT_INT
  | .int24 => LP_24BIT_INT
  | .int32 => LP_32BIT_INT
  | .int64 => LP_64BIT_INT

theorem int_enc_immed (form : LpIntForm) : is_immed (int_enc form) = true ∧ int_enc form ≠ LP_END := by
  cases form <;> decide

theorem int_size (form : LpIntForm) (v : Int) : lp_size (int_enc form) = (form.bytes v).length := by
  rw [lp_size_eq]
  cases form <;> simp [int_enc, LpIntForm.bytes]

/-- The sign bit of 13 bits is in the first byte. -/
theorem lp_code_int13 {n : Nat} (h : n < 2 ^ 13) : lp_code (UInt8.ofNat (0xc0 + n / 256)) = LP_13BIT_INT ∧
    (UInt8.ofNat (0xc0 + n / 256)).toNat &&& 0x10 = (if n < 2 ^ 12 then 0 else 0x10) ∧
    (UInt8.ofNat (0xc0 + n / 256)).toNat &&& 0xf = n / 256 % 16 := by
  have hbyte : ∀ n < 2 ^ 5, lp_code (UInt8.ofNat (0xc0 + n)) = LP_13BIT_INT ∧
      (UInt8.ofNat (0xc0 + n)).toNat &&& 0x10 = (if n < 2 ^ 4 then 0 else 0x10) ∧
      (UInt8.ofNat (0xc0 + n)).toNat &&& 0xf = n % 16 := by decide
  obtain ⟨hcode, hsign, hlow⟩ := hbyte (n / 256) (by omega)
  refine ⟨hcode, hsign.trans ?_, hlow⟩
  split <;> split <;> omega

/-- The opcode of an integer is told by its first byte in each of the six forms. -/
theorem lp_code_int (form : LpIntForm) {v : Int} (hv : form.Holds v) {p : Mem} (hp : p.Starts (form.bytes v)) :
    lp_code (p 0) = int_enc form := by
  cases form with
  | uint7 =>
    have hv : 0 ≤ v ∧ v < 2 ^ 7 := hv
    have h0 : p 0 = UInt8.ofNat v.toNat := (Mem.starts_cons.mp hp).1
    have hcode : ∀ n < 2 ^ 7, lp_code (UInt8.ofNat n) = LP_7BIT_UINT := by decide +kernel
    rw [h0, hcode _ (by omega)]
    rfl
  | int13 =>
    have h0 : p 0 = UInt8.ofNat (0xc0 + twos 13 v / 256) := (Mem.starts_cons.mp hp).1
    rw [h0, (lp_code_int13 (twos_lt 13 v)).1]
    rfl
  | int16 => rw [(Mem.starts_cons.mp hp).1]; decide
  | int24 => rw [(Mem.starts_cons.mp hp).1]; decide
  | int32 => rw [(Mem.starts_cons.mp hp).1]; decide
  | int64 => rw [(Mem.starts_cons.mp hp).1]; decide

/-- 13 bits are read well unless they are negative. -/
theorem s13_int13 {v : Int} (hv : LpIntForm.int13.Holds v) {p : Mem} (hp : p.Starts (LpIntForm.int13.bytes v)) :
    s13 p = twos 64 v ↔ ¬ v < 0 := by
  have hv : -2 ^ 12 ≤ v ∧ v < 2 ^ 12 := hv
  obtain ⟨h0, h1⟩ := Mem.starts_cons.mp hp
  have h1 : p 1 = UInt8.ofNat (twos 13 v) := (Mem.starts_cons.mp h1).1
  obtain ⟨-, hsign, hlow⟩ := lp_code_int13 (twos_lt 13 v)
  have hlo : (UInt8.ofNat (twos 13 v)).toNat = twos 13 v % 256 := UInt8.toNat_ofNat'
  have hhi : (UInt8.ofNat (0xc0 + twos 13 v / 256)).toNat = 0xc0 + twos 13 v / 256 := by
    have hlt := twos_lt 13 v
    exact RdbLength.toNat_ofNat_lt (by omega)
  rw [s13, h0, h1, hsign, hlow, hlo, hhi]
  by_cases hneg : v < 0
  · have hn : (twos 13 v : Int) = 2 ^ 13 + v := by
      rw [twos]
      omega
    have h64 : (twos 64 v : Int) = 2 ^ 64 + v := by
      rw [twos]
      omega
    have htop : twos 32 (16 - (twos 13 v / 256 % 16 : Nat)) = 16 - twos 13 v / 256 % 16 := by
      rw [twos]
      omega
    refine iff_of_false ?_ (not_not.mpr hneg)
    rw [if_pos (by rw [if_neg (by omega)]; decide)]
    dsimp only
    rw [htop, Nat.mod_eq_of_lt (by rw [Nat.shiftLeft_eq]; omega)]
    have hword : (16 - twos 13 v / 256 % 16) <<< 8 ||| twos 13 v % 256 =
        (16 - twos 13 v / 256 % 16) * 2 ^ 8 + twos 13 v % 256 := shiftLeft_or (by omega)
    rw [hword, shiftLeft_or (by omega)]
    omega
  · have hn : (twos 13 v : Int) = v := by
      rw [twos]
      omega
    have h64 : (twos 64 v : Int) = v := by
      rw [twos]
      omega
    refine iff_of_true ?_ hneg
    rw [if_neg (by rw [if_pos (by omega)]; decide), shiftLeft_or (by omega), show (0x1fff : Nat) = 2 ^ 13 - 1 from rfl,
      Nat.and_two_pow_sub_one_eq_mod]
    omega

/-- Every other form is read well. -/
theorem lp_val_int (form : LpIntForm) {v : Int} (hv : form.Holds v) {p : Mem} (hp : p.Starts (form.bytes v)) :
    lp_val (int_enc form) p = twos 64 v ↔ ¬ (form = .int13 ∧ v < 0) := by
  cases form with
  | uint7 =>
    have hv : 0 ≤ v ∧ v < 2 ^ 7 := hv
    have h0 : p 0 = UInt8.ofNat v.toNat := (Mem.starts_cons.mp hp).1
    refine iff_of_true ?_ fun h => absurd h.1 (by decide)
    rw [int_enc, lp_val, h0, RdbLength.toNat_ofNat_lt (by omega), show (0x7f : Nat) = 2 ^ 7 - 1 from rfl,
      Nat.and_two_pow_sub_one_eq_mod, twos]
    omega
  | int13 =>
    rw [int_enc, lp_val, s13_int13 hv hp]
    exact not_congr ⟨fun h => ⟨rfl, h⟩, fun h => h.2⟩
  | int16 =>
    have hv : -2 ^ 15 ≤ v ∧ v < 2 ^ 15 := hv
    have hword := sext_starts (k := 2) (Mem.starts_cons.mp hp).2 (by omega) (by omega)
    refine iff_of_true ?_ fun h => absurd h.1 (by decide)
    rw [int_enc, lp_val, s16]
    exact congrArg (twos 64) hword
  | int24 =>
    have hv : -2 ^ 23 ≤ v ∧ v < 2 ^ 23 := hv
    have hword := sext_starts (k := 3) (Mem.starts_cons.mp hp).2 (by omega) (by omega)
    refine iff_of_true ?_ fun h => absurd h.1 (by decide)
    rw [int_enc, lp_val, s24_sext]
    exact congrArg (twos 64) hword
  | int32 =>
    have hv : -2 ^ 31 ≤ v ∧ v < 2 ^ 31 := hv
    have hword := sext_starts (k := 4) (Mem.starts_cons.mp hp).2 (by omega) (by omega)
    refine iff_of_true ?_ fun h => absurd h.1 (by decide)
    rw [int_enc, lp_val, s32]
    exact congrArg (twos 64) hword
  | int64 =>
    have htake : (p.add 1).take 8 = le_bytes 8 (twos 64 v) := by
      have h := (Mem.starts_cons.mp hp).2.take
      rwa [le_bytes_length] at h
    have hlt := twos_lt 64 v
    refine iff_of_true ?_ fun h => absurd h.1 (by decide)
    rw [int_enc, lp_val, s64, htake, le_nat_le_bytes, Nat.mod_eq_of_lt (by omega)]

theorem lpint_length (x : LpInt) :
    x.bytes.length = lp_size (int_enc x.form) + lpback_size (lp_size (int_enc x.form)) := by
  rw [LpInt.bytes, List.length_append, ← lpback_size_eq, int_size x.form x.val]

/-- An integer is found where it lies, and skipped by its size, but its value is right only if it is not a negative one
of 13 bits. -/
theorem next_lpint (x : LpInt) {l : RdbListPack} {lval : RdbListValue}
    (hp : (l.base.mem.add (l.walk.pos lval)).Starts x.bytes) (hend : l.walk.pos lval + x.bytes.length ≤ l.end_) :
    ∃ t, l.walk.next lval = (true, t) ∧ l.walk.pos t = l.walk.pos lval + x.bytes.length ∧
      (l.walk.found t = .int (twos 64 x.val) ↔ ¬ (x.form = .int13 ∧ x.val < 0)) := by
  rw [lpint_length] at hend ⊢
  rw [LpInt.bytes, Mem.starts_append] at hp
  obtain ⟨himm, hne⟩ := int_enc_immed x.form
  have hcode := lp_code_int x.form x.fits hp.1
  rw [Mem.add_apply, Nat.add_zero] at hcode
  obtain ⟨t, hnext, hfound, hpos⟩ := next_imm hcode himm hne hend
  refine ⟨t, hnext, hpos, ?_⟩
  rw [hfound, ListPackElem.int.injEq]
  exact lp_val_int x.form x.fits hp.1

/-- A list pack of integers is walked element by element, and gives their values, unless one of them is negative
and in 13 bits. Each may be in any form that it fits, and the number of elements in the header need not be
right. -/
theorem listpack_ints_iff {lplen : Nat} {xs : List LpInt} (hfits : 6 + (xs.flatMap LpInt.bytes).length + 1 < 2 ^ 32)
    {b : Ptr} (hb : b.mem.Starts (listpack lplen (xs.flatMap LpInt.bytes))) :
    (∃ l, init b (listpack lplen (xs.flatMap LpInt.bytes)).length = some l ∧ l.first = l.next l.start ∧
      l.walk.Yields (fun i => b.mem i = 0xff) l.start (xs.map fun x => (x.bytes.length, .int (twos 64 x.val)))) ↔
    ∀ x ∈ xs, ¬ (x.form = .int13 ∧ x.val < 0) := by
  obtain ⟨l, hinit, hfinds, hyields⟩ := listpack_finds (fun x : LpInt => .int (twos 64 x.val))
    (fun x => ¬ (x.form = .int13 ∧ x.val < 0)) (fun x l lval hx hp hend => by
      obtain ⟨t, hnext, hpos, hfound⟩ := next_lpint x hp (Nat.le_of_lt hend)
      exact ⟨t, hnext, hfound.mpr hx, hpos⟩)
    (fun x l lval hx hp hend t hnext hfound => by
      obtain ⟨t', hnext', -, hfound'⟩ := next_lpint x hp (Nat.le_of_lt hend)
      obtain rfl := (Prod.mk.inj (hnext'.symm.trans hnext)).2
      exact hx (hfound'.mp hfound)) hfits hb
  constructor
  · rintro ⟨l', hinit', -, hyields'⟩
    obtain rfl := Option.some.inj (hinit.symm.trans hinit')
    refine hfinds.mp ⟨_, ?_, hyields'⟩
    rw [List.map_map]
    rfl
  · exact fun hall => ⟨l, hinit, rfl, hyields hall⟩

/-- 5 in 13 bits and -2 in 24. -/
theorem listpack_ints_two : ∃ l, init
    (.lit [15, 0, 0, 0, 2, 0, 0xc0, 5, 2, 0xf2, 0xfe, 0xff, 0xff, 4, 0xff]) 15 = some l ∧
    l.first = l.next l.start ∧
    l.walk.Yields (fun i => (Ptr.lit [15, 0, 0, 0, 2, 0, 0xc0, 5, 2, 0xf2, 0xfe, 0xff, 0xff, 4, 0xff]).mem i = 0xff)
      l.start
      [(3, .int 5), (5, .int (2 ^ 64 - 2))] :=
  (@listpack_ints_iff 2 [⟨.int13, 5, ⟨by decide, by decide⟩⟩, ⟨.int24, -2, ⟨by decide, by decide⟩⟩]
    (by decide) _ (by decide +kernel)).mpr fun x hx => by
      rcases List.mem_pair.mp hx with rfl | rfl
      · exact fun h => absurd h.2 (by decide)
      · exact fun h => nomatch h.1

/-- -1 in 13 bits is read as another number. -/
theorem listpack_int13_negative : ¬ ∀ (lplen : Nat) (xs : List LpInt) (b : Ptr),
    6 + (xs.flatMap LpInt.bytes).length + 1 < 2 ^ 32 → b.mem.Starts (listpack lplen (xs.flatMap LpInt.bytes)) →
    ∃ l, init b (listpack lplen (xs.flatMap LpInt.bytes)).length = some l ∧ l.first = l.next l.start ∧
      l.walk.Yields (fun i => b.mem i = 0xff) l.start (xs.map fun x => (x.bytes.length, .int (twos 64 x.val))) := by
  intro h
  obtain ⟨l, hinit, -, hyields⟩ :=
    h 1 [⟨.int13, -1, ⟨by decide, by decide⟩⟩] (.lit [10, 0, 0, 0, 1, 0, 0xdf, 0xff, 2, 0xff])
    (by decide) (by decide +kernel)
  have hread : (init (.lit [10, 0, 0, 0, 1, 0, 0xdf, 0xff, 2, 0xff]) 10).map
      (fun l => l.elem (l.next l.start).2) ≠ some (.int (twos 64 (-1))) := by decide +kernel
  cases hyields with
  | cons hnext hfound =>
    refine hread ?_
    have hinit : init (.lit [10, 0, 0, 0, 1, 0, 0xdf, 0xff, 2, 0xff]) 10 = some l := hinit
    have hnext : l.next l.start = _ := hnext
    rw [hinit, Option.map_some, hnext]
    exact congrArg some hfound

end rdbparser.RdbListPack
