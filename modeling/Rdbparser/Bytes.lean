import Mathlib.Data.List.Basic
import Mathlib.Data.Int.ModEq
import Mathlib.Data.UInt

/-! Byte strings, the integers they store and the memory they are read from. -/

/-- The number a byte string stores with its low byte first. -/
def le_nat : List UInt8 → Nat
  | [] => 0
  | b :: bs => b.toNat + 256 * le_nat bs

/-- The number a byte string stores with its high byte first. -/
def be_nat (bs : List UInt8) : Nat := le_nat bs.reverse

/-- The low `k` bytes of a number, low byte first. -/
def le_bytes : Nat → Nat → List UInt8
  | 0, _ => []
  | k + 1, n => UInt8.ofNat n :: le_bytes k (n / 256)

def be_bytes (k n : Nat) : List UInt8 := (le_bytes k n).reverse

@[simp] theorem le_bytes_length (k n : Nat) : (le_bytes k n).length = k := by
  induction k generalizing n with
  | zero => rfl
  | succ k ih => simp [le_bytes, ih]

@[simp] theorem be_bytes_length (k n : Nat) : (be_bytes k n).length = k := by
  simp [be_bytes]

theorem le_nat_lt (bs : List UInt8) : le_nat bs < 256 ^ bs.length := by
  induction bs with
  | nil => simp [le_nat]
  | cons b bs ih =>
    have hb := b.toNat_lt
    simp only [le_nat, List.length_cons, Nat.pow_succ]
    omega

theorem be_nat_lt (bs : List UInt8) : be_nat bs < 256 ^ bs.length := by
  have h := le_nat_lt bs.reverse
  rwa [List.length_reverse] at h

theorem le_nat_append (xs ys : List UInt8) : le_nat (xs ++ ys) = le_nat xs + 256 ^ xs.length * le_nat ys := by
  induction xs with
  | nil => rw [List.nil_append, List.length_nil, Nat.pow_zero, Nat.one_mul, le_nat, Nat.zero_add]
  | cons b xs ih =>
    rw [List.cons_append, le_nat, le_nat, ih, List.length_cons, Nat.pow_succ', Nat.mul_add,
      Nat.add_assoc, Nat.mul_assoc]

theorem le_nat_le_bytes (k n : Nat) : le_nat (le_bytes k n) = n % 256 ^ k := by
  induction k generalizing n with
  | zero => simp [le_bytes, le_nat, Nat.mod_one]
  | succ k ih =>
    rw [le_bytes, le_nat, ih, Nat.pow_succ, Nat.mul_comm (256 ^ k), Nat.mod_mul]
    simp

theorem be_nat_be_bytes (k n : Nat) : be_nat (be_bytes k n) = n % 256 ^ k := by
  rw [be_nat, be_bytes, List.reverse_reverse, le_nat_le_bytes]

/-- Bytes are told by their number and the little endian value of them. -/
theorem le_bytes_le_nat (bs : List UInt8) : le_bytes bs.length (le_nat bs) = bs := by
  induction bs with
  | nil => rfl
  | cons b bs ih =>
    have hb := b.toNat_lt
    have hdiv : (b.toNat + 256 * le_nat bs) / 256 = le_nat bs := by omega
    have hmod : UInt8.ofNat (b.toNat + 256 * le_nat bs) = b := by
      apply UInt8.toNat_inj.mp
      rw [UInt8.toNat_ofNat']
      omega
    rw [List.length_cons, le_nat, le_bytes, hdiv, hmod, ih]

/-- Only the low bytes of a number are stored. -/
theorem le_bytes_mod (k n : Nat) : le_bytes k (n % 256 ^ k) = le_bytes k n := by
  have h := le_bytes_le_nat (le_bytes k n)
  rwa [le_bytes_length, le_nat_le_bytes] at h

/-- The signed value of the low `w` bits of a number in two's complement. -/
def sext (w : Nat) (n : Nat) : Int := Int.bmod n (2 ^ w)

/-- The `w` bits that store a signed value in two's complement. -/
def twos (w : Nat) (i : Int) : Nat := (i % (2 ^ w : Nat)).toNat

theorem twos_lt (w : Nat) (i : Int) : twos w i < 2 ^ w := by
  have hpos : (0 : Int) < (2 ^ w : Nat) := Int.natCast_pos.mpr (Nat.two_pow_pos w)
  have h0 := Int.emod_nonneg i hpos.ne'
  have h1 := Int.emod_lt_of_pos i hpos
  unfold twos
  omega

/-- The low bits of a signed value. -/
theorem twos_mod {v w : Nat} (h : w ≤ v) (i : Int) : twos v i % 2 ^ w = twos w i := by
  have hpos : ∀ w : Nat, (0 : Int) < (2 ^ w : Nat) := fun w => Int.natCast_pos.mpr (Nat.two_pow_pos w)
  have hdvd : ((2 ^ w : Nat) : Int) ∣ (2 ^ v : Nat) := Int.natCast_dvd_natCast.mpr (Nat.pow_dvd_pow 2 h)
  have hcast : ((twos v i % 2 ^ w : Nat) : Int) = (twos w i : Nat) := by
    rw [Int.natCast_mod, twos, twos, Int.toNat_of_nonneg (Int.emod_nonneg i (hpos v).ne'),
      Int.toNat_of_nonneg (Int.emod_nonneg i (hpos w).ne'), Int.emod_emod_of_dvd i hdvd]
  exact Int.ofNat.inj hcast

theorem sext_twos {w : Nat} {i : Int} (hlo : -(2 ^ w : Nat) ≤ 2 * i) (hhi : 2 * i < (2 ^ w : Nat)) :
    sext w (twos w i) = i := by
  have hpos : (0 : Int) < (2 ^ w : Nat) := Int.natCast_pos.mpr (Nat.two_pow_pos w)
  have h0 := Int.emod_nonneg i hpos.ne'
  rw [sext, twos, Int.toNat_of_nonneg h0, Int.emod_bmod]
  apply Int.bmod_eq_of_le_mul_two <;> omega

theorem twos_sext (w n : Nat) : twos w (sext w n) = n % 2 ^ w := by
  rw [twos, sext, Int.bmod_emod]
  exact Int.toNat_natCast (n % 2 ^ w)

/-- The ascii digits of a number. -/
def decimal (n : Nat) : List UInt8 := (Nat.toDigits 10 n).map fun c => UInt8.ofNat c.toNat

/-- An `int64_t` as text. -/
def int_text (i : Int) : List UInt8 := if i < 0 then 0x2d :: decimal i.natAbs else decimal i.natAbs

theorem decimal_pos (n : Nat) : 0 < (decimal n).length := by
  rw [decimal, List.length_map]
  exact Nat.length_toDigits_pos

theorem decimal_le_iff {n k : Nat} (hk : 0 < k) : (decimal n).length ≤ k ↔ n < 10 ^ k := by
  rw [decimal, List.length_map]
  exact Nat.length_toDigits_le_iff (by decide) hk

theorem decimal_mono {m n : Nat} (h : m ≤ n) : (decimal m).length ≤ (decimal n).length := by
  rw [decimal_le_iff (decimal_pos n)]
  exact Nat.lt_of_le_of_lt h ((decimal_le_iff (decimal_pos n)).mp (Nat.le_refl _))

/-- A decimal number is of digits alone. -/
theorem decimal_digit {n : Nat} {b : UInt8} (hb : b ∈ decimal n) : 0x30 ≤ b ∧ b ≤ 0x39 := by
  obtain ⟨c, hc, rfl⟩ := List.mem_map.mp hb
  have hdigit := Nat.isDigit_of_mem_toDigits (by decide) (by decide) hc
  have hc : 48 ≤ c.toNat ∧ c.toNat ≤ 57 := by
    simpa [Char.isDigit, Char.le_def, UInt32.le_iff_toNat_le] using hdigit
  have hbyte : (UInt8.ofNat c.toNat).toNat = c.toNat := by
    rw [UInt8.toNat_ofNat']
    omega
  simp only [UInt8.le_iff_toNat_le, hbyte]
  exact hc

/-- A number is told by its decimal digits, as they are without leading zeros. -/
theorem decimal_inj {m n : Nat} (h : decimal m = decimal n) : m = n := by
  have hchars : ∀ k, (decimal k).map (fun b => Char.ofNat b.toNat) = Nat.toDigits 10 k := by
    intro k
    rw [decimal, List.map_map]
    refine (List.map_congr_left fun c hc => ?_).trans (List.map_id _)
    have hdigit := Nat.isDigit_of_mem_toDigits (by decide) (by decide) hc
    have hc : 48 ≤ c.toNat ∧ c.toNat ≤ 57 := by
      simpa [Char.isDigit, Char.le_def, UInt32.le_iff_toNat_le] using hdigit
    rw [Function.comp_apply, UInt8.toNat_ofNat', Nat.mod_eq_of_lt (by omega), Char.ofNat_toNat]
    rfl
  have hdigits := congrArg (List.map fun b : UInt8 => Char.ofNat b.toNat) h
  rw [hchars, hchars] at hdigits
  rw [← Nat.ofDigitChars_ten_toDigits (n := m), hdigits, Nat.ofDigitChars_ten_toDigits]

/-- What is read through a pointer, by index. -/
abbrev Mem := Nat → UInt8

namespace Mem

/-- Pointer arithmetic: `&p[n]`. -/
def add (p : Mem) (n : Nat) : Mem := fun i => p (n + i)

/-- The first `n` bytes. -/
def take (p : Mem) (n : Nat) : List UInt8 := (List.range n).map p

/-- A memory that holds a byte string and then whatever `rest` says. -/
def ofList (bs : List UInt8) (rest : Mem) : Mem := fun i => bs.getD i (rest (i - bs.length))

/-- The memory with a byte string stored from `&p[n]` on. -/
def store (p : Mem) (n : Nat) (bs : List UInt8) : Mem :=
  fun i => if n ≤ i ∧ i < n + bs.length then bs.getD (i - n) 0 else p i

/-- The memory begins with the byte string. -/
def Starts (p : Mem) (bs : List UInt8) : Prop := p.take bs.length = bs

instance (p : Mem) (bs : List UInt8) : Decidable (p.Starts bs) :=
  inferInstanceAs (Decidable (_ = _))

@[simp] theorem add_zero (p : Mem) : p.add 0 = p := by
  funext i
  simp [add]

@[simp] theorem add_add (p : Mem) (m n : Nat) : (p.add m).add n = p.add (m + n) := by
  funext i
  simp [add, Nat.add_assoc]

@[simp] theorem add_apply (p : Mem) (n i : Nat) : p.add n i = p (n + i) := rfl

@[simp] theorem take_zero (p : Mem) : p.take 0 = [] := rfl

@[simp] theorem take_length (p : Mem) (n : Nat) : (p.take n).length = n := by
  simp [take]

theorem take_add (p : Mem) (m n : Nat) : p.take (m + n) = p.take m ++ (p.add m).take n := by
  simp [take, List.range_add, List.map_map, Function.comp_def]

theorem take_succ (p : Mem) (n : Nat) : p.take (n + 1) = p 0 :: (p.add 1).take n := by
  rw [Nat.add_comm, take_add]
  simp [take]

theorem take_congr {p q : Mem} {n : Nat} (h : ∀ i < n, q i = p i) : q.take n = p.take n := by
  apply List.map_congr_left
  intro i hi
  exact h i (List.mem_range.mp hi)

theorem add_congr {p q : Mem} {m n : Nat} (h : ∀ i < m + n, q i = p i) :
    ∀ i < n, q.add m i = p.add m i := fun i hi => h (m + i) (by omega)

/-- Bytes in two parts are at the start of a memory, one behind the other. -/
theorem starts_append {p : Mem} {xs ys : List UInt8} :
    p.Starts (xs ++ ys) ↔ p.Starts xs ∧ (p.add xs.length).Starts ys := by
  rw [Starts, List.length_append, take_add]
  constructor
  · intro h
    exact List.append_inj h (by simp)
  · rintro ⟨hx, hy⟩
    rw [hx, hy]

theorem starts_cons {p : Mem} {x : UInt8} {xs : List UInt8} :
    p.Starts (x :: xs) ↔ p 0 = x ∧ (p.add 1).Starts xs := by
  rw [Starts, List.length_cons, take_succ, List.cons.injEq]
  rfl

@[simp] theorem starts_nil (p : Mem) : p.Starts [] := rfl

theorem Starts.take {p : Mem} {xs : List UInt8} (h : p.Starts xs) : p.take xs.length = xs := h

theorem Starts.get {p : Mem} {xs : List UInt8} (h : p.Starts xs) {i : Nat} (hi : i < xs.length) :
    p i = xs[i] := by
  have hi' : i < (p.take xs.length).length := by simpa using hi
  have hget : (p.take xs.length)[i] = xs[i] := by
    congr 1
  simpa [Mem.take] using hget

theorem starts_of_get {p : Mem} {xs : List UInt8} (h : ∀ i (hi : i < xs.length), p i = xs[i]) :
    p.Starts xs := by
  apply List.ext_getElem (by simp)
  intro i h1 h2
  simpa [Mem.take] using h i h2

theorem Starts.take_le {p : Mem} {xs : List UInt8} (h : p.Starts xs) {n : Nat} (hn : n ≤ xs.length) :
    p.take n = xs.take n := by
  rw [← List.take_append_drop n xs, starts_append] at h
  have htake := h.1.take
  rwa [List.length_take_of_le hn] at htake

theorem Starts.drop {p : Mem} {xs : List UInt8} (h : p.Starts xs) {n : Nat} (hn : n ≤ xs.length) :
    (p.add n).Starts (xs.drop n) := by
  rw [← List.take_append_drop n xs, starts_append] at h
  have hdrop := h.2
  rwa [List.length_take_of_le hn] at hdrop

/-- The first bytes are those of a longer string. -/
theorem Starts.prefix_iff {p : Mem} {xs ys : List UInt8} (h : p.Starts ys) (hle : xs.length ≤ ys.length) :
    xs <+: ys ↔ p.Starts xs := by
  constructor
  · rintro ⟨post, rfl⟩
    exact (starts_append.mp h).1
  · intro hx
    have htake := h.take_le hle
    rw [hx.take] at htake
    rw [htake]
    exact List.take_prefix _ _

theorem ofList_starts (bs : List UInt8) (rest : Mem) : (ofList bs rest).Starts bs := by
  apply starts_of_get
  intro i hi
  simp [ofList, List.getD_eq_getElem?_getD, hi]

theorem ofList_behind {bs : List UInt8} {rest : Mem} {i : Nat} (h : bs.length ≤ i) :
    ofList bs rest i = rest (i - bs.length) := by
  rw [ofList, List.getD_eq_getElem?_getD, List.getElem?_eq_none h]
  rfl

theorem starts_congr {p q : Mem} {xs : List UInt8} (hp : p.Starts xs)
    (hq : ∀ i < xs.length, q i = p i) : q.Starts xs := by
  apply starts_of_get
  intro i hi
  rw [hq i hi, hp.get hi]

theorem take_store (p : Mem) (n : Nat) (bs : List UInt8) : ((p.store n bs).add n).take bs.length = bs := by
  refine starts_of_get fun i hi => ?_
  rw [add_apply, store, if_pos (by omega), Nat.add_sub_cancel_left, List.getD_eq_getElem?_getD,
    List.getElem?_eq_getElem hi]
  rfl

/-- What is stored in front of a byte string prolongs it. -/
theorem store_front (p : Mem) (n : Nat) (xs ys : List UInt8) :
    (p.store (n + xs.length) ys).store n xs = p.store n (xs ++ ys) := by
  funext i
  simp only [Mem.store, List.length_append]
  by_cases hlo : n ≤ i ∧ i < n + xs.length
  · rw [if_pos hlo, if_pos (by omega)]
    simp only [List.getD_eq_getElem?_getD, List.getElem?_append_left (show i - n < xs.length by omega)]
  · rw [if_neg hlo]
    by_cases hhi : n + xs.length ≤ i ∧ i < n + xs.length + ys.length
    · rw [if_pos hhi, if_pos (by omega)]
      simp only [List.getD_eq_getElem?_getD, List.getElem?_append_right (show xs.length ≤ i - n by omega), Nat.sub_sub]
    · rw [if_neg hhi, if_neg (by omega)]

/-- What is stored takes the place of as many bytes. -/
theorem Starts.store {p : Mem} {xs old ys bs : List UInt8} (h : p.Starts (xs ++ (old ++ ys)))
    (hlen : bs.length = old.length) : (p.store xs.length bs).Starts (xs ++ (bs ++ ys)) := by
  rw [starts_append, starts_append] at h ⊢
  refine ⟨starts_congr h.1 fun i hi => ?_, take_store p xs.length bs, starts_congr (hlen ▸ h.2.2) fun i _ => ?_⟩
  · exact if_neg (by omega)
  · exact if_neg (by omega)

/-- What is stored behind a byte string prolongs it. -/
theorem Starts.store_end {p : Mem} {xs : List UInt8} (h : p.Starts xs) (bs : List UInt8) :
    (p.store xs.length bs).Starts (xs ++ bs) := by
  have hwhole : p.Starts (xs ++ ((p.add xs.length).take bs.length ++ [])) := by
    rw [List.append_nil, starts_append]
    exact ⟨h, by rw [Starts, take_length]⟩
  have hstore : (p.store xs.length bs).Starts (xs ++ (bs ++ [])) := hwhole.store (take_length _ _).symm
  rwa [List.append_nil] at hstore

end Mem
