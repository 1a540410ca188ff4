import Rdbparser.Types

namespace rdbparser.format

/-- The forms of a length: in 6, 14, 32 or 64 bits. -/
inductive LenForm
  | len6 | len14 | len32 | len64
  deriving DecidableEq, Repr

def LenForm.bound : LenForm → Nat
  | .len6 => 2 ^ 6
  | .len14 => 2 ^ 14
  | .len32 => 2 ^ 32
  | .len64 => 2 ^ 64

/-- A length in a form able to hold it, which need not be the shortest. -/
structure StoredLen where
  form : LenForm
  val : Nat
  fits : val < form.bound

/-- A length of six bits. -/
def StoredLen.short (n : Nat) : StoredLen := ⟨.len6, n % 2 ^ 6, Nat.mod_lt n (by decide)⟩

theorem StoredLen.short_one : (StoredLen.short 1).val = 1 := rfl

/-- The big endian length with its prefix. -/
def StoredLen.bytes (l : StoredLen) : List UInt8 :=
  match l.form with
  | .len6 => [UInt8.ofNat l.val]
  | .len14 => [UInt8.ofNat (0x40 + l.val / 256), UInt8.ofNat l.val]
  | .len32 => 0x80 :: be_bytes 4 l.val
  | .len64 => 0x81 :: be_bytes 8 l.val

/-- The widths of an encoded integer. -/
inductive IntForm
  | int8 | int16 | int32
  deriving DecidableEq, Repr

def IntForm.nbyte : IntForm → Nat
  | .int8 => 1
  | .int16 => 2
  | .int32 => 4

theorem IntForm.nbyte_ne (f : IntForm) : f.nbyte ≠ 0 := by
  cases f <;> decide

def IntForm.code : IntForm → UInt8
  | .int8 => 0xc0
  | .int16 => 0xc1
  | .int32 => 0xc2

/-- An integer in a form able to hold it. -/
structure StoredInt where
  form : IntForm
  val : Int
  lo : -(2 ^ (8 * form.nbyte) : Nat) ≤ 2 * val
  hi : 2 * val < (2 ^ (8 * form.nbyte) : Nat)

/-- The little endian integer in two's complement with its prefix. -/
def StoredInt.bytes (i : StoredInt) : List UInt8 :=
  i.form.code :: le_bytes i.form.nbyte (twos (8 * i.form.nbyte) i.val)

theorem StoredInt.bounds (i : StoredInt) : -(2 ^ 63) ≤ i.val ∧ i.val < 2 ^ 63 := by
  have hlo := i.lo
  have hhi := i.hi
  cases hf : i.form <;> simp only [hf, IntForm.nbyte] at hlo hhi <;> omega

/-- A header: a plain length, an encoded integer, or the compressed and the uncompressed length of
a blob. -/
inductive Header
  | plain (l : StoredLen)
  | int (i : StoredInt)
  | lzf (zlen len : StoredLen)

def Header.bytes : Header → List UInt8
  | .plain l => l.bytes
  | .int i => i.bytes
  | .lzf zlen len => 0xc3 :: (zlen.bytes ++ len.bytes)

theorem StoredLen.bytes_length (l : StoredLen) : 1 ≤ l.bytes.length ∧ l.bytes.length ≤ 9 := by
  unfold StoredLen.bytes
  cases l.form <;> simp

theorem StoredInt.bytes_length (i : StoredInt) : 2 ≤ i.bytes.length ∧ i.bytes.length ≤ 5 := by
  unfold StoredInt.bytes
  cases i.form <;> simp [IntForm.nbyte]

/-- A header takes one byte at least, and no more than the two long lengths of a compressed blob. -/
theorem Header.bytes_length (h : Header) : 1 ≤ h.bytes.length ∧ h.bytes.length ≤ 19 := by
  cases h with
  | plain l =>
    have := l.bytes_length
    simp only [Header.bytes]
    omega
  | int i =>
    have := i.bytes_length
    simp only [Header.bytes]
    omega
  | lzf zlen len =>
    have := zlen.bytes_length
    have := len.bytes_length
    simp only [Header.bytes, List.length_cons, List.length_append]
    omega

end rdbparser.format
