import Rdbparser.Format.Header
import Rdbparser.ListPack.Walk

namespace rdbparser.format

/-- The size of the entry before: below 254 in one byte, or behind 0xfe in 32 bits. -/
inductive ZipPrev
  | len8 (n : Nat) (fits : n < 0xfe)
  | len32 (n : Nat) (fits : n < 2 ^ 32)

def ZipPrev.val : ZipPrev → Nat
  | .len8 n _ => n
  | .len32 n _ => n

def ZipPrev.bytes : ZipPrev → List UInt8
  | .len8 n _ => [UInt8.ofNat n]
  | .len32 n _ => 0xfe :: le_bytes 4 n

/-- The forms of the length of a string: in 6, 14 or 32 bits. -/
inductive ZipStrForm
  | len6 | len14 | len32
  deriving DecidableEq, Repr

def ZipStrForm.bound : ZipStrForm → Nat
  | .len6 => 2 ^ 6
  | .len14 => 2 ^ 14
  | .len32 => 2 ^ 32

def ZipStrForm.bytes : ZipStrForm → Nat → List UInt8
  | .len6, n => [UInt8.ofNat n]
  | .len14, n => [UInt8.ofNat (0x40 + n / 256), UInt8.ofNat n]
  | .len32, n => 0x80 :: be_bytes 4 n

/-- The forms of an immediate integer: in 4 bits, or in two's complement. -/
inductive ZipIntForm
  | int4 | int8 | int16 | int24 | int32 | int64
  deriving DecidableEq, Repr

namespace ZipIntForm

/-- The bytes behind the code. -/
def nbyte : ZipIntForm → Nat
  | int4 => 0
  | int8 => 1
  | int16 => 2
  | int24 => 3
  | int32 => 4
  | int64 => 8

/-- The code; in the 4 bit form it holds the integer. -/
def code : ZipIntForm → Int → UInt8
  | int4, v => UInt8.ofNat (0xf1 + v.toNat)
  | int8, _ => 0xfe
  | int16, _ => 0xc0
  | int24, _ => 0xf0
  | int32, _ => 0xd0
  | int64, _ => 0xe0

/-- The integers a form is able to hold. -/
def Holds (form : ZipIntForm) (v : Int) : Prop :=
  if form = int4 then 0 ≤ v ∧ v ≤ 12
  else -(2 ^ (8 * form.nbyte) : Nat) ≤ 2 * v ∧ 2 * v < (2 ^ (8 * form.nbyte) : Nat)

def bytes (form : ZipIntForm) (v : Int) : List UInt8 :=
  form.code v :: le_bytes form.nbyte (twos (8 * form.nbyte) v)

end ZipIntForm

/-- What an entry holds, in a form able to hold it. -/
inductive ZipItem
  | str (form : ZipStrForm) (text : List UInt8) (fits : text.length < form.bound)
  | int (form : ZipIntForm) (val : Int) (fits : form.Holds val)

def ZipItem.bytes : ZipItem → List UInt8
  | .str form text _ => form.bytes text.length ++ text
  | .int form val _ => form.bytes val

def ZipItem.elem : ZipItem → ListPackElem
  | .str _ text _ => .str text
  | .int _ val _ => .int (twos 64 val)

theorem ZipItem.bytes_pos (item : ZipItem) : 0 < item.bytes.length := by
  cases item with
  | str form text _ => cases form <;> simp [ZipItem.bytes, ZipStrForm.bytes]
  | int form val _ => exact Nat.succ_pos _

structure ZipEntry where
  prev : ZipPrev
  item : ZipItem

def ZipEntry.bytes (e : ZipEntry) : List UInt8 := e.prev.bytes ++ e.item.bytes

/-- A zip list: its header, its entries and what ends them. Nothing depends on the offset of the last entry. -/
structure ZipList where
  zltail : Nat
  zllen : Nat
  entries : List ZipEntry
  fits : 10 + (entries.flatMap ZipEntry.bytes).length + 1 < 2 ^ 32

namespace ZipList

def zlbytes (z : ZipList) : Nat := 10 + (z.entries.flatMap ZipEntry.bytes).length + 1

def header (z : ZipList) : List UInt8 := le_bytes 4 z.zlbytes ++ (le_bytes 4 z.zltail ++ le_bytes 2 z.zllen)

def bytes (z : ZipList) : List UInt8 := z.header ++ (z.entries.flatMap ZipEntry.bytes ++ [0xff])

theorem bytes_length (z : ZipList) : z.bytes.length = z.zlbytes := by
  simp only [bytes, header, zlbytes, List.length_append, le_bytes_length, List.length_singleton]
  omega

end ZipList

end rdbparser.format
