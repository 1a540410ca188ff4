import Rdbparser.Bufptr

namespace rdbparser

/-! Little endian encodings of immediate integers, sign extended out to 64 bits. -/

def s8 (i : UInt8) : Nat := twos 64 (sext 8 i.toNat)

def s16 (p : Mem) : Nat := twos 64 (sext 16 (le_nat (p.take 2)))

def s32 (p : Mem) : Nat := twos 64 (sext 32 (le_nat (p.take 4)))

def s64 (p : Mem) : Nat := le_nat (p.take 8)

def s24 (p : Mem) : Nat :=
  let top := sext 8 (p 2).toNat
  let bottom := le_nat (p.take 2)
  let low := ((twos 32 top <<< 16) % 2 ^ 32) ||| bottom
  if top < 0 then (0xffffffff <<< 32) ||| low else low

/-- 13 bits, big endian. -/
def s13 (p : Mem) : Nat :=
  if (p 0).toNat &&& 0x10 ≠ 0 then
    let top : Int := 16 - ((p 0).toNat &&& 0xf : Nat)
    (0xffffffff <<< 32) ||| ((twos 32 top <<< 8) % 2 ^ 32 ||| (p 1).toNat)
  else (((p 0).toNat <<< 8) ||| (p 1).toNat) &&& 0x1fff

def l32 (p : Mem) : Nat := le_nat (p.take 4)

def b32 (p : Mem) : Nat := be_nat (p.take 4)

/-- The state of a zip list or list pack traversal. `entry` and `data` are offsets in the list, of
which `data` is NULL for an immediate integer; `ival` is a 64 bit word. -/
structure RdbListValue where
  data : Option Nat := none
  entry : Nat := 0
  data_len : Nat := 0
  entry_len : Nat := 0
  ival : Nat := 0
  deriving DecidableEq, Repr

/-- A zip list of `zlbytes` bytes at `base`; `data` and `end_` are offsets from there. -/
structure RdbZipList where
  zlbytes : Nat
  zltail : Nat
  zllen : Nat
  base : Ptr
  data : Nat
  end_ : Nat

inductive ZipLinkEnc
  | ZIP_END | LEN_32 | BIG_32 | LEN_8 | LEN_6 | BIG_14 | IMMED_16 | IMMED_32 | IMMED_64
  | IMMED_24 | IMMED_8 | IMMED_4
  deriving DecidableEq, Repr

namespace RdbZipList

open ZipLinkEnc

/-- Header is [ zlbytes * 4 ][ zltail * 4 ][ zllen * 2 ]. -/
def init (b : Ptr) (sz : Nat) : Option RdbZipList :=
  if sz < 10 then none
  else
    let zlbytes := le_nat (b.mem.take 4)
    if zlbytes < 11 then none -- if only end marker (255)
    else some { zlbytes := zlbytes, zltail := le_nat ((b.mem.add 4).take 4)
                zllen := le_nat ((b.mem.add 8).take 2), base := b, data := 10, end_ := zlbytes }

def code : ZipLinkEnc → Nat
  | ZIP_END => 0
  | LEN_32 => 1
  | BIG_32 => 2
  | LEN_8 => 3
  | LEN_6 => 4
  | BIG_14 => 5
  | IMMED_16 => 6
  | IMMED_32 => 7
  | IMMED_64 => 8
  | IMMED_24 => 9
  | IMMED_8 => 10
  | IMMED_4 => 11

def is_immed (e : ZipLinkEnc) : Bool := code IMMED_16 ≤ code e

def ISZ (v : Nat) (e : ZipLinkEnc) : Nat := v <<< (code e * 4)

/-- The size of each link, a nibble each. -/
def ZSIZE : Nat :=
  ISZ 0 ZIP_END ||| ISZ 5 LEN_32 ||| ISZ 5 BIG_32 ||| ISZ 1 LEN_8 ||| ISZ 1 LEN_6 |||
  ISZ 2 BIG_14 ||| ISZ 3 IMMED_16 ||| ISZ 5 IMMED_32 ||| ISZ 9 IMMED_64 ||| ISZ 4 IMMED_24 |||
  ISZ 2 IMMED_8 ||| ISZ 1 IMMED_4

def zlink_size (e : ZipLinkEnc) : Nat := (ZSIZE >>> (code e * 4)) &&& 0xf

/-- Find encoding for prev, always a length. -/
def zlink_prev (n : UInt8) : ZipLinkEnc :=
  if n < 0xfe then LEN_8 else if n = 0xff then ZIP_END else LEN_32

/-- Find encoding for next, may be length, may be an immediate integer. -/
def zlink_next (n : UInt8) : ZipLinkEnc :=
  if n &&& 0xc0 = 0x00 then LEN_6
  else if n &&& 0xc0 = 0x40 then BIG_14
  else if n &&& 0xc0 = 0x80 then BIG_32
  else if n &&& 0xf0 = 0xc0 then IMMED_16
  else if n &&& 0xf0 = 0xd0 then IMMED_32
  else if n &&& 0xf0 = 0xe0 then IMMED_64
  else if n &&& 0x0f = 0x00 then IMMED_24
  else if n &&& 0x0f = 0x0e then IMMED_8
  else if n &&& 0x0f = 0x0f then ZIP_END
  else IMMED_4

/-- Contents of index. -/
def zlink_val (e : ZipLinkEnc) (p : Mem) : Nat :=
  match e with
  | ZIP_END => 0
  | LEN_32 => l32 (p.add 1)
  | BIG_32 => b32 (p.add 1)
  | LEN_8 => (p 0).toNat
  | LEN_6 => (p 0).toNat &&& 0x3f
  | BIG_14 => (((p 0).toNat &&& 0x3f) <<< 8) ||| (p 1).toNat
  | IMMED_16 => s16 (p.add 1)
  | IMMED_32 => s32 (p.add 1)
  | IMMED_64 => s64 (p.add 1)
  | IMMED_24 => s24 (p.add 1)
  | IMMED_8 => s8 (p 1)
  | IMMED_4 => twos 64 (((p 0).toNat &&& 0xf : Nat) - 1)

/-- What `next` does once the previous length is skipped: determine what next is encoding. -/
def entry_at (z : RdbZipList) (lval : RdbListValue) : RdbListValue :=
  if lval.entry < z.end_ then
    let n := zlink_next (z.base.mem lval.entry)
    let next := lval.entry + zlink_size n
    if next ≤ z.end_ then
      let ival := zlink_val n (z.base.mem.add lval.entry)
      if is_immed n then { lval with ival := ival, entry_len := zlink_size n }
      else { lval with
        ival := ival, entry_len := zlink_size n + ival, data := some next, data_len := ival }
    else lval
  else lval

/-- The entry pointer is the last value, iterate to the next. -/
def next (z : RdbZipList) (lval : RdbListValue) : Bool × RdbListValue :=
  -- if a test below fails, the entry is past the end
  let lval : RdbListValue := { entry := lval.entry + lval.entry_len, entry_len := z.zlbytes }
  if lval.entry < z.end_ then
    let p := zlink_prev (z.base.mem lval.entry)
    if p = ZIP_END then (false, lval)
    else
      let lval := z.entry_at { lval with entry := lval.entry + zlink_size p }
      (decide (lval.entry + lval.entry_len ≤ z.end_), lval)
  else (decide (lval.entry + lval.entry_len ≤ z.end_), lval)

def first (z : RdbZipList) : Bool × RdbListValue := z.next { entry := z.data, entry_len := 0 }

end RdbZipList

end rdbparser
