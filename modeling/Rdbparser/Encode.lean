import Rdbparser.Length

namespace rdbparser

namespace RdbLength

def LSZ (v e : Nat) : Nat := v <<< (e * 4)

/-- The sizes of the headers, a nibble each. -/
def LSIZE : Nat := LSZ 1 0 ||| LSZ 2 1 ||| LSZ 5 2 ||| LSZ 9 3 ||| LSZ 2 5 ||| LSZ 3 6 ||| LSZ 5 7

/-- The number of a code; none of them is the -1 of `RDB_LEN_ERR`. -/
def code : LengthEnc → Option Nat
  | .RDB_LEN_ERR => none
  | .RDB_LEN_6 => some 0
  | .RDB_LEN_14 => some 1
  | .RDB_LEN_32 => some 2
  | .RDB_LEN_64 => some 3
  | .RDB_LZF => some 4
  | .RDB_INT8 => some 5
  | .RDB_INT16 => some 6
  | .RDB_INT32 => some 7

/-- A shift by the -4 of an error is one by 60 on the machines in use, which leaves nothing. -/
def len_size (e : LengthEnc) : Nat :=
  match code e with
  | some n => (LSIZE >>> (n * 4)) &&& 0xf
  | none => (LSIZE >>> 60) &&& 0xf

def str_code (x : Nat) : LengthEnc :=
  if x &&& 0x3f = x then .RDB_LEN_6
  else if x &&& 0x3fff = x then .RDB_LEN_14
  else if x &&& 0xffffffff = x then .RDB_LEN_32
  else .RDB_LEN_64

def int_code (x : Int) : LengthEnc :=
  if x ≤ 0x7f ∧ -0x80 ≤ x then .RDB_INT8
  else if x ≤ 0x7fff ∧ -0x8000 ≤ x then .RDB_INT16
  else if x ≤ 0x7fffffff ∧ -0x80000000 ≤ x then .RDB_INT32
  else .RDB_LEN_ERR

end RdbLength

/-- Encodes a string or an integer, of which the size is asked for first; `u` is the 64 bit union of
`len` and `ival`. -/
structure RdbLenEncode where
  lcode : LengthEnc
  u : Nat

namespace RdbLenEncode

def init : RdbLenEncode := ⟨.RDB_LEN_ERR, 0⟩

def len (e : RdbLenEncode) : Nat := e.u

def len_size (_e : RdbLenEncode) (x : Nat) : Nat × RdbLenEncode :=
  (RdbLength.len_size (RdbLength.str_code x), ⟨RdbLength.str_code x, x⟩)

def str_size (e : RdbLenEncode) (x : Nat) : Nat × RdbLenEncode :=
  let (sz, e) := e.len_size x
  ((sz + x) % 2 ^ 64, e)

def int_size (_e : RdbLenEncode) (x : Int) : Nat × RdbLenEncode :=
  (RdbLength.len_size (RdbLength.int_code x), ⟨RdbLength.int_code x, twos 64 x⟩)

/-- The bytes stored at `p`, of which the size is returned. -/
def len_encode (e : RdbLenEncode) : List UInt8 :=
  match e.lcode with
  | .RDB_LEN_6 => [UInt8.ofNat e.len]
  | .RDB_LEN_14 => [(0x40 : UInt8) ||| UInt8.ofNat (e.len >>> 8), UInt8.ofNat (e.len &&& 0xff)]
  | .RDB_LEN_32 => 0x80 :: be_bytes 4 e.len
  | .RDB_LEN_64 => 0x81 :: be_bytes 8 e.len
  | _ => []

/-- `len_encode( p, x )` -/
def len_encode_of (_e : RdbLenEncode) (x : Nat) : List UInt8 × RdbLenEncode :=
  let e : RdbLenEncode := ⟨RdbLength.str_code x, x⟩
  (e.len_encode, e)

def str_encode (e : RdbLenEncode) (data : Mem) : List UInt8 := e.len_encode ++ data.take e.len

def int_encode (e : RdbLenEncode) : List UInt8 :=
  match e.lcode with
  | .RDB_INT8 => [0xc0, UInt8.ofNat e.u]
  | .RDB_INT16 => 0xc1 :: le_bytes 2 e.u
  | .RDB_INT32 => 0xc2 :: le_bytes 4 e.u
  | _ => []

end RdbLenEncode

end rdbparser
