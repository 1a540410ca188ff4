import Rdbparser.Bytes

namespace rdbparser

def POLY : BitVec 64 := 0xad93d23594c935a9#64

/-- One turn of the bit loop of `jones_crc64_init`, for the bit `i` of `n`. -/
def crc_bit (n : BitVec 8) (crc : BitVec 64) (i : Nat) : BitVec 64 :=
  let k := crc.getLsbD 63 ^^ n.getLsbD i
  if k then (crc <<< 1) ^^^ POLY else crc <<< 1

/-- The loop that turns a word around: `val = (val << 1) | ((crc >>= 1) & 1)`. -/
def crc_reflect : Nat → BitVec 64 → BitVec 64 → BitVec 64
  | 0, _, val => val
  | k + 1, crc, val =>
    let crc := crc >>> 1
    crc_reflect k crc ((val <<< 1) ||| (crc &&& 1#64))

/-- `tab[ 0 ][ n ]`, the CRCs of all single byte sequences. -/
def crc_tab0 (n : BitVec 8) : BitVec 64 :=
  let crc := [0, 1, 2, 3, 4, 5, 6, 7].foldl (crc_bit n) 0#64
  crc_reflect 63 crc (crc &&& 1#64)

/-- The tables `jones_crc64_init` builds, for slice-by-8 lookup. -/
def jones_tab : Nat → BitVec 8 → BitVec 64
  | 0, n => crc_tab0 n
  | k + 1, n =>
    let crc := jones_tab k n
    crc_tab0 (crc.setWidth 8) ^^^ (crc >>> 8)

/-- Process one byte. -/
def crc_step (crc : BitVec 64) (b : UInt8) : BitVec 64 :=
  jones_tab 0 ((crc ^^^ b.toBitVec.setWidth 64).setWidth 8) ^^^ (crc >>> 8)

/-- Individual bytes until an 8-byte aligned pointer is reached. -/
def crc_align (next : Nat) (crc : BitVec 64) : List UInt8 → BitVec 64 × List UInt8
  | [] => (crc, [])
  | b :: bs => if next &&& 7 ≠ 0 then crc_align (next + 1) (crc_step crc b) bs else (crc, b :: bs)

/-- The table look-ups for eight bytes, already combined with the crc. -/
def crc_slice (crc : BitVec 64) : BitVec 64 :=
  jones_tab 7 (crc.setWidth 8) ^^^ jones_tab 6 ((crc >>> 8).setWidth 8) ^^^
    jones_tab 5 ((crc >>> 16).setWidth 8) ^^^ jones_tab 4 ((crc >>> 24).setWidth 8) ^^^
    jones_tab 3 ((crc >>> 32).setWidth 8) ^^^ jones_tab 2 ((crc >>> 40).setWidth 8) ^^^
    jones_tab 1 ((crc >>> 48).setWidth 8) ^^^ jones_tab 0 ((crc >>> 56).setWidth 8)

/-- Fast middle processing, 8 bytes per turn, then the remaining bytes one by one. -/
def crc_middle (crc : BitVec 64) : List UInt8 → BitVec 64
  | b0 :: b1 :: b2 :: b3 :: b4 :: b5 :: b6 :: b7 :: bs =>
    crc_middle
      (crc_slice (crc ^^^ BitVec.ofNat 64 (le_nat [b0, b1, b2, b3, b4, b5, b6, b7]))) bs
  | bs => bs.foldl crc_step crc

/-- A non-inverted CRC of the bytes at address `next`, on a little-endian machine. -/
def jones_crc64 (next : Nat) (crc : BitVec 64) (bs : List UInt8) : BitVec 64 :=
  let (crc, bs) := crc_align next crc bs
  crc_middle crc bs

/-- The crc of bytes, one by one. -/
def crc64 (bs : List UInt8) : BitVec 64 := bs.foldl crc_step 0

end rdbparser
