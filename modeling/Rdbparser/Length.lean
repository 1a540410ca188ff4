import Rdbparser.Bufptr

namespace rdbparser

/-- The major length codec, always occurs in a rdb header. -/
structure RdbLength where
  len : Nat := 0
  zlen : Nat := 0
  ival : Int := 0
  is_enc : Nat := 0
  is_lzf : Bool := false
  deriving DecidableEq, Repr

/-- c3 81 <64> 81 <64> -/
def MAX_RDB_HDRLEN : Nat := 9 * 2 + 1

inductive LengthEnc
  | RDB_LEN_ERR | RDB_LEN_6 | RDB_LEN_14 | RDB_LEN_32 | RDB_LEN_64 | RDB_LZF | RDB_INT8
  | RDB_INT16 | RDB_INT32
  deriving DecidableEq, Repr

namespace RdbLength

/-- Convert a byte into a type. -/
def length_encoding (b : UInt8) : LengthEnc :=
  if b &&& 0xc0 = 0x00 then .RDB_LEN_6
  else if b &&& 0xc0 = 0x40 then .RDB_LEN_14
  else if b &&& 0xc0 = 0x80 then
    if b = 0x80 then .RDB_LEN_32 else if b = 0x81 then .RDB_LEN_64 else .RDB_LEN_ERR
  else if b = 0xc3 then .RDB_LZF
  else if b = 0xc0 then .RDB_INT8
  else if b = 0xc1 then .RDB_INT16
  else if b = 0xc2 then .RDB_INT32
  else .RDB_LEN_ERR

/-- `decode_buf` on a header that is not, or may no longer be, compressed: the calls the `RDB_LZF`
case makes on itself have `is_lzf` set and so never go deeper. -/
def decode_buf_flat (l : RdbLength) (b : Mem) : Int × RdbLength :=
  match length_encoding (b 0) with
  | .RDB_LEN_6 => (1, { l with len := (b 0).toNat &&& 0x3f })
  | .RDB_LEN_14 => (2, { l with len := (((b 0).toNat &&& 0x3f) <<< 8) ||| (b 1).toNat })
  | .RDB_LEN_32 => (5, { l with len := be_nat ((b.add 1).take 4) })
  | .RDB_LEN_64 => (9, { l with len := be_nat ((b.add 1).take 8) })
  | .RDB_INT8 => (2, { l with is_enc := 1, ival := sext 8 (b 1).toNat })
  | .RDB_INT16 => (3, { l with is_enc := 2, ival := sext 16 (le_nat ((b.add 1).take 2)) })
  | .RDB_INT32 => (5, { l with is_enc := 4, ival := sext 32 (le_nat ((b.add 1).take 4)) })
  | .RDB_LZF | .RDB_LEN_ERR => (-1, l)

/-- The size of the header at `b`, negative when it is not one, with the fields it sets. -/
def decode_buf (l : RdbLength) (b : Mem) : Int × RdbLength :=
  match length_encoding (b 0) with
  | .RDB_LZF =>
    if l.is_lzf then (-1, l)
    else
      match decode_buf_flat { l with is_lzf := true } (b.add 1) with
      | (sz, l) =>
        if sz < 0 then (sz, l)
        else
          match decode_buf_flat { l with zlen := l.len } (b.add (sz.toNat + 1)) with
          | (sz2, l) => if l.is_enc ≠ 0 then (-1, l) else (1 + sz + sz2, l)
  | _ => decode_buf_flat l b

def decode (l : RdbLength) (bptr : RdbBufptr) : RdbErrCode × RdbLength × RdbBufptr :=
  let (p, bptr) :=
    if MAX_RDB_HDRLEN ≤ bptr.avail then (bptr.buf.ptr.mem, bptr) else bptr.look MAX_RDB_HDRLEN
  let (sz, l) := l.decode_buf p
  if sz < 0 then (.RDB_ERR_HDR, l, bptr)
  else
    match bptr.incr sz.toNat with
    | none => (.RDB_ERR_TRUNC, l, bptr)
    | some (_, bptr) => (.RDB_OK, l, bptr)

/-- Fetch the data blob the header announces. -/
def consume (E : Env) (l : RdbLength) (bptr : RdbBufptr) : Except RdbErrCode Ptr × RdbBufptr :=
  if l.is_enc ≠ 0 then (.error .RDB_ERR_HDR, bptr)
  else
    match if l.is_lzf then bptr.decompress E l.zlen l.len else some (true, bptr) with
    | none => (.error .undefined, bptr)
    | some (false, bptr) => (.error .RDB_ERR_LZF, bptr)
    | some (true, bptr) =>
      match bptr.incr l.len with
      | none => (.error .RDB_ERR_TRUNC, bptr)
      | some (b, bptr) => (.ok b, bptr)

end RdbLength

end rdbparser
