import Rdbparser.ListPack

namespace rdbparser

/-- A `uint32_t`. -/
def u32 (n : Nat) : Nat := n % 2 ^ 32

/-- The difference of two `uint32_t`. -/
def sub32 (a b : Nat) : Nat := u32 (a + (2 ^ 32 - b))

namespace RdbZipList

open ZipLinkEnc

def znext_str_code (x : Nat) : ZipLinkEnc :=
  if x &&& 0x3f = x then LEN_6
  else if x &&& 0x3fff = x then BIG_14
  else if x &&& 0xffffffff = x then BIG_32
  else ZIP_END

def zprev_code (x : Nat) : ZipLinkEnc :=
  if x < 0xfe then LEN_8
  else if x &&& 0xffffffff = x then LEN_32
  else ZIP_END

end RdbZipList

/-- Writes a zip list to `p`, [ prev ] [ next ] [ data ] for each entry. -/
structure RdbZipEncode where
  next : ZipLinkEnc
  prev : ZipLinkEnc
  link_sz : Nat
  off : Nat
  prev_off : Nat
  p : Mem

namespace RdbZipEncode

open RdbZipList ZipLinkEnc

/-- `next` is not set yet. -/
def init (out : Mem) : RdbZipEncode :=
  { next := ZIP_END, prev := ZIP_END, link_sz := 0, off := 10, prev_off := 0, p := out }

/-- The end marker, in a pass for the size. -/
def calc_end (e : RdbZipEncode) : RdbZipEncode := { e with prev := ZIP_END, off := u32 (e.off + 1) }

/-- An entry for `sz` bytes, in a pass for the size. -/
def calc_link (e : RdbZipEncode) (sz : Nat) : RdbZipEncode :=
  let e := { e with prev := zprev_code (u32 (e.link_sz + zlink_size e.prev)), next := znext_str_code sz }
  let e := { e with link_sz := u32 (zlink_size e.next + sz) }
  { e with off := u32 (e.off + u32 (zlink_size e.prev + e.link_sz)) }

/-- Store at `off`, and go on behind what is stored. -/
def put (e : RdbZipEncode) (bs : List UInt8) : RdbZipEncode :=
  { e with p := e.p.store e.off bs, off := u32 (e.off + bs.length) }

def encode_prev (e : RdbZipEncode) (val : Nat) : RdbZipEncode :=
  match e.prev with
  | LEN_8 => e.put [UInt8.ofNat val]
  | LEN_32 => (e.put [0xfe]).put (le_bytes 4 val)
  | _ => e.put [0]

/-- The length in front of the data. -/
def encode_len (e : RdbZipEncode) (sz : Nat) : RdbZipEncode :=
  match e.next with
  | LEN_6 => e.put [UInt8.ofNat sz]
  | BIG_14 => (e.put [(0x40 : UInt8) ||| UInt8.ofNat (sz >>> 8)]).put [UInt8.ofNat (sz &&& 0xff)]
  | BIG_32 => (e.put [0x80]).put (be_bytes 4 sz)
  | _ => e

def encode_next (e : RdbZipEncode) (data : Mem) (sz : Nat) : RdbZipEncode := (e.encode_len sz).put (data.take sz)

/-- `encode_next` with data in two parts. -/
def encode_next_two (e : RdbZipEncode) (data data2 : Mem) (sz sz2 : Nat) : RdbZipEncode :=
  let e := e.encode_len (u32 (sz + sz2))
  let p := e.p.store e.off (data.take sz)
  let p := if 0 < sz2 then p.store (u32 (e.off + sz)) (data2.take sz2) else p
  { e with p := p, off := u32 (e.off + u32 (sz + sz2)) }

def append_end (e : RdbZipEncode) (count : Nat) : RdbZipEncode :=
  let e := e.put [0xff]
  let p := e.p.store 0 (le_bytes 4 e.off)
  let p := p.store 4 (le_bytes 4 e.prev_off)
  { e with p := p.store 8 (le_bytes 2 (if count ≤ 0xffff then count else 0xffff)) }

/-- The link to the entry before, of which the size is known from its parts. -/
def append_prev (e : RdbZipEncode) : RdbZipEncode :=
  let prev_val := u32 (e.link_sz + zlink_size e.prev)
  { e with prev_off := e.off, prev := zprev_code prev_val }.encode_prev prev_val

def append_link (e : RdbZipEncode) (data : Mem) (sz : Nat) : RdbZipEncode :=
  let e := { e.append_prev with next := znext_str_code sz }.encode_next data sz
  { e with link_sz := u32 (zlink_size e.next + sz) }

/-- `append_link` with data in two parts. -/
def append_link_two (e : RdbZipEncode) (data data2 : Mem) (sz sz2 : Nat) : RdbZipEncode :=
  let e := { e.append_prev with next := znext_str_code (u32 (sz + sz2)) }.encode_next_two data data2 sz sz2
  { e with link_sz := u32 (zlink_size e.next + sz + sz2) }

end RdbZipEncode

namespace RdbListPack

open ListPackEnc

def lpnext_str_code (x : Nat) : ListPackEnc :=
  if x &&& 0x3f = x then LP_6BIT_STR
  else if x &&& 0xfff = x then LP_12BIT_STR
  else if x &&& 0xffffffff = x then LP_32BIT_STR
  else LP_END

def lpnext_imm_code (x : Int) : ListPackEnc :=
  if x ≤ 0x7f ∧ 0 ≤ x then LP_7BIT_UINT
  else if x ≤ 0xfff ∧ -0x1000 ≤ x then LP_13BIT_INT
  else if x ≤ 0x7fff ∧ -0x8000 ≤ x then LP_16BIT_INT
  else if x ≤ 0x7fffff ∧ -0x800000 ≤ x then LP_24BIT_INT
  else if x ≤ 0x7fffffff ∧ -0x80000000 ≤ x then LP_32BIT_INT
  else LP_64BIT_INT

end RdbListPack

/-- Writes a list pack to `p`, [ next ] [ data ] [ back ] for each element. -/
structure RdbListPackEncode where
  next : ListPackEnc
  link_sz : Nat
  off : Nat
  items : Nat
  p : Mem

namespace RdbListPackEncode

open RdbListPack ListPackEnc

/-- `next` and `link_sz` are not set yet. -/
def init (out : Mem) : RdbListPackEncode := { next := LP_UNUSED, link_sz := 0, off := 6, items := 0, p := out }

/-- The end marker, in a pass for the size. -/
def calc_end (e : RdbListPackEncode) : RdbListPackEncode := { e with off := u32 (e.off + 1) }

/-- An immediate integer, in a pass for the size. -/
def calc_immediate_int (e : RdbListPackEncode) (val : Int) : RdbListPackEncode :=
  let e := { e with next := lpnext_imm_code val }
  let e := { e with link_sz := lp_size e.next }
  { e with off := u32 (e.off + u32 (lpback_size e.link_sz + e.link_sz)), items := u32 (e.items + 1) }

/-- A string of `sz` bytes, in a pass for the size. -/
def calc_link (e : RdbListPackEncode) (sz : Nat) : RdbListPackEncode :=
  let e := { e with next := lpnext_str_code sz }
  let e := { e with link_sz := u32 (lp_size e.next + sz) }
  { e with off := u32 (e.off + u32 (lpback_size e.link_sz + e.link_sz)), items := u32 (e.items + 1) }

def put (e : RdbListPackEncode) (bs : List UInt8) : RdbListPackEncode :=
  { e with p := e.p.store e.off bs, off := u32 (e.off + bs.length) }

/-- The loop of `encode_back`, which stores downwards from `off`: what is left of `val`. -/
def back_loop (off : Nat) : Nat → Nat → Nat → Mem → Nat × Mem
  | 0, _, val, p => (val, p)
  | n + 1, i, val, p =>
    back_loop off n (i + 1) (val >>> 7) (p.store (sub32 off i) [(0x80 : UInt8) ||| UInt8.ofNat (val &&& 0x7f)])

def encode_back (e : RdbListPackEncode) : RdbListPackEncode :=
  let sz := lpback_size e.link_sz
  let off := u32 (e.off + sz)
  let (val, p) := back_loop off (sz - 1) 1 e.link_sz e.p
  { e with off := off, p := p.store (sub32 off sz) [UInt8.ofNat val], items := u32 (e.items + 1) }

/-- `u` is the word of the integer. -/
def encode_immediate_int (e : RdbListPackEncode) (u : Nat) : RdbListPackEncode :=
  let e := match e.next with
    | LP_13BIT_INT => (e.put [(0xc0 : UInt8) ||| UInt8.ofNat ((u >>> 8) &&& 0xf)]).put [UInt8.ofNat (u &&& 0xff)]
    | LP_16BIT_INT => (e.put [0xf1]).put (le_bytes 2 (u &&& 0xffff))
    | LP_24BIT_INT => ((e.put [0xf2]).put [UInt8.ofNat ((u &&& 0xff0000) >>> 16)]).put (le_bytes 2 (u &&& 0xffff))
    | LP_32BIT_INT => (e.put [0xf3]).put (le_bytes 4 (u &&& 0xffffffff))
    | LP_64BIT_INT => (e.put [0xf4]).put (le_bytes 8 u)
    | _ => e.put [UInt8.ofNat u]
  { e with link_sz := lp_size e.next }

/-- The length in front of the data. -/
def encode_len (e : RdbListPackEncode) (sz : Nat) : RdbListPackEncode :=
  let e := match e.next with
    | LP_6BIT_STR => e.put [(0x80 : UInt8) ||| UInt8.ofNat sz]
    | LP_12BIT_STR => (e.put [(0xe0 : UInt8) ||| UInt8.ofNat (sz >>> 8)]).put [UInt8.ofNat (sz &&& 0xff)]
    | LP_32BIT_STR => (e.put [0xf0]).put (be_bytes 4 sz)
    | _ => e
  { e with link_sz := u32 (lp_size e.next + sz) }

def encode_next (e : RdbListPackEncode) (data : Mem) (sz : Nat) : RdbListPackEncode :=
  (e.encode_len sz).put (data.take sz)

/-- `encode_next` with data in two parts. -/
def encode_next_two (e : RdbListPackEncode) (data data2 : Mem) (sz sz2 : Nat) : RdbListPackEncode :=
  let e := e.encode_len (u32 (sz + sz2))
  let p := e.p.store e.off (data.take sz)
  let p := if 0 < sz2 then p.store (u32 (e.off + sz)) (data2.take sz2) else p
  { e with p := p, off := u32 (e.off + u32 (sz + sz2)) }

def append_end (e : RdbListPackEncode) : RdbListPackEncode :=
  let e := e.put [0xff]
  let p := e.p.store 0 (le_bytes 4 e.off)
  { e with p := p.store 4 (le_bytes 2 (if e.items ≤ 0xffff then e.items else 0xffff)) }

def append_immediate_int (e : RdbListPackEncode) (val : Int) : RdbListPackEncode :=
  ({ e with next := lpnext_imm_code val }.encode_immediate_int (twos 64 val)).encode_back

def append_link (e : RdbListPackEncode) (data : Mem) (sz : Nat) : RdbListPackEncode :=
  ({ e with next := lpnext_str_code sz }.encode_next data sz).encode_back

/-- `append_link` with data in two parts. -/
def append_link_two (e : RdbListPackEncode) (data data2 : Mem) (sz sz2 : Nat) : RdbListPackEncode :=
  ({ e with next := lpnext_str_code (u32 (sz + sz2)) }.encode_next_two data data2 sz sz2).encode_back

end RdbListPackEncode

end rdbparser
