import Rdbparser.Proc
import Rdbparser.Length
import Rdbparser.Crc

namespace rdbparser

/-- The decoder; `out` and `data_out` are NULL or one of the two outputs. -/
structure RdbDecode where
  out : Option Dest := none
  data_out : Bool := false
  filter : Option (RdbVal → Bool) := none
  rlen : RdbLength := {}
  type : RdbType := .RDB_BAD_TYPE
  crc : BitVec 64 := 0
  key : RdbString := .empty
  key_cnt : Nat := 0
  ver : Nat := 0
  is_rdb_file : Bool := false

structure St where
  dec : RdbDecode
  bptr : RdbBufptr

abbrev DecodeProc := Proc St Event RdbErrCode

/-- The difference of two `size_t`. -/
def sub64 (a b : Nat) : Nat := if b ≤ a then a - b else a + 2 ^ 64 - b

namespace DecodeProc

def set_dec (f : RdbDecode → RdbDecode) : DecodeProc Unit :=
  Proc.update fun s => { s with dec := f s.dec }

/-- A callback on the current output. -/
def call (c : Callback) : DecodeProc Unit := Proc.emit fun s =>
  match s.dec.out with
  | some d => [⟨d, c, s.bptr.offset⟩]
  | none => []

/-- `bptr.incr( n )` where NULL makes the caller return `RDB_ERR_TRUNC`. -/
def incr (n : Nat) : DecodeProc Ptr := fun s =>
  match s.bptr.incr n with
  | some (p, b) => ⟨.ok p, { s with bptr := b }, []⟩
  | none => ⟨.error .RDB_ERR_TRUNC, s, []⟩

/-- `bptr.incr( n )` with the result not looked at. -/
def skip (n : Nat) : DecodeProc Unit := Proc.update fun s =>
  match s.bptr.incr n with
  | some (_, b) => { s with bptr := b }
  | none => s

/-- `data_out->d_start_type( t )`, which the filter does not redirect. -/
def start_type (t : RdbType) : DecodeProc Unit := Proc.emit fun s =>
  [⟨.data_out, .d_start_type t, s.bptr.offset⟩]

def decode (l : RdbLength) : DecodeProc RdbLength := fun s =>
  match l.decode s.bptr with
  | (.RDB_OK, l, b) => ⟨.ok l, { s with bptr := b }, []⟩
  | (err, _, b) => ⟨.error err, { s with bptr := b }, []⟩

def consume (E : Env) (l : RdbLength) : DecodeProc Ptr := fun s =>
  match l.consume E s.bptr with
  | (res, b) => ⟨res, { s with bptr := b }, []⟩

def decompress (E : Env) (l : RdbLength) : DecodeProc Unit := fun s =>
  match s.bptr.decompress E l.zlen l.len with
  | none => ⟨.error .undefined, s, []⟩
  | some (true, b) => ⟨.ok (), { s with bptr := b }, []⟩
  | some (false, b) => ⟨.error .RDB_ERR_LZF, { s with bptr := b }, []⟩

/-- `rlen.zero()` and `rlen.decode( bptr )`. -/
def decode_hdr_len : DecodeProc Unit := fun s =>
  match ({} : RdbLength).decode s.bptr with
  | (err, l, b) =>
    let s := { s with dec.rlen := l, bptr := b }
    if err = .RDB_OK then ⟨.ok (), s, []⟩ else ⟨.error err, s, []⟩

end DecodeProc

namespace RdbDecode

open DecodeProc

/-- The digits of the version at the given indexes; stops at the first byte that is none. -/
def parse_ver (buf : Mem) : List Nat → Nat → Bool × Nat
  | [], ver => (true, ver)
  | i :: is, ver =>
    if buf i < 0x30 ∨ 0x39 < buf i then (false, ver)
    else parse_ver buf is (ver * 10 + ((buf i).toNat - 0x30))

/-- "REDIS00" -/
def magic : List UInt8 := [0x52, 0x45, 0x44, 0x49, 0x53, 0x30, 0x30]

/-- Find the version and the crc of the whole input; the offset of the crc from the end. -/
def decode_ver : DecodeProc Nat := do
  let s ← Proc.read
  let avail := s.bptr.avail
  let buf := s.bptr.buf.ptr.mem
  if buf.take 7 = magic then
    let (digits, ver) := parse_ver buf [5, 6, 7, 8] 0
    set_dec fun d => { d with is_rdb_file := true, ver := ver }
    if ¬ digits then Proc.ret .RDB_ERR_VERSION
    else
      if buf (avail - 9) = 0xff then
        set_dec fun d => { d with crc := BitVec.ofNat 64 (le_nat ((buf.add (avail - 8)).take 8)) }
      pure 8
  else
    let ver := (buf (avail - 10)).toNat ||| ((buf (avail - 9)).toNat <<< 8)
    -- eat newline, it's from redis-cli
    let nl := decide (ver ≠ 9 ∧ buf (avail - 1) = 0x0a)
    let off := if nl then 9 else 8
    let ver :=
      if nl then (buf (sub64 avail 11)).toNat ||| ((buf (avail - 10)).toNat <<< 8) else ver
    set_dec fun d => { d with
      ver := ver, crc := BitVec.ofNat 64 (le_nat ((buf.add (avail - off)).take 8)) }
    pure off

/-- What the first `decode_hdr` does before the records: a crc that does not match is an error
for a dump only, and zero means that it was not computed. -/
def decode_trailer (E : Env) : DecodeProc Unit := do
  set_dec fun d => { d with crc := 0 }
  let s ← Proc.read
  if s.bptr.avail < 10 then Proc.ret .RDB_ERR_TRUNC
  else
    let off ← decode_ver
    let s ← Proc.read
    let calc_crc := jones_crc64 (E.addr s.bptr.buf.blk + s.bptr.buf.pos) 0
      (s.bptr.buf.ptr.mem.take (s.bptr.avail - off))
    if s.dec.crc ≠ 0 ∧ calc_crc ≠ s.dec.crc ∧ ¬ s.dec.is_rdb_file then Proc.ret .RDB_ERR_CRC
    else if ¬ s.dec.is_rdb_file then
      -- eat the crc and version, no 0xff terminator
      Proc.update fun s => { s with bptr.avail := sub64 s.bptr.avail (off + 2) }
    else skip (5 + 4)

/-- `len.decode( bptr )` for a length that may not be an integer or compressed. -/
def decode_plain : DecodeProc Nat := do
  let l ← decode {}
  if l.is_lzf ∨ l.is_enc ≠ 0 then Proc.ret .RDB_ERR_HDR else pure l.len

/-- One string of an AUX field. -/
def decode_aux_str (E : Env) : DecodeProc RdbString := do
  let aux ← decode {}
  if aux.is_enc ≠ 0 then pure (RdbString.empty.set_int aux.ival)
  else
    let b ← consume E aux
    pure (RdbString.empty.set_str b aux.len)

/-- What follows an opcode; the opcode itself is already eaten. -/
def decode_meta_op (E : Env) : RdbMeta → DecodeProc Unit
  | .RDB_MODULE_AUX => Proc.ret .RDB_ERR_NOTSUP
  | .RDB_IDLE => do
    let idle ← decode_plain
    call (.d_idle idle)
  | .RDB_FREQ => do
    let b ← incr 1
    call (.d_freq (b.mem 0).toNat)
  | .RDB_AUX => do
    let var ← decode_aux_str E
    let val ← decode_aux_str E
    call (.d_aux var.val val.val)
  | .RDB_DBRESIZE => do
    let i ← decode_plain
    let j ← decode_plain
    call (.d_dbresize i j)
  | .RDB_EXPIRED_MS => do
    let b ← incr 8
    call (.d_expired_ms (le_nat (b.mem.take 8)))
  | .RDB_EXPIRED_SEC => do
    let b ← incr 4
    call (.d_expired (le_nat (b.mem.take 4)))
  | .RDB_DBSELECT => do
    let sz ← decode_plain
    call (.d_dbselect (sz % 2 ^ 32))
  | .RDB_EOF => Proc.ret .RDB_EOF_MARK

/-- The loop over the opcodes before a record, which ends at a byte that is none. Each turn takes
at least the opcode off the bytes left in the current and the saved buffer, so these bound the
number of turns. -/
def decode_meta_loop (E : Env) : Nat → DecodeProc Unit
  | 0 => pure ()
  | fuel + 1 => do
    let s ← Proc.read
    if s.bptr.avail = 0 then pure ()
    else
      match get_rdb_meta (s.bptr.buf.ptr.mem 0) with
      | none => pure ()
      | some op => do
        skip 1
        decode_meta_op E op
        decode_meta_loop E fuel

/-- The key, whose header is the one decoded last. -/
def decode_key (E : Env) : DecodeProc Unit := do
  let s ← Proc.read
  if s.dec.rlen.is_enc ≠ 0 then
    set_dec fun d => { d with key := d.key.set_int d.rlen.ival }
  else
    let k ← consume E s.dec.rlen
    set_dec fun d => { d with key := d.key.set_str k d.rlen.len }

/-- Get type and length, and the key which is in a rdb file only. -/
def decode_type_key (E : Env) : DecodeProc Unit := do
  let s ← Proc.read
  if s.bptr.avail = 0 then Proc.ret .RDB_ERR_TRUNC
  else
    let type := get_rdb_type (s.bptr.buf.ptr.mem 0)
    set_dec fun d => { d with type := type }
    if type = .RDB_BAD_TYPE then Proc.ret .RDB_ERR_TYPE
    else
      start_type type
      skip 1
      decode_hdr_len
      if s.dec.is_rdb_file then
        decode_key E
        decode_hdr_len

/-- Finally, unzip. -/
def decode_unzip (E : Env) : DecodeProc Unit := do
  let s ← Proc.read
  if s.dec.rlen.is_lzf then decompress E s.dec.rlen

def decode_hdr (E : Env) : DecodeProc Unit := do
  let s ← Proc.read
  if s.dec.out = none ∧ ¬ s.dec.data_out then Proc.ret .RDB_ERR_OUTPUT
  else
    if s.dec.out = none then set_dec fun d => { d with out := some .data_out }
    if s.dec.ver = 0 then decode_trailer E
    let s ← Proc.read
    if s.dec.is_rdb_file then decode_meta_loop E (s.bptr.avail + s.bptr.sav_avail)
    decode_type_key E
    decode_unzip E

end RdbDecode

end rdbparser
