import Rdbparser.Decode
import Rdbparser.ListPack

namespace rdbparser.RdbDecode

open DecodeProc

/-- The output the verdict of the filter on a key selects. -/
def verdict (filter : Option (RdbVal → Bool)) (key : RdbVal) : Dest :=
  match filter with
  | none => .data_out
  | some match_key => if match_key key then .data_out else .null_out

def dest (d : RdbDecode) : Dest := verdict d.filter d.key.val

/-- Call filter if present and set up output. -/
def start_key : DecodeProc Unit := do
  set_dec fun d => { d with out := some d.dest }
  let s ← Proc.read
  call (.d_start_key s.dec.type s.dec.key.val)

def end_key : DecodeProc Unit := do
  let s ← Proc.read
  call (.d_end_key s.dec.type)

/-- Copy a reference of length to string. -/
def decode_str (str : RdbString) (len : RdbLength) : DecodeProc RdbString := do
  if len.is_enc ≠ 0 then pure (str.set_int len.ival)
  else
    let b ← incr len.len
    pure (str.set_str b len.len)

/-- Decode a integer or length and copy a reference to string. -/
def decode_rlen (E : Env) (str : RdbString) : DecodeProc RdbString := do
  let len ← decode {}
  if len.is_lzf then decompress E len
  decode_str str len

/-! The element loops of `RDB_LIST`, `RDB_SET` and `RDB_HASH`. -/

def decode_list_elem (E : Env) (cnt num : Nat) : DecodeProc Unit := do
  let val ← decode_rlen E .empty
  call (.d_list num cnt val.val)

def decode_set_elem (E : Env) (cnt num : Nat) : DecodeProc Unit := do
  let member ← decode_rlen E .empty
  call (.d_set num cnt member.val)

def decode_hash_elem (E : Env) (cnt num : Nat) : DecodeProc Unit := do
  let field ← decode_rlen E .empty
  let val ← decode_rlen E .empty
  call (.d_hash num cnt field.val val.val)

/-- `RDB_LIST`, `RDB_SET` or `RDB_HASH`: `rlen.len` elements. -/
def decode_elems (elem : Nat → Nat → DecodeProc Unit) : DecodeProc Unit := do
  start_key
  let s ← Proc.read
  Proc.count (elem s.dec.rlen.len) 0 s.dec.rlen.len
  end_key

/-- `RDB_STRING`: a single string, the simplest structure. -/
def decode_string : DecodeProc Unit := do
  start_key
  let s ← Proc.read
  let str ← decode_str .empty s.dec.rlen
  call (.d_string str.val)
  end_key

/-- `hptr.incr( n )` on a local buffer, where NULL makes the decoder return `RDB_ERR_TRUNC`. -/
def local_incr (hptr : RdbBufptr) (n : Nat) : DecodeProc (Ptr × RdbBufptr) :=
  match hptr.incr n with
  | some r => pure r
  | none => Proc.ret .RDB_ERR_TRUNC

/-- The rest of a zipmap length that starts with the byte `len`. -/
def zipmap_len (hptr : RdbBufptr) (len : Nat) : DecodeProc (Nat × RdbBufptr) := do
  if 254 ≤ len then
    let (b, hptr) ← local_incr hptr 4
    pure (be_nat (b.mem.take 4), hptr)
  else pure (len, hptr)

/-- Field : value of a zipmap. Every turn takes at least one byte off `hptr`, so `hptr.avail`
bounds the number of turns. -/
def zipmap_loop (cnt : Nat) : Nat → Nat → RdbBufptr → DecodeProc Unit
  | 0, _, _ => pure ()
  | fuel + 1, num, hptr => do
    if hptr.avail = 0 then pure ()
    else
      let (b, hptr) ← local_incr hptr 1
      let len := (b.mem 0).toNat
      if len = 255 then pure ()
      else
        let (len, hptr) ← zipmap_len hptr len
        let (b, hptr) ← local_incr hptr len
        let field := RdbString.empty.set_str b len
        let (b, hptr) ← local_incr hptr 1
        let (len, hptr) ← zipmap_len hptr (b.mem 0).toNat
        -- free space, after val, 1 byte; added in 32 bits
        let (b, hptr) ← local_incr hptr 1
        let (b, hptr) ← local_incr hptr ((len + (b.mem 0).toNat) % 2 ^ 32)
        let val := RdbString.empty.set_str b len
        call (.d_hash num cnt field.val val.val)
        zipmap_loop cnt fuel (num + 1) hptr

def decode_hash_zipmap : DecodeProc Unit := do
  start_key
  let s ← Proc.read
  let b ← incr s.dec.rlen.len
  let hptr := RdbBufptr.init ⟨b.blk, b.mem, 0⟩ s.dec.rlen.len
  match hptr.incr 1 with
  | some (b, hptr) => zipmap_loop (b.mem 0).toNat hptr.avail 0 hptr
  | none => zipmap_loop 0 hptr.avail 0 hptr
  end_key

/-- A member of an intset; 8 byte members are read as 4 byte ones. -/
def intset_val (nbyte : Nat) (b : Mem) : Int :=
  match nbyte with
  | 1 => sext 8 (b 0).toNat
  | 2 => sext 16 (le_nat (b.take 2))
  | _ => sext 32 (le_nat (b.take 4))

def decode_set_intset : DecodeProc Unit := do
  start_key
  let b ← incr 8
  let nbyte := le_nat (b.mem.take 4)
  let nelem := le_nat ((b.mem.add 4).take 4)
  -- check valid int size
  if nbyte ≠ 1 ∧ nbyte ≠ 2 ∧ nbyte ≠ 4 ∧ nbyte ≠ 8 then Proc.ret .RDB_ERR_NOTSUP
  else
    let b ← incr (nbyte * nelem % 2 ^ 32)
    Proc.count (fun num => call (.d_set num nelem
      (RdbString.empty.set_int (intset_val nbyte (b.mem.add (nbyte * num)))).val)) 0 nelem
    end_key

/-- "nan", "inf" and "-inf" -/
def score_nan : List UInt8 := [0x6e, 0x61, 0x6e]
def score_inf : List UInt8 := [0x69, 0x6e, 0x66]
def score_neg_inf : List UInt8 := [0x2d, 0x69, 0x6e, 0x66]

/-- The score of a zset member: a binary double value or a string encoded float. -/
def decode_score (type : RdbType) : DecodeProc RdbString := do
  if type = .RDB_ZSET_2 then
    let b ← incr 8
    pure (RdbString.empty.set_dbl (le_nat (b.mem.take 8)))
  else
    let b ← incr 1
    let len := (b.mem 0).toNat
    match len with
    | 253 => pure (RdbString.empty.set_str (.lit score_nan) 3)
    | 254 => pure (RdbString.empty.set_str (.lit score_inf) 3)
    | 255 => pure (RdbString.empty.set_str (.lit score_neg_inf) 4)
    | _ =>
      let b ← incr len
      pure (RdbString.empty.set_str b len)

def decode_zset_elem (E : Env) (type : RdbType) (cnt num : Nat) : DecodeProc Unit := do
  let member ← decode_rlen E .empty
  let score ← decode_score type
  call (.d_zset num cnt member.val score.val)

def decode_zset (E : Env) : DecodeProc Unit := do
  start_key
  let s ← Proc.read
  Proc.count (decode_zset_elem E s.dec.type s.dec.rlen.len) 0 s.dec.rlen.len
  end_key

def decode_lval (base : Ptr) (lval : RdbListValue) : RdbString :=
  match lval.data with
  | some data => RdbString.empty.set_str (base.add data) lval.data_len
  | none => RdbString.empty.set_int (sext 64 lval.ival)

/-- Foreach list element, from the one `next` just found; the running number the caller goes on
with. Each `next` that finds an element moves on by at least one byte, so the size of the list
bounds the number of turns. -/
def list_loop (next : RdbListValue → Bool × RdbListValue) (base : Ptr) (cnt : Nat) :
    Nat → Nat → RdbListValue → DecodeProc Nat
  | 0, num, _ => pure num
  | fuel + 1, num, lval => do
    call (.d_list num cnt (decode_lval base lval).val)
    let (more, lval) := next lval
    if more then list_loop next base cnt fuel (num + 1) lval else pure num

/-- Foreach pair of elements: field and value, or member and score. -/
def pair_loop (next : RdbListValue → Bool × RdbListValue) (base : Ptr)
    (d_pair : Nat → RdbVal → RdbVal → Callback) : Nat → Nat → RdbListValue → DecodeProc Unit
  | 0, _, _ => pure ()
  | fuel + 1, num, lval => do
    let field := decode_lval base lval
    let (more, lval) := next lval
    if more then
      call (d_pair num field.val (decode_lval base lval).val)
      let (more, lval) := next lval
      if more then pair_loop next base d_pair fuel (num + 1) lval else pure ()
    else pure ()

def decode_ziplist : DecodeProc Unit := do
  start_key
  let s ← Proc.read
  let b ← incr s.dec.rlen.len
  match RdbZipList.init b s.dec.rlen.len with
  | none => Proc.ret .RDB_ERR_TRUNC
  | some zip =>
    -- the same structure, different outputs
    let (found, lval) := zip.first
    if found then
      match s.dec.type with
      | .RDB_ZSET_ZIPLIST => pair_loop zip.next b (.d_zset · (zip.zllen / 2)) zip.zlbytes 0 lval
      | .RDB_LIST_ZIPLIST => do
        let _ ← list_loop zip.next b zip.zllen zip.zlbytes 0 lval
      | _ => pair_loop zip.next b (.d_hash · (zip.zllen / 2)) zip.zlbytes 0 lval
    end_key

/-- One ziplist of a quicklist, from the running number `num`. -/
def decode_quicklist_node (E : Env) (num : Nat) : DecodeProc Nat := do
  let llen ← decode {}
  let b ← consume E llen
  match RdbZipList.init b llen.len with
  | none => Proc.ret .RDB_ERR_TRUNC
  | some zip =>
    let (found, lval) := zip.first
    if found then list_loop zip.next b 0 zip.zlbytes num lval else pure num

def decode_quicklist (E : Env) : DecodeProc Unit := do
  start_key
  let s ← Proc.read
  let _ ← Proc.times s.dec.rlen.len (decode_quicklist_node E) 0
  end_key

/-- One container of a quicklist 2; only the packed one, 2, is supported. -/
def decode_quicklist_2_node (E : Env) (num : Nat) : DecodeProc Nat := do
  let container ← decode {}
  let llen ← decode {}
  let b ← consume E llen
  if container.len = 2 then
    match RdbListPack.init b llen.len with
    | none => Proc.ret .RDB_ERR_TRUNC
    | some lp =>
      let (found, lval) := lp.first
      if found then list_loop lp.next b 0 lp.lpbytes num lval else pure num
  else Proc.ret .RDB_ERR_NOTSUP

def decode_quicklist_2 (E : Env) : DecodeProc Unit := do
  start_key
  let s ← Proc.read
  let _ ← Proc.times s.dec.rlen.len (decode_quicklist_2_node E) 0
  end_key

def decode_listpack : DecodeProc Unit := do
  start_key
  let s ← Proc.read
  let b ← incr s.dec.rlen.len
  match RdbListPack.init b s.dec.rlen.len with
  | none => Proc.ret .RDB_ERR_TRUNC
  | some lp =>
    let (found, lval) := lp.first
    match s.dec.type with
    | .RDB_HASH_LISTPACK => do
      if found then pair_loop lp.next b (.d_hash · 0) lp.lpbytes 0 lval
      end_key
    | .RDB_ZSET_LISTPACK => do
      if found then pair_loop lp.next b (.d_zset · 0) lp.lpbytes 0 lval
      end_key
    | _ => Proc.ret .RDB_ERR_NOTSUP

/-- The 64 characters of a module name. -/
def char_set : List UInt8 :=
  (List.range 26).map (fun i => UInt8.ofNat (0x41 + i)) ++
    (List.range 26).map (fun i => UInt8.ofNat (0x61 + i)) ++
    (List.range 10).map (fun i => UInt8.ofNat (0x30 + i)) ++ [0x2d, 0x5f]

/-- The module id as text, nine characters and a version; `snprintf` stores four bytes and a
zero of the version, but the length is that of all its digits and the dot. -/
def module_name (m : Nat) : List UInt8 :=
  let name := [9, 8, 7, 6, 5, 4, 3, 2, 1].map fun i => char_set.getD ((m >>> (i * 6 + 4)) &&& 63) 0
  let ver := 0x2e :: decimal (m &&& 1023)
  name ++ (ver.take 4 ++ [0]).take ver.length

/-- Find terminating eof: eat up to a zero byte or all there is. -/
def module_scan : Nat → RdbBufptr → RdbBufptr
  | 0, bptr => bptr
  | fuel + 1, bptr =>
    match bptr.incr 1 with
    | none => bptr
    | some (b, bptr) => if b.mem 0 = 0 then bptr else module_scan fuel bptr

/-- Decode a MODULE, MODULE_2 type. -/
def decode_module : DecodeProc Unit := do
  let s ← Proc.read
  let rlen := s.dec.rlen
  if rlen.is_enc ≠ 0 ∨ rlen.is_lzf then Proc.ret .RDB_ERR_HDR
  else
    start_key
    call (.d_module (.str (module_name rlen.len)))
    end_key
    Proc.update fun s => { s with bptr := module_scan s.bptr.avail s.bptr }

end rdbparser.RdbDecode
