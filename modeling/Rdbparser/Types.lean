import Rdbparser.Bytes

namespace rdbparser

/-- The redis rdb encoded data types, by the number that starts a record. -/
inductive RdbType
  | RDB_STRING | RDB_LIST | RDB_SET | RDB_ZSET | RDB_HASH | RDB_ZSET_2 | RDB_MODULE | RDB_MODULE_2
  | RDB_BAD_TYPE | RDB_HASH_ZIPMAP | RDB_LIST_ZIPLIST | RDB_SET_INTSET | RDB_ZSET_ZIPLIST
  | RDB_HASH_ZIPLIST | RDB_LIST_QUICKLIST | RDB_STREAM_LISTPACK | RDB_HASH_LISTPACK
  | RDB_ZSET_LISTPACK | RDB_LIST_QUICKLIST_2 | RDB_STREAM_LISTPACKS_2
  deriving DecidableEq, Repr

def get_rdb_type (b : UInt8) : RdbType :=
  match b.toNat with
  | 0 => .RDB_STRING
  | 1 => .RDB_LIST
  | 2 => .RDB_SET
  | 3 => .RDB_ZSET
  | 4 => .RDB_HASH
  | 5 => .RDB_ZSET_2
  | 6 => .RDB_MODULE
  | 7 => .RDB_MODULE_2
  | 9 => .RDB_HASH_ZIPMAP
  | 10 => .RDB_LIST_ZIPLIST
  | 11 => .RDB_SET_INTSET
  | 12 => .RDB_ZSET_ZIPLIST
  | 13 => .RDB_HASH_ZIPLIST
  | 14 => .RDB_LIST_QUICKLIST
  | 15 => .RDB_STREAM_LISTPACK
  | 16 => .RDB_HASH_LISTPACK
  | 17 => .RDB_ZSET_LISTPACK
  | 18 => .RDB_LIST_QUICKLIST_2
  | 19 => .RDB_STREAM_LISTPACKS_2
  | _ => .RDB_BAD_TYPE

/-- Info that is not data, encoded in the rdb file with the codes 0xf7 to 0xff. -/
inductive RdbMeta
  | RDB_MODULE_AUX | RDB_IDLE | RDB_FREQ | RDB_AUX | RDB_DBRESIZE | RDB_EXPIRED_MS
  | RDB_EXPIRED_SEC | RDB_DBSELECT | RDB_EOF
  deriving DecidableEq, Repr

/-- The opcode of a byte; a byte below `RDB_MODULE_AUX` starts a record instead. -/
def get_rdb_meta (b : UInt8) : Option RdbMeta :=
  match b.toNat with
  | 0xf7 => some .RDB_MODULE_AUX
  | 0xf8 => some .RDB_IDLE
  | 0xf9 => some .RDB_FREQ
  | 0xfa => some .RDB_AUX
  | 0xfb => some .RDB_DBRESIZE
  | 0xfc => some .RDB_EXPIRED_MS
  | 0xfd => some .RDB_EXPIRED_SEC
  | 0xfe => some .RDB_DBSELECT
  | 0xff => some .RDB_EOF
  | _ => none

/-- The codes; `undefined` is none of the source: it ends a run that does what is undefined, such as
freeing a block twice. -/
inductive RdbErrCode
  | undefined
  | RDB_OK | RDB_ERR_OUTPUT | RDB_ERR_TRUNC | RDB_ERR_VERSION | RDB_ERR_CRC | RDB_ERR_TYPE
  | RDB_ERR_HDR | RDB_ERR_LZF | RDB_ERR_NOTSUP | RDB_ERR_ZLEN | RDB_EOF_MARK
  deriving DecidableEq, Repr

/-- The memory block a pointer points into. -/
inductive Block
  | null
  | input
  | lit
  | heap (id : Nat)
  deriving DecidableEq, Repr

/-- A pointer handed out by the decoder: its block and what is read from it on. -/
structure Ptr where
  blk : Block
  mem : Mem

def Ptr.add (p : Ptr) (n : Nat) : Ptr := ⟨p.blk, p.mem.add n⟩

/-- A pointer to a string constant of the program. -/
def Ptr.lit (bs : List UInt8) : Ptr := ⟨.lit, Mem.ofList bs fun _ => 0⟩

theorem Ptr.lit_starts (bs : List UInt8) : (Ptr.lit bs).mem.Starts bs :=
  Mem.ofList_starts bs fun _ => 0

inductive RdbValueCoding
  | RDB_NO_VAL | RDB_INT_VAL | RDB_STR_VAL | RDB_DBL_VAL
  deriving DecidableEq, Repr

/-- `u` is the 64 bit union of `ival`, `s_len` and `fval`; setting an integer or a double leaves
`s` as it was. -/
structure RdbString where
  coding : RdbValueCoding
  s : Ptr
  u : Nat

namespace RdbString

def empty : RdbString := ⟨.RDB_NO_VAL, ⟨.null, fun _ => 0⟩, 0⟩

def s_len (r : RdbString) : Nat := r.u
def ival (r : RdbString) : Int := sext 64 r.u

def set_str (_r : RdbString) (str : Ptr) (len : Nat) : RdbString := ⟨.RDB_STR_VAL, str, len⟩
def set_int (r : RdbString) (i : Int) : RdbString := ⟨.RDB_INT_VAL, r.s, twos 64 i⟩
def set_dbl (r : RdbString) (bits : Nat) : RdbString := ⟨.RDB_DBL_VAL, r.s, bits⟩

end RdbString

/-- What a callback finds in the `RdbString` it is given; a double is kept as its 64 bits. -/
inductive RdbVal
  | nil
  | int (ival : Int)
  | str (s : List UInt8)
  | dbl (fval : Nat)
  deriving DecidableEq, Repr

def RdbString.val (r : RdbString) : RdbVal :=
  match r.coding with
  | .RDB_NO_VAL => .nil
  | .RDB_INT_VAL => .int r.ival
  | .RDB_STR_VAL => .str (r.s.mem.take r.s_len)
  | .RDB_DBL_VAL => .dbl r.u

@[simp] theorem RdbString.set_str_val (r : RdbString) (p : Ptr) (n : Nat) :
    (r.set_str p n).val = .str (p.mem.take n) := rfl

theorem RdbString.set_str_starts (r : RdbString) {p : Ptr} {text : List UInt8} {n : Nat}
    (hp : p.mem.Starts text) (hn : n = text.length) : (r.set_str p n).val = .str text := by
  rw [set_str_val, hn, hp.take]

@[simp] theorem RdbString.set_dbl_val (r : RdbString) (n : Nat) : (r.set_dbl n).val = .dbl n := rfl

theorem RdbString.set_int_val (r : RdbString) {i : Int} (hlo : -(2 ^ 63) ≤ i) (hhi : i < 2 ^ 63) :
    (r.set_int i).val = .int i := by
  have h : sext 64 (twos 64 i) = i := sext_twos (by omega) (by omega)
  simp only [RdbString.val, RdbString.set_int, RdbString.ival, h]

structure RdbStreamRecId where
  ms : Nat
  ser : Nat
  deriving DecidableEq, Repr

inductive StreamPart
  | STREAM_ENTRY_LIST | STREAM_GROUP_LIST | STREAM_GROUP | STREAM_PENDING_LIST
  | STREAM_CONSUMER_LIST | STREAM_CONSUMER | STREAM_CONSUMER_PENDING_LIST
  deriving DecidableEq, Repr

/-- The `RdbOutput` callbacks with what they are given. `d_start_key` and `d_end_key` read the
type and the key of the decoder they are called by. -/
inductive Callback
  | d_idle (i : Nat)
  | d_freq (f : Nat)
  | d_aux (var val : RdbVal)
  | d_dbresize (i j : Nat)
  | d_expired_ms (ms : Nat)
  | d_expired (sec : Nat)
  | d_dbselect (db : Nat)
  | d_start_type (t : RdbType)
  | d_start_key (type : RdbType) (key : RdbVal)
  | d_end_key (type : RdbType)
  | d_string (str : RdbVal)
  | d_module (str : RdbVal)
  | d_hash (num cnt : Nat) (field val : RdbVal)
  | d_list (num cnt : Nat) (val : RdbVal)
  | d_set (num cnt : Nat) (member : RdbVal)
  | d_zset (num cnt : Nat) (member score : RdbVal)
  | d_stream_start (c : StreamPart)
  | d_stream_end (c : StreamPart)
  | d_stream_entry (num cnt : Nat) (id diff : RdbStreamRecId) (flags : Nat)
      (fields : List (RdbVal × RdbVal))
  | d_stream_info (last : RdbStreamRecId) (num_elems num_cgroups entry_cnt : Nat)
  | d_stream_group (num cnt : Nat) (gname : RdbVal) (pending_cnt : Nat) (last : RdbStreamRecId)
  | d_stream_pend (num cnt : Nat) (id : RdbStreamRecId) (last_delivery delivery_cnt : Nat)
  | d_stream_cons (num cnt : Nat) (cname : RdbVal) (pend_cnt last_seen : Nat)
  | d_stream_cons_pend (num cnt : Nat) (id : RdbStreamRecId)
  deriving DecidableEq, Repr

/-- A callback that hands out a part of a value. -/
def Callback.of_value : Callback → Bool
  | .d_idle _ | .d_freq _ | .d_aux _ _ | .d_dbresize _ _ | .d_expired_ms _ | .d_expired _
  | .d_dbselect _ | .d_start_type _ | .d_start_key _ _ | .d_end_key _ => false
  | _ => true

/-- The output a callback goes to: the real one or the one for filtered keys. -/
inductive Dest
  | data_out
  | null_out
  deriving DecidableEq, Repr

/-- One virtual call on an output; `offset` is the `bptr.offset` an output holding a reference to
the buffer reads during the call. -/
structure Event where
  dest : Dest
  call : Callback
  offset : Nat
  deriving DecidableEq, Repr

end rdbparser
