import Rdbparser.Format.Stream
import Rdbparser.Format.Zset

namespace rdbparser.format

/-- The types whose value is one string in which the elements are packed. -/
inductive PackedType
  | hash_zipmap | list_ziplist | zset_ziplist | hash_ziplist | hash_listpack | zset_listpack
  deriving DecidableEq, Repr

namespace PackedType

def type : PackedType → RdbType
  | hash_zipmap => .RDB_HASH_ZIPMAP
  | list_ziplist => .RDB_LIST_ZIPLIST
  | zset_ziplist => .RDB_ZSET_ZIPLIST
  | hash_ziplist => .RDB_HASH_ZIPLIST
  | hash_listpack => .RDB_HASH_LISTPACK
  | zset_listpack => .RDB_ZSET_LISTPACK

def type_byte : PackedType → UInt8
  | hash_zipmap => 9
  | list_ziplist => 10
  | zset_ziplist => 12
  | hash_ziplist => 13
  | hash_listpack => 16
  | zset_listpack => 17

end PackedType

/-- A set of integers of the same size: this size, their number and the integers, in one string. -/
structure IntSet (E : Env) where
  blob : Blob E
  nbyte : Nat
  nelem : Nat
  members : List UInt8
  hnbyte : nbyte = 1 ∨ nbyte = 2 ∨ nbyte = 4 ∨ nbyte = 8
  hnelem : nelem < 2 ^ 32
  hmembers : members.length = nbyte * nelem
  htext : blob.str.text = le_bytes 4 nbyte ++ (le_bytes 4 nelem ++ members)

/-- The value of a record of any type that is supported, but for streams and modules. What is packed in a
string is not looked into, and sets of integers excepted need not be well formed. -/
inductive StoredValue (E : Env)
  | value (v : Value E)
  | zset (v : ZSet E)
  | packed (type : PackedType) (x : Blob E)
  | intset (x : IntSet E)
  | quicklist (n : StoredLen) (nodes : List (Blob E)) (hn : n.val = nodes.length)
  | quicklist_2 (n : StoredLen) (nodes : List (StoredLen × Blob E)) (hn : n.val = nodes.length)

namespace StoredValue

variable {E : Env}

def type : StoredValue E → RdbType
  | value v => v.type
  | zset v => v.type
  | packed t _ => t.type
  | intset _ => .RDB_SET_INTSET
  | quicklist .. => .RDB_LIST_QUICKLIST
  | quicklist_2 .. => .RDB_LIST_QUICKLIST_2

def type_byte : StoredValue E → UInt8
  | value v => v.type_byte
  | zset v => v.type_byte
  | packed t _ => t.type_byte
  | intset _ => 11
  | quicklist .. => 14
  | quicklist_2 .. => 18

def head : StoredValue E → Head E
  | value v => v.head
  | zset v => v.head
  | packed _ x => .str x.str
  | intset x => .str x.blob.str
  | quicklist n _ _ | quicklist_2 n _ _ => .len n

/-- What follows the header and what is decompressed behind it. -/
def plain : StoredValue E → List UInt8
  | value v => v.plain
  | zset v => v.plain
  | packed _ x => x.str.plain
  | intset x => x.blob.str.plain
  | quicklist _ nodes _ => nodes.flatMap fun x => x.str.bytes
  | quicklist_2 _ nodes _ => nodes.flatMap fun x => x.1.bytes ++ x.2.str.bytes

def data (v : StoredValue E) : List UInt8 := v.head.hdr.bytes ++ (v.head.blob ++ v.plain)

theorem get_rdb_type_byte (v : StoredValue E) : get_rdb_type v.type_byte = v.type := by
  cases v with
  | value v => cases v <;> rfl
  | zset v => cases v <;> rfl
  | packed t _ => cases t <;> rfl
  | _ => rfl

theorem type_ne_bad (v : StoredValue E) : v.type ≠ .RDB_BAD_TYPE := by
  cases v with
  | value v => cases v <;> exact RdbType.noConfusion
  | zset v => cases v <;> exact RdbType.noConfusion
  | packed t _ => cases t <;> exact RdbType.noConfusion
  | _ => exact RdbType.noConfusion

theorem type_ne_stream (v : StoredValue E) :
    v.type ≠ .RDB_STREAM_LISTPACK ∧ v.type ≠ .RDB_STREAM_LISTPACKS_2 := by
  cases v with
  | value v => cases v <;> exact ⟨RdbType.noConfusion, RdbType.noConfusion⟩
  | zset v => cases v <;> exact ⟨RdbType.noConfusion, RdbType.noConfusion⟩
  | packed t _ => cases t <;> exact ⟨RdbType.noConfusion, RdbType.noConfusion⟩
  | _ => exact ⟨RdbType.noConfusion, RdbType.noConfusion⟩

theorem get_rdb_meta_byte (v : StoredValue E) : get_rdb_meta v.type_byte = none := by
  cases v with
  | value v => cases v <;> rfl
  | zset v => cases v <;> rfl
  | packed t _ => cases t <;> rfl
  | _ => rfl

end StoredValue

/-- A record of a file: the opcodes before it, its key and its value. -/
structure StoredRecord (E : Env) where
  metas : List (Meta E)
  key : StoredStr E
  value : StoredValue E

namespace StoredRecord

variable {E : Env}

/-- The opcodes and the key, which a dump has not. -/
def metas_in (file : Bool) (r : StoredRecord E) : List (Meta E) := if file then r.metas else []

def key_in (file : Bool) (r : StoredRecord E) : List UInt8 := if file then r.key.bytes else []

/-- What `decode_hdr` eats. -/
def front (file : Bool) (r : StoredRecord E) : List UInt8 :=
  (r.metas_in file).flatMap Meta.bytes ++ r.value.type_byte ::
    (r.key_in file ++ (r.value.head.hdr.bytes ++ r.value.head.blob))

def bytes (file : Bool) (r : StoredRecord E) : List UInt8 := r.front file ++ r.value.plain

end StoredRecord

end rdbparser.format
