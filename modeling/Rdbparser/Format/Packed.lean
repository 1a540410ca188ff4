import Rdbparser.Decode.Quicklist
import Rdbparser.Format.StreamBlock

/-! Values that are packed in one string, with the elements that are found in it. -/

namespace rdbparser

/-- The text of a zip list of which `cnt` is said to be the number of elements, and the elements found in it. -/
def RdbZipList.Counts (text : List UInt8) (cnt : Nat) (vs : List ListPackElem) : Prop :=
  ∀ b : Ptr, b.mem.Starts text → ∃ z, RdbZipList.init b text.length = some z ∧ z.zllen = cnt ∧
    z.walk.Finds (fun _ => True) z.start vs

theorem RdbZipList.Counts.holds {text : List UInt8} {cnt : Nat} {vs : List ListPackElem} (h : Counts text cnt vs) :
    Holds text vs := by
  intro b hb
  obtain ⟨z, hinit, -, hfinds⟩ := h b hb
  exact ⟨z, hinit, hfinds⟩

namespace format

/-- Elements two by two. -/
def paired (ps : List (ListPackElem × ListPackElem)) : List ListPackElem := ps.flatMap fun p => [p.1, p.2]

theorem paired_length (ps : List (ListPackElem × ListPackElem)) : (paired ps).length = 2 * ps.length :=
  StreamFields.length_pairs ps

/-- A field of a zip map, its value and the free space behind the value, which with the value fits 32 bits. -/
structure ZipMapPair where
  field : List UInt8
  val : List UInt8
  free : List UInt8
  hfield : field.length < 2 ^ 32
  hval : val.length + free.length < 2 ^ 32
  hfree : free.length < 256

/-- A length in a byte, or in 32 bits behind the byte 254. -/
def ZipMapPair.len_bytes (n : Nat) : List UInt8 := if n < 254 then [UInt8.ofNat n] else 254 :: be_bytes 4 n

def ZipMapPair.bytes (x : ZipMapPair) : List UInt8 :=
  len_bytes x.field.length ++ (x.field ++ (len_bytes x.val.length ++ UInt8.ofNat x.free.length :: (x.val ++ x.free)))

/-- A zip map of which `cnt` is said to be the number of pairs. -/
structure ZipMap where
  cnt : UInt8
  pairs : List ZipMapPair

def ZipMap.bytes (x : ZipMap) : List UInt8 := x.cnt :: (x.pairs.flatMap ZipMapPair.bytes ++ [0xff])

/-- A value that is packed in one string. The integers of a set are no more than 32 bits can count the bytes of,
and one of 8 bytes needs no more than the low half of them. -/
inductive PackedValue (E : Env)
  | hash_zipmap (x : Blob E) (m : ZipMap) (holds : x.str.text = m.bytes)
  | list_ziplist (x : Blob E) (cnt : Nat) (vs : List ListPackElem) (holds : RdbZipList.Counts x.str.text cnt vs)
  | set_intset (x : Blob E) (m : IntMembers) (holds : x.str.text = m.bytes)
      (small : m.nbyte * m.members.length < 2 ^ 32)
      (fits : m.nbyte = 8 → ∀ a ∈ m.members, -2 ^ 31 ≤ m.val a ∧ m.val a < 2 ^ 31)
  | zset_ziplist (x : Blob E) (cnt : Nat) (ps : List (ListPackElem × ListPackElem))
      (holds : RdbZipList.Counts x.str.text cnt (paired ps))
  | hash_ziplist (x : Blob E) (cnt : Nat) (ps : List (ListPackElem × ListPackElem))
      (holds : RdbZipList.Counts x.str.text cnt (paired ps))
  | hash_listpack (x : Blob E) (ps : List (ListPackElem × ListPackElem))
      (holds : RdbListPack.Holds x.str.text (paired ps))
  | zset_listpack (x : Blob E) (ps : List (ListPackElem × ListPackElem))
      (holds : RdbListPack.Holds x.str.text (paired ps))

namespace PackedValue

variable {E : Env}

def type : PackedValue E → RdbType
  | hash_zipmap .. => .RDB_HASH_ZIPMAP
  | list_ziplist .. => .RDB_LIST_ZIPLIST
  | set_intset .. => .RDB_SET_INTSET
  | zset_ziplist .. => .RDB_ZSET_ZIPLIST
  | hash_ziplist .. => .RDB_HASH_ZIPLIST
  | hash_listpack .. => .RDB_HASH_LISTPACK
  | zset_listpack .. => .RDB_ZSET_LISTPACK

def type_byte : PackedValue E → UInt8
  | hash_zipmap .. => 9
  | list_ziplist .. => 10
  | set_intset .. => 11
  | zset_ziplist .. => 12
  | hash_ziplist .. => 13
  | hash_listpack .. => 16
  | zset_listpack .. => 17

/-- The string. -/
def blob : PackedValue E → Blob E
  | hash_zipmap x .. | list_ziplist x .. | set_intset x .. | zset_ziplist x .. | hash_ziplist x .. | hash_listpack x ..
  | zset_listpack x .. => x

/-- One callback per element or pair, in order, with the number there is said to be of them: a list pack is not
asked. -/
def calls : PackedValue E → List Callback
  | hash_zipmap _ m _ => m.pairs.mapIdx fun i p => .d_hash i m.cnt.toNat (.str p.field) (.str p.val)
  | list_ziplist _ cnt vs _ => vs.mapIdx fun i v => .d_list i cnt v.val
  | set_intset _ m _ _ _ => m.members.mapIdx fun i a => .d_set i m.members.length (.int (m.val a))
  | zset_ziplist _ cnt ps _ => ps.mapIdx fun i p => .d_zset i (cnt / 2) p.1.val p.2.val
  | hash_ziplist _ cnt ps _ => ps.mapIdx fun i p => .d_hash i (cnt / 2) p.1.val p.2.val
  | hash_listpack _ ps _ => ps.mapIdx fun i p => .d_hash i 0 p.1.val p.2.val
  | zset_listpack _ ps _ => ps.mapIdx fun i p => .d_zset i 0 p.1.val p.2.val

instance : Encoding E (PackedValue E) where
  type := type
  type_byte := type_byte
  head v := .str v.blob.str
  plain v := v.blob.str.plain
  calls := calls
  get_rdb_type_byte v := by cases v <;> rfl
  type_ne_bad v := by cases v <;> exact RdbType.noConfusion
  get_rdb_meta_byte v := by cases v <;> rfl
  of_value v c hc := by
    cases v with
    | hash_zipmap | list_ziplist | set_intset | zset_ziplist | hash_ziplist | hash_listpack | zset_listpack =>
      obtain ⟨i, hi, rfl⟩ := List.mem_mapIdx.mp hc
      rfl

end PackedValue

/-- A set of integers no longer than 32 bits can count the bytes of. Its integers may be of any size: of those
of 8 bytes the low half is taken for the member. -/
structure IntsetValue (E : Env) where
  blob : Blob E
  set : IntMembers
  holds : blob.str.text = set.bytes
  small : set.nbyte * set.members.length < 2 ^ 32

instance {E : Env} : Encoding E (IntsetValue E) where
  type _ := .RDB_SET_INTSET
  type_byte _ := 11
  head v := .str v.blob.str
  plain v := v.blob.str.plain
  calls v := v.set.members.mapIdx fun i a => .d_set i v.set.members.length (.int (v.set.read a))
  get_rdb_type_byte _ := rfl
  type_ne_bad _ := RdbType.noConfusion
  get_rdb_meta_byte _ := rfl
  of_value v c hc := by
    obtain ⟨i, hi, rfl⟩ := List.mem_mapIdx.mp hc
    rfl

def QuickList.type_byte {E : Env} : QuickList E → UInt8
  | ziplists _ => 14
  | listpacks _ => 18

/-- The elements of a quicklist are sent as those of a list. -/
theorem of_value_quick_calls (num : Nat) (nodes : List (List ListPackElem)) :
    ∀ c ∈ quick_calls num nodes, c.of_value = true := by
  induction nodes generalizing num with
  | nil => exact fun c hc => absurd hc List.not_mem_nil
  | cons vs nodes ih =>
    intro c hc
    rcases List.mem_append.mp hc with hc | hc
    · obtain ⟨i, hi, rfl⟩ := List.mem_mapIdx.mp hc
      rfl
    · exact ih _ c hc

/-- The value of a quicklist, with the number of its nodes. -/
structure QuickValue (E : Env) where
  n : StoredLen
  list : QuickList E
  hn : n.val = list.elems.length

instance {E : Env} : Encoding E (QuickValue E) where
  type v := v.list.type
  type_byte v := v.list.type_byte
  head v := .len v.n
  plain v := v.list.bytes
  calls v := quick_calls 0 v.list.elems
  get_rdb_type_byte v := by
    obtain ⟨n, l, hn⟩ := v
    cases l <;> rfl
  type_ne_bad v := by
    obtain ⟨n, l, hn⟩ := v
    cases l <;> exact RdbType.noConfusion
  get_rdb_meta_byte v := by
    obtain ⟨n, l, hn⟩ := v
    cases l <;> rfl
  of_value v := of_value_quick_calls 0 v.list.elems

/-- A node of a quicklist of the second form: packed, with its elements in a list, or plain, one element on its own. -/
inductive QuickPart (E : Env)
  | packed (n : { n : StoredLen // n.val = 2 }) (x : QuickNode E RdbListPack.Holds)
  | plain (n : { n : StoredLen // n.val = 1 }) (x : Blob E)

namespace QuickPart

variable {E : Env}

def bytes : QuickPart E → List UInt8
  | packed n x => n.1.bytes ++ x.blob.str.bytes
  | plain n x => n.1.bytes ++ x.str.bytes

def elems : QuickPart E → List ListPackElem
  | packed _ x => x.elems
  | plain _ x => [.str x.str.text]

def is_plain : QuickPart E → Bool
  | packed .. => false
  | plain .. => true

end QuickPart

/-- The value of a quicklist of the second form, with nodes of either kind. -/
structure QuickParts (E : Env) where
  n : StoredLen
  nodes : List (QuickPart E)
  hn : n.val = nodes.length

instance {E : Env} : Encoding E (QuickParts E) where
  type _ := .RDB_LIST_QUICKLIST_2
  type_byte _ := 18
  head v := .len v.n
  plain v := v.nodes.flatMap QuickPart.bytes
  calls v := quick_calls 0 (v.nodes.map QuickPart.elems)
  get_rdb_type_byte _ := rfl
  type_ne_bad _ := RdbType.noConfusion
  get_rdb_meta_byte _ := rfl
  of_value v := of_value_quick_calls 0 (v.nodes.map QuickPart.elems)

/-- A quicklist of at most one node, whose elements are numbered in order. -/
structure QuickSingle (E : Env) where
  quick : QuickValue E
  single : quick.list.elems.length ≤ 1

instance {E : Env} : Encoding E (QuickSingle E) where
  type v := Encoding.type v.quick
  type_byte v := Encoding.type_byte v.quick
  head v := Encoding.head v.quick
  plain v := Encoding.plain v.quick
  calls v := v.quick.list.elems.flatten.mapIdx fun k x => .d_list k 0 x.val
  get_rdb_type_byte v := Encoding.get_rdb_type_byte v.quick
  type_ne_bad v := Encoding.type_ne_bad v.quick
  get_rdb_meta_byte v := Encoding.get_rdb_meta_byte v.quick
  of_value v c hc := by
    obtain ⟨k, hk, rfl⟩ := List.mem_mapIdx.mp hc
    rfl

/-- A sorted set none of whose members is compressed. -/
structure PlainZSet (E : Env) where
  zset : ZSet E
  plain : ∀ m ∈ zset.members, m.is_lzf = false

instance {E : Env} : Encoding E (PlainZSet E) where
  type v := v.zset.type
  type_byte v := v.zset.type_byte
  head v := v.zset.head
  plain v := v.zset.plain
  calls v := v.zset.calls
  get_rdb_type_byte v := Encoding.get_rdb_type_byte v.zset
  type_ne_bad v := Encoding.type_ne_bad v.zset
  get_rdb_meta_byte v := Encoding.get_rdb_meta_byte v.zset
  of_value v := Encoding.of_value v.zset

/-- Values of one kind or another. -/
instance {E : Env} {V W : Type} [Encoding E V] [Encoding E W] : Encoding E (V ⊕ W) where
  type v := v.elim Encoding.type Encoding.type
  type_byte v := v.elim Encoding.type_byte Encoding.type_byte
  head v := v.elim Encoding.head Encoding.head
  plain v := v.elim Encoding.plain Encoding.plain
  calls v := v.elim Encoding.calls Encoding.calls
  get_rdb_type_byte v := by
    cases v with
    | inl v => exact Encoding.get_rdb_type_byte v
    | inr v => exact Encoding.get_rdb_type_byte v
  type_ne_bad v := by
    cases v with
    | inl v => exact Encoding.type_ne_bad v
    | inr v => exact Encoding.type_ne_bad v
  get_rdb_meta_byte v := by
    cases v with
    | inl v => exact Encoding.get_rdb_meta_byte v
    | inr v => exact Encoding.get_rdb_meta_byte v
  of_value v := by
    cases v with
    | inl v => exact Encoding.of_value v
    | inr v => exact Encoding.of_value v

end format

end rdbparser
