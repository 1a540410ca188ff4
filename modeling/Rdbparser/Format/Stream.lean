import Rdbparser.Format.Record

namespace rdbparser.format

/-- A stream id: two big endian numbers of 64 bits. -/
structure StreamId where
  id : RdbStreamRecId
  hms : id.ms < 2 ^ 64
  hser : id.ser < 2 ^ 64

def StreamId.bytes (x : StreamId) : List UInt8 := be_bytes 8 x.id.ms ++ be_bytes 8 x.id.ser

/-- A string that is not stored as an integer. -/
structure Blob (E : Env) where
  str : StoredStr E
  not_int : str.is_int = false

/-- A list of parts as it is handed out, between its start and its end if there are any. -/
def listed (part : StreamPart) (cnt : Nat) (calls : List Callback) : List Callback :=
  if cnt = 0 then [] else .d_stream_start part :: (calls ++ [.d_stream_end part])

/-- A pending entry of a group: its id, a little endian time and a count. -/
structure StreamPend where
  id : StreamId
  last_delivery : Nat
  hlast : last_delivery < 2 ^ 64
  delivery_cnt : StoredLen

def StreamPend.bytes (p : StreamPend) : List UInt8 :=
  p.id.bytes ++ (le_bytes 8 p.last_delivery ++ p.delivery_cnt.bytes)

def StreamPend.call (cnt num : Nat) (p : StreamPend) : Callback :=
  .d_stream_pend num cnt p.id.id p.last_delivery p.delivery_cnt.val

/-- A consumer: its name, a little endian time and the ids that are pending. -/
structure StreamCons (E : Env) where
  name : Blob E
  last_seen : Nat
  hseen : last_seen < 2 ^ 64
  pend_cnt : StoredLen
  pending : List StreamId
  hpend : pend_cnt.val = pending.length

variable {E : Env}

def StreamCons.bytes (c : StreamCons E) : List UInt8 :=
  c.name.str.bytes ++ (le_bytes 8 c.last_seen ++ (c.pend_cnt.bytes ++ c.pending.flatMap StreamId.bytes))

def StreamCons.calls (cnt num : Nat) (c : StreamCons E) : List Callback :=
  .d_stream_cons num cnt c.name.str.val c.pend_cnt.val c.last_seen ::
    (listed .STREAM_CONSUMER_PENDING_LIST c.pend_cnt.val
      (c.pending.mapIdx fun i x => .d_stream_cons_pend i c.pend_cnt.val x.id) ++
      [.d_stream_end .STREAM_CONSUMER])

/-- A group: its name, its last id, what it has pending and its consumers. The number of entries it has
read is stored in the second layout only. -/
structure StreamGroup (E : Env) where
  name : Blob E
  last_ms : StoredLen
  last_ser : StoredLen
  entries_read : StoredLen
  pend_cnt : StoredLen
  pending : List StreamPend
  hpend : pend_cnt.val = pending.length
  cons_cnt : StoredLen
  consumers : List (StreamCons E)
  hcons : cons_cnt.val = consumers.length

def StreamGroup.bytes (type : RdbType) (g : StreamGroup E) : List UInt8 :=
  g.name.str.bytes ++ (g.last_ms.bytes ++ (g.last_ser.bytes ++
    ((if type = .RDB_STREAM_LISTPACKS_2 then g.entries_read.bytes else []) ++
      (g.pend_cnt.bytes ++ (g.pending.flatMap StreamPend.bytes ++
        (g.cons_cnt.bytes ++ g.consumers.flatMap StreamCons.bytes))))))

def StreamGroup.calls (cnt num : Nat) (g : StreamGroup E) : List Callback :=
  .d_stream_group num cnt g.name.str.val g.pend_cnt.val ⟨g.last_ms.val, g.last_ser.val⟩ ::
    (listed .STREAM_PENDING_LIST g.pend_cnt.val (g.pending.mapIdx (StreamPend.call g.pend_cnt.val)) ++
      (listed .STREAM_CONSUMER_LIST g.cons_cnt.val
        (g.consumers.mapIdx (StreamCons.calls g.cons_cnt.val)).flatten ++ [.d_stream_end .STREAM_GROUP]))

/-- What the second layout has between the last id and the groups: the first id, the largest id that was
deleted and the number of entries ever added. -/
structure StreamMore where
  first_ms : StoredLen
  first_ser : StoredLen
  max_del_ms : StoredLen
  max_del_ser : StoredLen
  entries_added : StoredLen

def StreamMore.bytes (m : StreamMore) : List UInt8 :=
  m.first_ms.bytes ++ (m.first_ser.bytes ++ (m.max_del_ms.bytes ++ (m.max_del_ser.bytes ++
    m.entries_added.bytes)))

/-- What follows the nodes of a stream, in either layout. -/
structure StreamTrailer (E : Env) where
  elems : StoredLen
  last_ms : StoredLen
  last_ser : StoredLen
  more : Option StreamMore
  group_cnt : StoredLen
  groups : List (StreamGroup E)
  hgroups : group_cnt.val = groups.length

namespace StreamTrailer

def type (t : StreamTrailer E) : RdbType :=
  match t.more with
  | none => .RDB_STREAM_LISTPACK
  | some _ => .RDB_STREAM_LISTPACKS_2

def more_bytes (t : StreamTrailer E) : List UInt8 :=
  match t.more with
  | none => []
  | some m => m.bytes

def bytes (t : StreamTrailer E) : List UInt8 :=
  t.elems.bytes ++ (t.last_ms.bytes ++ (t.last_ser.bytes ++ (t.more_bytes ++
    (t.group_cnt.bytes ++ t.groups.flatMap (StreamGroup.bytes t.type)))))

/-- The callbacks behind `entry_cnt` entries when `num_elems` is given for the number of elements. -/
def calls_of (entry_cnt num_elems : Nat) (t : StreamTrailer E) : List Callback :=
  (if entry_cnt ≠ 0 then [.d_stream_end .STREAM_ENTRY_LIST] else []) ++
    .d_stream_info ⟨t.last_ms.val, t.last_ser.val⟩ num_elems t.group_cnt.val entry_cnt ::
      (listed .STREAM_GROUP_LIST t.group_cnt.val
        (t.groups.mapIdx (StreamGroup.calls t.group_cnt.val)).flatten ++ [.d_end_key t.type])

/-- The callbacks that hand out what is stored. -/
def calls (entry_cnt : Nat) (t : StreamTrailer E) : List Callback := t.calls_of entry_cnt t.elems.val

/-- The count that is read last, which is the one handed out. -/
def last_count (t : StreamTrailer E) : Nat :=
  match t.more with
  | none => t.elems.val
  | some m => m.entries_added.val

/-- The names of the consumers. -/
def consumer_names (t : StreamTrailer E) : List (StoredStr E) :=
  t.groups.flatMap fun g => g.consumers.map fun c => c.name.str

end StreamTrailer

end rdbparser.format
