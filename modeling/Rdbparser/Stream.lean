import Rdbparser.Body

namespace rdbparser

/-- An array of `RdbListValue`: NULL, a place in `tmp` or an allocated block. -/
inductive ArrPtr
  | null
  | tmp (i : Nat)
  | heap (id : Nat)
  deriving DecidableEq, Repr

def RDB_STREAM_ENTRY_DELETED : Nat := 1
def RDB_STREAM_ENTRY_SAMEFIELDS : Nat := 2

/-- sizeof( RdbListValue ) -/
def LIST_VALUE_SIZE : Nat := 40

/-- `tmp` and `heap` are the slots by index, `size` the bytes of each allocated block, and `freed`
the blocks given to `free` so far. Blocks are numbered in order of allocation. -/
structure RdbStreamEntry where
  num : Nat := 0
  cnt : Nat := 0
  id : RdbStreamRecId := ⟨0, 0⟩
  diff : RdbStreamRecId := ⟨0, 0⟩
  items_count : Nat := 0
  deleted_count : Nat := 0
  master_field_count : Nat := 0
  entry_field_count : Nat := 0
  flags : Nat := 0
  master : ArrPtr := .null
  fields : ArrPtr := .null
  values : ArrPtr := .null
  tmp : Nat → RdbListValue := fun _ => {}
  heap : Nat → Nat → RdbListValue := fun _ _ => {}
  size : Nat → Nat := fun _ => 0
  mallocs : Nat := 0
  freed : List Nat := []

namespace RdbStreamEntry

def TMP_SIZE : Nat := 64

/-- Free if necessary: what does not point into `tmp`, the place behind it included. -/
def release (e : RdbStreamEntry) (f : ArrPtr) : Option RdbStreamEntry :=
  match f with
  | .null => some e
  | .tmp i => if i < TMP_SIZE then some e else none
  | .heap id => if id ∈ e.freed then none else some { e with freed := id :: e.freed }

/-- `malloc( sz )`, assumed to succeed. -/
def malloc (e : RdbStreamEntry) (sz : Nat) : ArrPtr × RdbStreamEntry :=
  (.heap e.mallocs, { e with
    mallocs := e.mallocs + 1, size := fun id => if id = e.mallocs then sz else e.size id })

/-- The index `i` of an array is there to be used. -/
def inside (e : RdbStreamEntry) (p : ArrPtr) (i : Nat) : Bool :=
  match p with
  | .null => false
  | .tmp j => decide (j + i < TMP_SIZE)
  | .heap id => decide (id ∉ e.freed ∧ LIST_VALUE_SIZE * (i + 1) ≤ e.size id)

/-- `p[ i ]` -/
def load (e : RdbStreamEntry) (p : ArrPtr) (i : Nat) : Option RdbListValue :=
  if e.inside p i then
    match p with
    | .null => none
    | .tmp j => some (e.tmp (j + i))
    | .heap id => some (e.heap id i)
  else none

/-- `p[ i ] = lval` -/
def store (e : RdbStreamEntry) (p : ArrPtr) (i : Nat) (lval : RdbListValue) :
    Option RdbStreamEntry :=
  if e.inside p i then
    match p with
    | .null => none
    | .tmp j => some { e with tmp := fun k => if k = j + i then lval else e.tmp k }
    | .heap id => some { e with heap := fun b k => if b = id ∧ k = i then lval else e.heap b k }
  else none

/-- Read the master fields `i` and up. -/
def read_master (list : RdbListPack) : Nat → Nat → RdbStreamEntry → RdbListValue →
    Option (Bool × RdbStreamEntry × RdbListValue)
  | _, 0, e, lval => some (true, e, lval)
  | i, n + 1, e, lval =>
    match list.next lval with
    | (false, lval) => some (false, e, lval)
    | (true, lval) =>
      match e.store e.master i lval with
      | none => none
      | some e => read_master list (i + 1) n e lval

/-- The counts a block starts with. -/
def read_counts (e : RdbStreamEntry) (list : RdbListPack) : Bool × RdbStreamEntry × RdbListValue :=
  let (b1, lval) := list.first_ival
  let e := { e with items_count := lval.ival }
  let (b2, lval) := list.next_ival lval
  let e := { e with deleted_count := lval.ival }
  let (b3, lval) := list.next_ival lval
  let e := { e with master_field_count := lval.ival }
  (b1 && b2 && b3, e, lval)

/-- Find room for the master fields. -/
def place_master (e : RdbStreamEntry) : RdbStreamEntry :=
  if TMP_SIZE < e.master_field_count then
    let (p, e) := e.malloc (LIST_VALUE_SIZE * e.master_field_count % 2 ^ 64)
    { e with master := p }
  else { e with master := .tmp 0 }

/-- Header contains constants for the ListPack block, master fields. -/
def read_header (e : RdbStreamEntry) (list : RdbListPack) :
    Option (Bool × RdbStreamEntry × RdbListValue) :=
  match e.read_counts list with
  | (false, e, lval) => some (false, e, lval)
  | (true, e, lval) =>
    match read_master list 0 e.master_field_count e.place_master lval with
    | none => none
    | some (false, e, lval) => some (false, e, lval)
    | some (true, e, lval) =>
      -- skip the zero terminate
      let (b, lval) := list.next lval
      some (b, e, lval)

/-- The flags of an entry and the differences of its id. -/
def read_delta (e : RdbStreamEntry) (list : RdbListPack) (lval : RdbListValue) :
    Bool × RdbStreamEntry × RdbListValue :=
  let (b1, lval) := list.next_ival lval
  let e := { e with flags := lval.ival % 2 ^ 32 }
  let (b2, lval) := list.next_ival lval
  let e := { e with diff.ms := lval.ival }
  let (b3, lval) := list.next_ival lval
  let e := { e with diff.ser := lval.ival }
  (b1 && b2 && b3, e, lval)

/-- Whether the fields are the master fields. -/
def same_fields (e : RdbStreamEntry) : Bool := e.flags &&& RDB_STREAM_ENTRY_SAMEFIELDS ≠ 0

/-- The slots of `tmp` that the master fields leave: the first, and how many. -/
def room (e : RdbStreamEntry) : Nat × Nat :=
  if e.master = .tmp 0 then (e.master_field_count, sub64 TMP_SIZE e.master_field_count)
  else (0, TMP_SIZE)

/-- Release arrays one after the other. -/
def release_all (e : RdbStreamEntry) : List ArrPtr → Option RdbStreamEntry
  | [] => some e
  | p :: ps =>
    match e.release p with
    | none => none
    | some e => e.release_all ps

/-- If allocated, release: what the destructor does. -/
def destroy (e : RdbStreamEntry) : Option RdbStreamEntry := e.release_all [e.master, e.fields, e.values]

/-- The code that is returned from where the entry is destroyed. -/
def leave (e : RdbStreamEntry) (err : RdbErrCode) : RdbErrCode := if e.destroy.isSome then err else .undefined

theorem leave_of {B : RdbErrCode → Prop} (e : RdbStreamEntry) {err : RdbErrCode} (herr : B err)
    (hundefined : B .undefined) : B (e.leave err) := by
  rw [leave]
  split
  · exact herr
  · exact hundefined

/-- Release the fields and values of the entry before. -/
def clear (e : RdbStreamEntry) : Option RdbStreamEntry :=
  match e.release e.fields with
  | none => none
  | some e =>
    match e.release e.values with
    | none => none
    | some e => some { e with fields := .null, values := .null }

/-- The number of fields. -/
def read_field_count (e : RdbStreamEntry) (list : RdbListPack) (lval : RdbListValue) :
    Bool × RdbStreamEntry × RdbListValue :=
  if e.same_fields then (true, { e with entry_field_count := e.master_field_count }, lval)
  else
    let (b, lval) := list.next_ival lval
    (b, { e with entry_field_count := lval.ival }, lval)

/-- Find room for the fields: the master fields have it, and others take the slots of `tmp` from `fld`
on, of which there are `sz`, if these are enough. The slots left are given back. -/
def place_fields (e : RdbStreamEntry) (fld sz : Nat) : Nat × Nat × RdbStreamEntry :=
  if e.same_fields then (fld, sz, { e with fields := e.master })
  else if e.entry_field_count ≤ sz then
    (fld + e.entry_field_count, sz - e.entry_field_count, { e with fields := .tmp fld })
  else (fld, sz, e)

/-- Find room for the values, and allocate what has found none. -/
def place_values (e : RdbStreamEntry) (fld sz : Nat) : RdbStreamEntry :=
  let e := if e.entry_field_count ≤ sz then { e with values := .tmp fld } else e
  let bytes := LIST_VALUE_SIZE * e.entry_field_count % 2 ^ 64
  let e := if e.fields = .null then { (e.malloc bytes).2 with fields := (e.malloc bytes).1 } else e
  if e.values = .null then { (e.malloc bytes).2 with values := (e.malloc bytes).1 } else e

/-- Read the fields and the values `i` and up; goes on after an element that is not there. -/
def read_pairs (list : RdbListPack) : Nat → Nat → Bool → RdbStreamEntry → RdbListValue →
    Option (Bool × RdbStreamEntry × RdbListValue)
  | _, 0, b, e, lval => some (b, e, lval)
  | i, n + 1, b, e, lval =>
    if e.same_fields then
      let (b2, lval) := list.next lval
      match e.store e.values i lval with
      | none => none
      | some e => read_pairs list (i + 1) n (b && b2) e lval
    else
      let (b1, lval) := list.next lval
      match e.store e.fields i lval with
      | none => none
      | some e =>
        let (b2, lval) := list.next lval
        match e.store e.values i lval with
        | none => none
        | some e => read_pairs list (i + 1) n (b && b1 && b2) e lval

/-- The fields and values of an entry, and the back count, which has to be right. -/
def read_fields (e : RdbStreamEntry) (list : RdbListPack) (lval : RdbListValue) :
    Option (Bool × RdbStreamEntry × RdbListValue) :=
  let n := e.entry_field_count
  match read_pairs list 0 n true e lval with
  | none => none
  | some (b, e, lval) =>
    let cnt := (if e.same_fields then 3 + n else 4 + n + n) % 2 ^ 64
    let (b1, lval) := list.next lval
    some (b && b1 && decide (lval.ival = cnt), e, lval)

/-- Entry contains deltas for the next field value list. -/
def read_entry (e : RdbStreamEntry) (list : RdbListPack) (lval : RdbListValue) :
    Option (Bool × RdbStreamEntry × RdbListValue) :=
  match e.read_delta list lval with
  | (false, e, lval) => some (false, e, lval)
  | (true, e, lval) =>
    match e.clear with
    | none => none
    | some e =>
      match e.read_field_count list lval with
      | (false, e, lval) => some (false, e, lval)
      | (true, e, lval) =>
        let (fld, sz, e) := e.place_fields e.room.1 e.room.2
        (e.place_values fld sz).read_fields list lval

/-- The fields and values as the callback finds them. -/
def pairs (e : RdbStreamEntry) (base : Ptr) : Option (List (RdbVal × RdbVal)) :=
  (List.range e.entry_field_count).mapM fun i =>
    match e.load e.fields i, e.load e.values i with
    | some field, some val =>
      some ((RdbDecode.decode_lval base field).val, (RdbDecode.decode_lval base val).val)
    | _, _ => none

end RdbStreamEntry

namespace RdbDecode

open DecodeProc

/-- A stream id of 128 bits, big endian. -/
def rec_id (b : Ptr) : RdbStreamRecId := ⟨be_nat (b.mem.take 8), be_nat ((b.mem.add 8).take 8)⟩

/-- Hand out an entry. -/
def stream_entry (e : RdbStreamEntry) (base : Ptr) : DecodeProc Unit := do
  if e.num = 0 then call (.d_stream_start .STREAM_ENTRY_LIST)
  match e.pairs base with
  | none => Proc.ret .undefined
  | some pairs => call (.d_stream_entry e.num e.cnt e.id e.diff e.flags pairs)

/-- The entries that follow the header of a listpack, `n` of them; deleted ones are skipped. -/
def stream_entries (list : RdbListPack) :
    Nat → RdbStreamEntry → RdbListValue → DecodeProc RdbStreamEntry
  | 0, e, _ => pure e
  | n + 1, e, lval =>
    match e.read_entry list lval with
    | none => Proc.ret .undefined
    | some (false, e, _) => Proc.ret (e.leave .RDB_ERR_TRUNC)
    | some (true, e, lval) =>
      if e.flags &&& RDB_STREAM_ENTRY_DELETED = 0 then do
        stream_entry e list.base
        stream_entries list n { e with num := e.num + 1 } lval
      else stream_entries list n e lval

/-- The key of a node and its list pack. -/
def stream_lp (E : Env) : DecodeProc (RdbStreamRecId × Ptr × Nat) := do
  let k ← decode {}
  let key ← consume E k
  let lp ← decode {}
  let b ← consume E lp
  pure (rec_id key, b, lp.len)

/-- A header and the entries that follow it. -/
def stream_block (e : RdbStreamEntry) (r : RdbStreamRecId × Ptr × Nat) : DecodeProc RdbStreamEntry :=
  match RdbListPack.init r.2.1 r.2.2 with
  | none => pure { e with id := r.1 }
  | some list =>
    match RdbStreamEntry.read_header { e with id := r.1 } list with
    | none => Proc.ret .undefined
    | some (false, e, _) => Proc.ret (e.leave .RDB_ERR_HDR)
    | some (true, e, lval) => stream_entries list e.items_count e lval

/-- One node of a stream. The entry is destroyed where one cannot be read, here and in what follows. -/
def stream_node (E : Env) (e : RdbStreamEntry) : DecodeProc RdbStreamEntry := do
  let r ← Proc.recode e.leave (stream_lp E)
  stream_block e r

/-- The info about the stream that follows its nodes. -/
def stream_info (type : RdbType) : DecodeProc (Nat × RdbStreamRecId × Nat) := do
  let num_elems ← decode {}
  let last_ms ← decode {}
  let last_ser ← decode {}
  let num_elems ← if type = .RDB_STREAM_LISTPACKS_2 then do
      let _first_ms ← decode {}
      let _first_ser ← decode {}
      let _max_del_ms ← decode {}
      let _max_del_ser ← decode {}
      decode num_elems
    else pure num_elems
  let num_cgroups ← decode {}
  pure (num_elems.len, ⟨last_ms.len, last_ser.len⟩, num_cgroups.len)

/-- A name as it is stored. -/
def stream_text (E : Env) : DecodeProc RdbVal := do
  let name ← decode {}
  let b ← consume E name
  pure (.str (b.mem.take name.len))

/-- What is returned where a name cannot be read, whatever the reason. -/
def name_code (err : RdbErrCode) : RdbErrCode := if err = .undefined then err else .RDB_OK

/-- The name of a group or consumer. -/
def stream_name (E : Env) : DecodeProc RdbVal := Proc.recode name_code (stream_text E)

def stream_pend (cnt num : Nat) : DecodeProc Unit := do
  let b ← incr (128 / 8)
  let id := rec_id b
  let b ← incr 8
  let deliv ← decode {}
  call (.d_stream_pend num cnt id (le_nat (b.mem.take 8)) deliv.len)

def stream_cons_pend (cnt num : Nat) : DecodeProc Unit := do
  let b ← incr (128 / 8)
  call (.d_stream_cons_pend num cnt (rec_id b))

/-- A list of `cnt` parts; nothing is started or ended for an empty one. -/
def stream_list (part : StreamPart) (cnt : Nat) (elem : Nat → DecodeProc Unit) :
    DecodeProc Unit := do
  if cnt ≠ 0 then call (.d_stream_start part)
  Proc.count elem 0 cnt
  if cnt ≠ 0 then call (.d_stream_end part)

def stream_cons (E : Env) (cnt num : Nat) : DecodeProc Unit := do
  let cname ← stream_name E
  let b ← incr 8
  let cpend ← decode {}
  call (.d_stream_cons num cnt cname cpend.len (le_nat (b.mem.take 8)))
  stream_list .STREAM_CONSUMER_PENDING_LIST cpend.len (stream_cons_pend cpend.len)
  call (.d_stream_end .STREAM_CONSUMER)

/-- One group; `group_off` is shared by all of them. -/
def stream_group (E : Env) (type : RdbType) (cnt : Nat) :
    Nat × RdbLength → DecodeProc (Nat × RdbLength)
  | (num, group_off) => do
    let gname ← stream_name E
    let last_ms ← decode {}
    let last_ser ← decode {}
    let group_off ← if type = .RDB_STREAM_LISTPACKS_2 then decode group_off else pure group_off
    let pend_cnt ← decode {}
    call (.d_stream_group num cnt gname pend_cnt.len ⟨last_ms.len, last_ser.len⟩)
    stream_list .STREAM_PENDING_LIST pend_cnt.len (stream_pend pend_cnt.len)
    let cons_cnt ← decode {}
    stream_list .STREAM_CONSUMER_LIST cons_cnt.len (stream_cons E cons_cnt.len)
    call (.d_stream_end .STREAM_GROUP)
    pure (num + 1, group_off)

/-- What follows the nodes of a stream, up to the end of the key. -/
def stream_trailer (E : Env) (type : RdbType) (entry_cnt : Nat) : DecodeProc Unit := do
  if entry_cnt ≠ 0 then call (.d_stream_end .STREAM_ENTRY_LIST)
  let (num_elems, last, num_cgroups) ← stream_info type
  call (.d_stream_info last num_elems num_cgroups entry_cnt)
  if num_cgroups ≠ 0 then call (.d_stream_start .STREAM_GROUP_LIST)
  let _ ← Proc.times num_cgroups (stream_group E type num_cgroups) (0, {})
  if num_cgroups ≠ 0 then call (.d_stream_end .STREAM_GROUP_LIST)

/-- The nodes of a stream, one after the other. -/
def stream_nodes (E : Env) : DecodeProc RdbStreamEntry := do
  start_key
  let s ← Proc.read
  Proc.times s.dec.rlen.len (stream_node E) {}

/-- A stream up to the end of its key, with the entry that is left. -/
def stream_parts (E : Env) : DecodeProc RdbStreamEntry := do
  let e ← stream_nodes E
  let s ← Proc.read
  Proc.recode e.leave do
    stream_trailer E s.dec.type e.num
    end_key
  pure e

/-- The scope of the entry, at whose end it is destroyed. -/
def stream_scope (E : Env) : DecodeProc Unit := do
  let e ← stream_parts E
  if e.destroy.isSome then pure () else Proc.ret .undefined

def decode_stream (E : Env) : DecodeProc Unit := Proc.accept .RDB_OK (stream_scope E)

theorem stream_scope_run {E : Env} {s t : St} {e : RdbStreamEntry} {o : List Event}
    (h : stream_parts E s = ⟨.ok e, t, o⟩) :
    stream_scope E s = ⟨if e.destroy.isSome then .ok () else .error .undefined, t, o⟩ := by
  rw [← List.append_nil o]
  refine Proc.bind_ok h ?_
  split <;> rfl

/-- How a stream ends depends on how its parts do, and on nothing that they put out. -/
theorem decode_stream_res_congr {E : Env} {s s' : St} (h : (stream_parts E s).res = (stream_parts E s').res) :
    (decode_stream E s).res = (decode_stream E s').res := by
  refine Proc.accept_res_congr _ ?_
  rcases hs : stream_parts E s with ⟨err | e, t, o⟩ <;> rcases hs' : stream_parts E s' with ⟨err' | e', t', o'⟩ <;>
    rw [hs, hs'] at h
  · obtain rfl := Except.error.inj h
    rw [stream_scope, Proc.bind_error hs, Proc.bind_error hs']
  · cases h
  · cases h
  · obtain rfl := Except.ok.inj h
    rw [stream_scope_run hs, stream_scope_run hs']

/-- What is put out is put out by the parts. -/
theorem decode_stream_out {E : Env} (s : St) : (decode_stream E s).out = (stream_parts E s).out := by
  rw [decode_stream, Proc.accept_out]
  rcases hparts : stream_parts E s with ⟨err | e, t, o⟩
  · rw [stream_scope, Proc.bind_error hparts]
  · rw [stream_scope_run hparts]

/-- The decoder of a type. -/
def decode_type (E : Env) : RdbType → DecodeProc Unit
  | .RDB_STRING => decode_string
  | .RDB_HASH => decode_elems (decode_hash_elem E)
  | .RDB_HASH_ZIPMAP => decode_hash_zipmap
  | .RDB_SET => decode_elems (decode_set_elem E)
  | .RDB_LIST => decode_elems (decode_list_elem E)
  | .RDB_SET_INTSET => decode_set_intset
  | .RDB_HASH_ZIPLIST | .RDB_ZSET_ZIPLIST | .RDB_LIST_ZIPLIST => decode_ziplist
  | .RDB_LIST_QUICKLIST => decode_quicklist E
  | .RDB_ZSET | .RDB_ZSET_2 => decode_zset E
  | .RDB_STREAM_LISTPACK => decode_stream E
  | .RDB_HASH_LISTPACK => decode_listpack
  | .RDB_ZSET_LISTPACK => decode_listpack
  | .RDB_LIST_QUICKLIST_2 => decode_quicklist_2 E
  | .RDB_STREAM_LISTPACKS_2 => decode_stream E
  | .RDB_MODULE_2 | .RDB_MODULE => decode_module
  | .RDB_BAD_TYPE => Proc.ret .RDB_ERR_NOTSUP

/-- Decode the structures based on the type. -/
def decode_body (E : Env) : DecodeProc Unit := do
  let s ← Proc.read
  decode_type E s.dec.type

end RdbDecode

end rdbparser
