import Rdbparser.Json.Values

/-! What the callbacks say, as a JSON value. -/

namespace rdbparser

open JsonText JsonString

/-- The types whose value is an array. -/
def RdbType.in_arr : RdbType → Bool
  | .RDB_LIST | .RDB_LIST_ZIPLIST | .RDB_LIST_QUICKLIST | .RDB_LIST_QUICKLIST_2 | .RDB_SET | .RDB_SET_INTSET => true
  | _ => false

/-- The types whose value is text. -/
def RdbType.in_text : RdbType → Bool
  | .RDB_STRING | .RDB_MODULE | .RDB_MODULE_2 => true
  | _ => false

/-- The name of a key that has none. -/
def RdbType.type_name (type : RdbType) : List UInt8 := ((JsonOutput.key_fmt type).map Prod.snd).getD []

/-- The name of a list of a stream. -/
def StreamPart.list_name : StreamPart → List UInt8
  | .STREAM_ENTRY_LIST => ascii "entries"
  | .STREAM_GROUP_LIST => ascii "groups"
  | .STREAM_CONSUMER_LIST => ascii "consumers"
  | _ => ascii "pel"

def RdbStreamRecId.json (id : RdbStreamRecId) : Json := .str (rec_id_text id.ms id.ser)

namespace RdbVal

/-- The bytes of a string. -/
def bytes : RdbVal → List UInt8
  | .str s => s
  | _ => []

/-- A string that `printf` puts out as it is. -/
def PlainStr : RdbVal → Prop
  | .str s => s.length < 2 ^ 31 ∧ ∀ b ∈ s, plain b = true
  | _ => False

/-- A field or value of a stream entry that is put out as it is. -/
def PlainVal : RdbVal → Prop
  | .int _ => True
  | v => v.PlainStr

/-- The name of a field of a stream entry. -/
def field_name : RdbVal → List UInt8
  | .int i => int_text i
  | v => v.bytes

/-- A value of a stream entry. -/
def lval_json : RdbVal → Json
  | .int i => .num (int_text i)
  | v => .str v.bytes

end RdbVal

variable (fmt : Nat → List UInt8)

/-- What a callback says, at a place in a document. -/
def Callback.put (show_meta : Bool) (c : Callback) (p : Pos) : Option Pos :=
  match c with
  | .d_idle i => shown (p.member (ascii "idle") (.num (decimal i)))
  | .d_freq f => shown (p.member (ascii "freq") (.num (decimal f)))
  | .d_aux var val => shown (p.member var.name (val.json fmt))
  | .d_dbresize x y => shown (p.member (ascii "dbresize") (.arr [.num (decimal x), .num (decimal y)]))
  | .d_expired_ms ms => shown (p.member (ascii "expire_ms") (.num (decimal ms)))
  | .d_expired sec => shown (p.member (ascii "expire") (.num (decimal sec)))
  | .d_dbselect db => shown (p.member (ascii "dbselect") (.num (decimal db)))
  | .d_start_type _ => some p
  | .d_start_key type key => do
    let p ← p.next_member (key.key_name fmt type.type_name)
    if type.in_text then some p else if type.in_arr then p.open_arr else p.open_obj
  | .d_end_key type => if type.in_text then some p else p.close
  | .d_string v | .d_module v => p.value (v.json fmt)
  | .d_hash _ _ name v | .d_zset _ _ name v => p.member name.name (v.json fmt)
  | .d_list _ _ v | .d_set _ _ v => p.elem (v.json fmt)
  | .d_stream_start c => do (← p.next_member c.list_name).open_arr
  | .d_stream_end _ => p.close
  | .d_stream_entry _ _ id diff _ fields =>
    p.elem (.obj ((ascii "id", RdbStreamRecId.json ⟨(id.ms + diff.ms) % 2 ^ 64, (id.ser + diff.ser) % 2 ^ 64⟩) ::
      fields.map fun (f, v) => (f.field_name, v.lval_json)))
  | .d_stream_info last num_elems num_cgroups _ => do
    let p ← p.member (ascii "last_id") last.json
    let p ← p.member (ascii "num_elems") (.num (decimal num_elems))
    p.member (ascii "num_cgroups") (.num (decimal num_cgroups))
  | .d_stream_group _ _ gname pending_cnt last => do
    let p ← (← p.next_elem).open_obj
    let p ← p.member (ascii "group") (.str gname.bytes)
    let p ← p.member (ascii "pending") (.num (decimal pending_cnt))
    p.member (ascii "last_id") last.json
  | .d_stream_pend _ _ id last_delivery delivery_cnt =>
    p.elem (.obj [(ascii "id", id.json), (ascii "last_d", .num (decimal last_delivery)),
      (ascii "d_cnt", .num (decimal delivery_cnt))])
  | .d_stream_cons _ _ cname pend_cnt last_seen => do
    let p ← (← p.next_elem).open_obj
    let p ← p.member (ascii "name") (.str cname.bytes)
    let p ← p.member (ascii "pending") (.num (decimal pend_cnt))
    p.member (ascii "last_seen") (.num (decimal last_seen))
  | .d_stream_cons_pend _ _ id => p.elem id.json
where
  /-- Meta fields are shown when they are asked for. -/
  shown (q : Option Pos) : Option Pos := if show_meta then q else some p

/-- What callbacks one after the other say. -/
def Callback.puts (show_meta : Bool) (calls : List Callback) (p : Pos) : Option Pos :=
  calls.foldlM (fun p c => c.put fmt show_meta p) p

/-- What is printed of a callback is JSON. -/
def Callback.Writable (show_meta : Bool) : Callback → Prop
  | .d_aux var val => show_meta = true → var.NameWritable ∧ val.Writable fmt
  | .d_start_key _ key => key.KeyWritable fmt
  | .d_string v | .d_module v | .d_list _ _ v | .d_set _ _ v => v.Writable fmt
  | .d_hash _ _ name v | .d_zset _ _ name v => name.NameWritable ∧ v.Writable fmt
  | .d_stream_entry _ _ _ _ _ fields => fields ≠ [] ∧ ∀ f ∈ fields, f.1.PlainVal ∧ f.2.PlainVal
  | .d_stream_group _ _ name _ _ | .d_stream_cons _ _ name _ _ => name.PlainStr
  | _ => True

end rdbparser
