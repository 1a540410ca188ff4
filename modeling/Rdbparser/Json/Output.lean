import Rdbparser.Json
import Rdbparser.Main

namespace rdbparser

/-- The bytes of a string constant. -/
def ascii (s : String) : List UInt8 := s.toList.map fun c => UInt8.ofNat c.toNat

/-- `print_s` on what a callback is given. -/
def RdbVal.print_s (fmt : Nat → List UInt8) (v : RdbVal) (use_quotes : Bool) : Option (List UInt8) :=
  match v with
  | .nil => some nil_text
  | .int i => some (int_text i)
  | .str s => (print_str s use_quotes).map List.flatten
  | .dbl n => some (fmt n)

/-- `printf( "%.*s", (int) len, s )`: the bytes in front of a zero, and at most as many as the precision says; a
negative one says nothing, and what is behind `s` is not known here. -/
def printf_s (s : List UInt8) : Option (List UInt8) :=
  let precision := sext 32 s.length
  if precision < 0 then (if 0 ∈ s then some (s.takeWhile (· ≠ 0)) else none)
  else some ((s.take precision.toNat).takeWhile (· ≠ 0))

/-- `d_cnt` tracks when a comma is needed, and `show_meta` says whether meta fields are shown. -/
structure JsonOutput where
  d_cnt : Nat := 0
  show_meta : Bool := false

/-- What is printed in front of a member, and the count with it. -/
def comma_nl (cnt : Nat) : List UInt8 × Nat := (if cnt ≠ 0 then ascii ",\n" else [], cnt + 1)

def tab (test : Bool) (s : List UInt8) (n : Nat) : List UInt8 :=
  (if test then s else []) ++ (List.replicate n (ascii "  ")).flatten

/-- `"%" PRIu64 "-%" PRIu64`. -/
def rec_id_text (ms ser : Nat) : List UInt8 := decimal ms ++ ascii "-" ++ decimal ser

namespace JsonOutput

/-- A meta field. -/
def d_meta (j : JsonOutput) (text : Option (List UInt8)) : Option (List UInt8 × JsonOutput) :=
  if ¬ j.show_meta then some ([], j)
  else
    let (comma, d_cnt) := comma_nl j.d_cnt
    text.map fun t => (comma ++ t, { j with d_cnt := d_cnt })

def d_idle (j : JsonOutput) (i : Nat) := j.d_meta (some (ascii "\"idle\" : " ++ decimal i))
def d_freq (j : JsonOutput) (f : Nat) := j.d_meta (some (ascii "\"freq\" : " ++ decimal f))

def d_aux (fmt : Nat → List UInt8) (j : JsonOutput) (var val : RdbVal) :=
  j.d_meta do
    let name ← var.print_s fmt true
    let text ← val.print_s fmt true
    pure (name ++ ascii " : " ++ text)

def d_dbresize (j : JsonOutput) (x y : Nat) :=
  j.d_meta (some (ascii "\"dbresize\" : [" ++ decimal x ++ ascii ", " ++ decimal y ++ ascii "]"))

def d_expired_ms (j : JsonOutput) (ms : Nat) := j.d_meta (some (ascii "\"expire_ms\" : " ++ decimal ms))
def d_expired (j : JsonOutput) (sec : Nat) := j.d_meta (some (ascii "\"expire\" : " ++ decimal sec))
def d_dbselect (j : JsonOutput) (db : Nat) := j.d_meta (some (ascii "\"dbselect\" : " ++ decimal db))

def d_init : List UInt8 := ascii "\x7b\n"

def d_finish (success : Bool) : List UInt8 := if success then ascii "\n\x7d\n" else ascii "\n"

/-- The text behind the name of a key, and the name of one that has none. -/
def key_fmt : RdbType → Option (List UInt8 × List UInt8)
  | .RDB_STRING => some (ascii " : ", ascii "string")
  | .RDB_LIST | .RDB_LIST_ZIPLIST | .RDB_LIST_QUICKLIST | .RDB_LIST_QUICKLIST_2 => some (ascii " : [\n", ascii "list")
  | .RDB_SET | .RDB_SET_INTSET => some (ascii " : [\n", ascii "set")
  | .RDB_ZSET | .RDB_ZSET_2 | .RDB_ZSET_ZIPLIST | .RDB_ZSET_LISTPACK => some (ascii " : \x7b\n", ascii "zset")
  | .RDB_HASH | .RDB_HASH_ZIPMAP | .RDB_HASH_ZIPLIST | .RDB_HASH_LISTPACK => some (ascii " : \x7b\n", ascii "hash")
  | .RDB_STREAM_LISTPACK | .RDB_STREAM_LISTPACKS_2 => some (ascii " : \x7b\n", ascii "stream")
  | .RDB_MODULE_2 | .RDB_MODULE => some (ascii " : ", ascii "module")
  | .RDB_BAD_TYPE => none

/-- The name of a key in front of its value: quotes are put around what `print_s` does not quote. -/
def key_name (fmt : Nat → List UInt8) (typ : List UInt8) (key : RdbVal) : Option (List UInt8) :=
  match key with
  | .nil => some (ascii "\"" ++ typ ++ ascii "\"")
  | .str s => (RdbVal.str s).print_s fmt true
  | key => (key.print_s fmt true).map fun t => ascii "\"" ++ t ++ ascii "\""

def d_start_key (fmt : Nat → List UInt8) (j : JsonOutput) (type : RdbType) (key : RdbVal) :
    Option (List UInt8 × JsonOutput) :=
  match key_fmt type with
  | none => some ([], j)
  | some (f, typ) =>
    let (comma, d_cnt) := comma_nl j.d_cnt
    (key_name fmt typ key).map fun name => (comma ++ name ++ f, { j with d_cnt := d_cnt })

def d_end_key : RdbType → List UInt8
  | .RDB_STRING | .RDB_MODULE_2 | .RDB_MODULE => []
  | .RDB_LIST | .RDB_LIST_ZIPLIST | .RDB_LIST_QUICKLIST | .RDB_LIST_QUICKLIST_2 => ascii "\n]"
  | .RDB_SET | .RDB_SET_INTSET => ascii "\n]"
  | .RDB_ZSET | .RDB_ZSET_2 | .RDB_ZSET_ZIPLIST | .RDB_ZSET_LISTPACK => ascii "\n\x7d"
  | .RDB_HASH | .RDB_HASH_ZIPMAP | .RDB_HASH_ZIPLIST | .RDB_HASH_LISTPACK => ascii "\n\x7d"
  | .RDB_STREAM_LISTPACK | .RDB_STREAM_LISTPACKS_2 => ascii "\n\x7d"
  | .RDB_BAD_TYPE => []

/-- An element of a list or set. -/
def d_elem (fmt : Nat → List UInt8) (num : Nat) (val : RdbVal) : Option (List UInt8) := do
  let text ← val.print_s fmt true
  pure (tab (num ≠ 0) (ascii ",\n") 1 ++ text)

/-- A field and its value, or a member and its score. -/
def d_pair (fmt : Nat → List UInt8) (num : Nat) (field val : RdbVal) : Option (List UInt8) := do
  let name ← field.print_s fmt true
  let text ← val.print_s fmt true
  pure (tab (num ≠ 0) (ascii ",\n") 1 ++ name ++ ascii " : " ++ text)

def d_list (fmt : Nat → List UInt8) (num : Nat) (val : RdbVal) := d_elem fmt num val
def d_set (fmt : Nat → List UInt8) (num : Nat) (member : RdbVal) := d_elem fmt num member
def d_hash (fmt : Nat → List UInt8) (num : Nat) (field val : RdbVal) := d_pair fmt num field val
def d_zset (fmt : Nat → List UInt8) (num : Nat) (member score : RdbVal) := d_pair fmt num member score

/-- A field or a value of a stream entry: what has data is a string. -/
def lval_text : RdbVal → Option (List UInt8)
  | .str s => (printf_s s).map fun t => ascii "\"" ++ t ++ ascii "\""
  | .int i => some (int_text i)
  | _ => none

/-- The name of a field, quoted in either case. -/
def field_text : RdbVal → Option (List UInt8)
  | .int i => some (ascii "\"" ++ int_text i ++ ascii "\"")
  | f => lval_text f

/-- The fields of an entry, from the number `i` on. -/
def fields_text : Nat → List (RdbVal × RdbVal) → Option (List UInt8)
  | _, [] => some []
  | i, (f, v) :: fields => do
    let name ← field_text f
    let text ← lval_text v
    let rest ← fields_text (i + 1) fields
    pure ((if 0 < i then ascii ", " else []) ++ name ++ ascii " : " ++ text ++ rest)

def d_stream_entry (num : Nat) (id diff : RdbStreamRecId) (fields : List (RdbVal × RdbVal)) :
    Option (List UInt8) := do
  let text ← fields_text 0 fields
  pure (tab (num ≠ 0) (ascii ",\n") 2 ++ ascii "\x7b \"id\" : \"" ++
    rec_id_text ((id.ms + diff.ms) % 2 ^ 64) ((id.ser + diff.ser) % 2 ^ 64) ++ ascii "\", " ++ text ++ ascii " \x7d")

def d_stream_info (last : RdbStreamRecId) (num_elems num_cgroups : Nat) : List UInt8 :=
  ascii "  \"last_id\" : \"" ++ rec_id_text last.ms last.ser ++ ascii "\",\n" ++
    ascii "  \"num_elems\" : " ++ decimal num_elems ++ ascii ",\n" ++
    ascii "  \"num_cgroups\" : " ++ decimal num_cgroups

def d_stream_start : StreamPart → List UInt8
  | .STREAM_ENTRY_LIST => tab false [] 1 ++ ascii "\"entries\" : [\n"
  | .STREAM_GROUP_LIST => ascii ",\n" ++ tab false [] 1 ++ ascii "\"groups\" : [\n"
  | .STREAM_PENDING_LIST => ascii ",\n" ++ tab false [] 2 ++ ascii "\"pel\" : [\n"
  | .STREAM_CONSUMER_LIST => ascii ",\n" ++ tab false [] 3 ++ ascii "\"consumers\" : [\n"
  | .STREAM_CONSUMER_PENDING_LIST => ascii ",\n" ++ tab false [] 4 ++ ascii "\"pel\" : [\n"
  | .STREAM_CONSUMER | .STREAM_GROUP => [] -- these have record data

def d_stream_end : StreamPart → List UInt8
  | .STREAM_ENTRY_LIST => ascii " ],\n"
  | .STREAM_GROUP_LIST | .STREAM_PENDING_LIST | .STREAM_CONSUMER_LIST | .STREAM_CONSUMER_PENDING_LIST => ascii " ]"
  | .STREAM_CONSUMER | .STREAM_GROUP => ascii " \x7d"

/-- The name of a group or consumer. -/
def name_text : RdbVal → Option (List UInt8)
  | .str s => printf_s s
  | _ => none

def d_stream_group (num : Nat) (gname : RdbVal) (pending_cnt : Nat) (last : RdbStreamRecId) :
    Option (List UInt8) := do
  let name ← name_text gname
  pure (tab (num ≠ 0) (ascii ",\n") 2 ++ ascii "\x7b \"group\" : \"" ++ name ++ ascii "\"," ++
    ascii " \"pending\" : " ++ decimal pending_cnt ++ ascii "," ++
    ascii " \"last_id\" : \"" ++ rec_id_text last.ms last.ser ++ ascii "\"")

def d_stream_pend (num : Nat) (id : RdbStreamRecId) (last_delivery delivery_cnt : Nat) : List UInt8 :=
  tab (num ≠ 0) (ascii ",\n") 4 ++ ascii "\x7b \"id\" : \"" ++ rec_id_text id.ms id.ser ++ ascii "\"," ++
    ascii " \"last_d\" : " ++ decimal last_delivery ++ ascii "," ++
    ascii " \"d_cnt\" : " ++ decimal delivery_cnt ++ ascii " \x7d"

def d_stream_cons (num : Nat) (cname : RdbVal) (pend_cnt last_seen : Nat) : Option (List UInt8) := do
  let name ← name_text cname
  pure (tab (num ≠ 0) (ascii ",\n") 4 ++ ascii "\x7b \"name\" : \"" ++ name ++ ascii "\"," ++
    ascii " \"pending\" : " ++ decimal pend_cnt ++ ascii "," ++
    ascii " \"last_seen\" : " ++ decimal last_seen)

def d_stream_cons_pend (num : Nat) (id : RdbStreamRecId) : List UInt8 :=
  tab (num ≠ 0) (ascii ",\n") 5 ++ ascii "\"" ++ rec_id_text id.ms id.ser ++ ascii "\""

/-- What a callback prints. -/
def callback (fmt : Nat → List UInt8) (j : JsonOutput) : Callback → Option (List UInt8 × JsonOutput)
  | .d_idle i => j.d_idle i
  | .d_freq f => j.d_freq f
  | .d_aux var val => j.d_aux fmt var val
  | .d_dbresize x y => j.d_dbresize x y
  | .d_expired_ms ms => j.d_expired_ms ms
  | .d_expired sec => j.d_expired sec
  | .d_dbselect db => j.d_dbselect db
  | .d_start_type _ => some ([], j)
  | .d_start_key type key => j.d_start_key fmt type key
  | .d_end_key type => some (d_end_key type, j)
  | .d_string str | .d_module str => (str.print_s fmt true).map (·, j)
  | .d_hash num _ field val => (d_hash fmt num field val).map (·, j)
  | .d_list num _ val => (d_list fmt num val).map (·, j)
  | .d_set num _ member => (d_set fmt num member).map (·, j)
  | .d_zset num _ member score => (d_zset fmt num member score).map (·, j)
  | .d_stream_start c => some (d_stream_start c, j)
  | .d_stream_end c => some (d_stream_end c, j)
  | .d_stream_entry num _ id diff _ fields => (d_stream_entry num id diff fields).map (·, j)
  | .d_stream_info last num_elems num_cgroups _ => some (d_stream_info last num_elems num_cgroups, j)
  | .d_stream_group num _ gname pending_cnt last => (d_stream_group num gname pending_cnt last).map (·, j)
  | .d_stream_pend num _ id last_delivery delivery_cnt => some (d_stream_pend num id last_delivery delivery_cnt, j)
  | .d_stream_cons num _ cname pend_cnt last_seen => (d_stream_cons num cname pend_cnt last_seen).map (·, j)
  | .d_stream_cons_pend num _ id => some (d_stream_cons_pend num id, j)

/-- What is printed for callbacks one after the other; what goes to the other output is not. -/
def write (fmt : Nat → List UInt8) : JsonOutput → List (Dest × Callback) → Option (List UInt8 × JsonOutput)
  | j, [] => some ([], j)
  | j, (.null_out, _) :: calls => write fmt j calls
  | j, (.data_out, c) :: calls => do
    let (text, j) ← j.callback fmt c
    let (rest, j) ← write fmt j calls
    pure (text ++ rest, j)

/-- All that it prints in a run of the key loop. -/
def stdout (fmt : Nat → List UInt8) (show_meta : Bool) (r : MainRun) : Option (List UInt8) :=
  (write fmt { show_meta := show_meta } r.trace).map fun (text, _) => d_init ++ text ++ d_finish r.success

end JsonOutput

/-- `ListOutput`: only output key, ignore data. -/
def ListOutput.callback (fmt : Nat → List UInt8) : Callback → Option (List UInt8)
  | .d_start_key _ key => (key.print_s fmt false).map (· ++ ascii "\n")
  | _ => some []

end rdbparser
