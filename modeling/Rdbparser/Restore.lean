import Rdbparser.Main
import Rdbparser.Resp

namespace rdbparser

open resp

/-- Writes a restore command for every key: RESTORE key ttl payload [REPLACE]. -/
structure RestoreOutput where
  use_replace : Bool
  is_matched : Bool := false
  type_offset : Nat := 0
  ttl_ms : Nat := 0
  idle : Nat := 0
  freq : Nat := 0

/-- `snprintf( tmp, sizeof( tmp ), "$%" PRId64 "\r\n", n )` and `fwrite( tmp, 1, n )` for a `tmp` of
16 bytes: a text that does not fit is cut to 15 bytes and a zero, and past that more than `tmp` would
be written. -/
def len_text (n : Nat) : Option (List UInt8) :=
  let text := 0x24 :: (int_text (sext 64 n) ++ CRLF)
  if text.length < 16 then some text
  else if text.length = 16 then some (text.take 15 ++ [0])
  else none

/-- The bytes a string refers to; none when they are not there to be read, because there are none or
their memory is freed. -/
def RdbString.fwrite (r : RdbString) (alloced_mem : List Nat) : Option (List UInt8) :=
  if r.s_len = 0 then some []
  else
    match r.s.blk with
    | .null => none
    | .heap id => if id ∈ alloced_mem then some (r.s.mem.take r.s_len) else none
    | .input | .lit => some (r.s.mem.take r.s_len)

namespace RestoreOutput

def reset_state (r : RestoreOutput) : RestoreOutput :=
  { r with is_matched := false, ttl_ms := 0, idle := 0, freq := 0 }

/-- The effect of a callback; `d_expired` is forwarded to `d_expired_ms`. -/
def callback (r : RestoreOutput) (e : Event) : RestoreOutput :=
  match e.dest with
  | .null_out => r
  | .data_out =>
    match e.call with
    | .d_expired_ms ms => { r with ttl_ms := ms }
    | .d_expired sec => { r with ttl_ms := sec * 1000 }
    | .d_idle i => { r with idle := i }
    | .d_freq f => { r with freq := f }
    | .d_start_key .. => { r with is_matched := true }
    -- is_matched set when d_start_key() called
    | .d_start_type _ => { r with is_matched := false, type_offset := e.offset }
    | _ => r

/-- "*5", and "*4\r\n$7\r\nRESTORE\r\n" -/
def use_repl : List UInt8 := [0x2a, 0x35]
def restore : List UInt8 :=
  [0x2a, 0x34] ++ CRLF ++ [0x24, 0x37] ++ CRLF ++ [0x52, 0x45, 0x53, 0x54, 0x4f, 0x52, 0x45] ++ CRLF

/-- "\r\n$1\r\n0\r\n" -/
def ttl_0 : List UInt8 := CRLF ++ [0x24, 0x31] ++ CRLF ++ [0x30] ++ CRLF

/-- "$7\r\nREPLACE\r\n" -/
def repl : List UInt8 :=
  [0x24, 0x37] ++ CRLF ++ [0x52, 0x45, 0x50, 0x4c, 0x41, 0x43, 0x45] ++ CRLF

/-- The version 9. -/
def ver : List UInt8 := [0x09, 0x00]

/-- The offset of the data in `buf`, past type and key; a `size_t`. -/
def data_start (buf : Cursor) (is_rdb_file : Bool) (key : RdbString) (start : Nat) : Nat :=
  if is_rdb_file then
    let sz := (({} : RdbLength).decode_buf (buf.add (start + 1)).ptr.mem).1
    (((start : Int) + 1 + sz + key.s_len) % 2 ^ 64).toNat
  else start + 1

/-- The pieces of a command; the crc is chained over the type, the data of `len` bytes from `start`
and the version. -/
def command_text (E : Env) (r : RestoreOutput) (buf : Cursor) (start len : Nat)
    (key_len key data_len : List UInt8) : List UInt8 :=
  let type := (buf.add r.type_offset).ptr.mem.take 1
  let data := (buf.add start).ptr.mem.take len
  let crc := jones_crc64 (E.addr buf.blk + buf.pos + r.type_offset) 0 type
  let crc := jones_crc64 (E.addr buf.blk + buf.pos + start) crc data
  let crc := jones_crc64 (E.addr .lit) crc ver
  (if r.use_replace then use_repl ++ restore.drop 2 else restore) ++ key_len ++ key ++ ttl_0 ++
    data_len ++ type ++ data ++ ver ++ le_bytes 8 crc.toNat ++ CRLF ++
    (if r.use_replace then repl else [])

/-- The command for the record from `start` to `end_`; none where the code reads what is not there. -/
def command (E : Env) (r : RestoreOutput) (s : St) (start end_ : Nat) : Option (List UInt8) :=
  if s.bptr.buf.pos < s.bptr.offset then none
  else
    let buf := { s.bptr.buf with pos := s.bptr.buf.pos - s.bptr.offset }
    let start := data_start buf s.dec.is_rdb_file s.dec.key start
    if end_ < start then none
    else do
      let key_len ← len_text s.dec.key.s_len
      let key ← s.dec.key.fwrite s.bptr.alloced_mem
      let data_len ← len_text ((end_ - start + 1 + 10) % 2 ^ 64)
      pure (r.command_text E buf start (end_ - start) key_len key data_len)

/-- At the end of key data, write the restore command to stdout. -/
def write_restore_cmd (E : Env) (r : RestoreOutput) (s : St) : Option (List UInt8) :=
  if ¬ r.is_matched then some [] -- if not filtered
  else
    let end_ := sub64 s.bptr.offset s.bptr.start_offset
    let start := sub64 r.type_offset s.bptr.start_offset
    -- the buffer does not contain the key
    if r.type_offset < s.bptr.start_offset ∨ s.bptr.offset < s.bptr.start_offset ∨ end_ ≤ start then
      some []
    else r.command E s start end_

/-- What is written for a key, from its events and the state after it. -/
def key_command (E : Env) (r : RestoreOutput) (o : List Event) (t : St) : Option (List UInt8) :=
  (o.foldl callback r).write_restore_cmd E t

/-- What is written for keys one after the other. -/
def commands (E : Env) : RestoreOutput → List (List Event × St) → List (Option (List UInt8))
  | _, [] => []
  | r, (o, t) :: keys => r.key_command E o t :: commands E (o.foldl callback r).reset_state keys

end RestoreOutput

end rdbparser
