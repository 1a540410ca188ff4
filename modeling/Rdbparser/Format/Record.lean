import Rdbparser.Bufptr
import Rdbparser.Format.Header

namespace rdbparser

/-- What is assumed about a blob: the call of liblzf that the decoder makes on it writes the declared bytes, of
which there is at least one, and `malloc` finds the memory for them. -/
structure Env.Expands (E : Env) (z text : List UInt8) : Prop where
  writes : E.lzf_decompress (z.take (z.length % 2 ^ 32)) (text.length % 2 ^ 32) = text
  nonempty : text ≠ []
  fits : RdbBufptr.PTR_SIZE + text.length < 2 ^ 64
  room : ∀ n, E.malloc n (RdbBufptr.PTR_SIZE + text.length) = true

/-- A liblzf that knows literal runs only, which are a byte below 32 and one more byte than that. -/
def Env.literal : Env where
  lzf_decompress z n :=
    match z with
    | [] => []
    | ctrl :: text => if ctrl < 32 ∧ text.length = ctrl.toNat + 1 ∧ text.length ≤ n then text else []
  malloc _ _ := true
  uninit _ _ := 0
  addr _ := 0

/-- A literal run of up to 32 bytes is expanded to these. -/
theorem Env.literal_expands {text : List UInt8} (hne : text ≠ []) (hlen : text.length ≤ 32) :
    Env.literal.Expands (UInt8.ofNat (text.length - 1) :: text) text where
  writes := by
    have hpos := List.length_pos_iff.mpr hne
    have hctrl : (UInt8.ofNat (text.length - 1)).toNat = text.length - 1 := by
      rw [UInt8.toNat_ofNat']
      omega
    have hlt : UInt8.ofNat (text.length - 1) < 32 := by
      rw [UInt8.lt_iff_toNat_lt, hctrl]
      change text.length - 1 < 32
      omega
    rw [List.length_cons, Nat.mod_eq_of_lt (show text.length + 1 < 2 ^ 32 by omega),
      Nat.mod_eq_of_lt (show text.length < 2 ^ 32 by omega), List.take_of_length_le (Nat.le_of_eq List.length_cons)]
    exact if_pos ⟨hlt, by omega, Nat.le_refl _⟩
  nonempty := hne
  fits := by
    rw [RdbBufptr.PTR_SIZE]
    omega
  room := fun _ => rfl

theorem Env.literal_expands_one (c : UInt8) : Env.literal.Expands [0x00, c] [c] :=
  Env.literal_expands (List.cons_ne_nil c []) (Nat.succ_le_succ (Nat.zero_le _))

end rdbparser

namespace rdbparser.format

/-- A string of a record: its bytes, an integer, or a blob that expands to its bytes. -/
inductive StoredStr (E : Env)
  | raw (len : StoredLen) (text : List UInt8) (hlen : len.val = text.length)
  | int (i : StoredInt)
  | lzf (zlen len : StoredLen) (z text : List UInt8) (hzlen : zlen.val = z.length)
      (hlen : len.val = text.length) (hlzf : E.Expands z text)

namespace StoredStr

variable {E : Env}

/-- A string of one byte. -/
def letter (c : UInt8) : StoredStr E := .raw (.short 1) [c] StoredLen.short_one

/-- One that is a blob. -/
def literal (c : UInt8) : StoredStr Env.literal :=
  .lzf (.short 2) (.short 1) [0x00, c] [c] rfl StoredLen.short_one (Env.literal_expands_one c)

def hdr : StoredStr E → Header
  | raw len _ _ => .plain len
  | int i => .int i
  | lzf zlen len _ _ _ _ _ => .lzf zlen len

/-- The compressed bytes after the header. -/
def blob : StoredStr E → List UInt8
  | raw .. | int _ => []
  | lzf _ _ z _ _ _ _ => z

/-- The bytes after the header that stand for themselves. -/
def plain : StoredStr E → List UInt8
  | raw _ text _ => text
  | int _ | lzf .. => []

def data (x : StoredStr E) : List UInt8 := x.blob ++ x.plain

def bytes (x : StoredStr E) : List UInt8 := x.hdr.bytes ++ x.data

def val : StoredStr E → RdbVal
  | raw _ text _ => .str text
  | int i => .int i.val
  | lzf _ _ _ text _ _ _ => .str text

/-- The characters it stands for. -/
def text : StoredStr E → List UInt8
  | raw _ text _ => text
  | int i => int_text i.val
  | lzf _ _ _ text _ _ _ => text

def is_raw : StoredStr E → Bool
  | raw .. => true
  | _ => false

def is_int : StoredStr E → Bool
  | int _ => true
  | _ => false

def is_lzf : StoredStr E → Bool
  | lzf .. => true
  | _ => false

theorem eq_int {x : StoredStr E} (h : x.is_int = true) : ∃ i, x = int i := by
  cases x with
  | int i => exact ⟨i, rfl⟩
  | raw | lzf => contradiction

theorem eq_raw {x : StoredStr E} (h : x.is_raw = true) : ∃ len text hlen, x = raw len text hlen := by
  cases x with
  | raw len text hlen => exact ⟨len, text, hlen, rfl⟩
  | int | lzf => contradiction

theorem bytes_length_pos (x : StoredStr E) : 0 < x.bytes.length := by
  have hpos := x.hdr.bytes_length.1
  rw [bytes, List.length_append]
  omega

end StoredStr

/-- An opcode with what it announces. -/
inductive Meta (E : Env)
  | module_aux (data : List UInt8)
  | idle (i : StoredLen)
  | freq (f : UInt8)
  | aux (var val : StoredStr E)
  | dbresize (i j : StoredLen)
  | expired_ms (ms : Nat) (h : ms < 2 ^ 64)
  | expired (sec : Nat) (h : sec < 2 ^ 32)
  | dbselect (db : StoredLen)

namespace Meta

variable {E : Env}

def op : Meta E → RdbMeta
  | module_aux _ => .RDB_MODULE_AUX
  | idle _ => .RDB_IDLE
  | freq _ => .RDB_FREQ
  | aux .. => .RDB_AUX
  | dbresize .. => .RDB_DBRESIZE
  | expired_ms .. => .RDB_EXPIRED_MS
  | expired .. => .RDB_EXPIRED_SEC
  | dbselect _ => .RDB_DBSELECT

def code : Meta E → UInt8
  | module_aux _ => 0xf7
  | idle _ => 0xf8
  | freq _ => 0xf9
  | aux .. => 0xfa
  | dbresize .. => 0xfb
  | expired_ms .. => 0xfc
  | expired .. => 0xfd
  | dbselect _ => 0xfe

/-- What follows the opcode. -/
def data : Meta E → List UInt8
  | module_aux data => data
  | idle i => i.bytes
  | freq f => [f]
  | aux var val => var.bytes ++ val.bytes
  | dbresize i j => i.bytes ++ j.bytes
  | expired_ms ms _ => le_bytes 8 ms
  | expired sec _ => le_bytes 4 sec
  | dbselect db => db.bytes

def bytes (m : Meta E) : List UInt8 := m.code :: m.data

/-- The callback that hands it out; the number of a database is an `uint32_t`. -/
def calls : Meta E → List Callback
  | module_aux _ => []
  | idle i => [.d_idle i.val]
  | freq f => [.d_freq f.toNat]
  | aux var val => [.d_aux var.val val.val]
  | dbresize i j => [.d_dbresize i.val j.val]
  | expired_ms ms _ => [.d_expired_ms ms]
  | expired sec _ => [.d_expired sec]
  | dbselect db => [.d_dbselect (db.val % 2 ^ 32)]

/-- The code `decode_hdr` gives up with at an opcode: module data is not supported, and the loop
over the opcodes ends at an AUX field whose second string is compressed. -/
def fails : Meta E → Option RdbErrCode
  | module_aux _ => some .RDB_ERR_NOTSUP
  | aux _ val => if val.is_lzf then some .RDB_ERR_TRUNC else none
  | _ => none

/-- The callbacks of opcodes up to the first that fails, and its code. -/
def sent : List (Meta E) → List Callback × Option RdbErrCode
  | [] => ([], none)
  | m :: ms =>
    match m.fails with
    | some e => (m.calls, some e)
    | none => (m.calls ++ (sent ms).1, (sent ms).2)

theorem get_rdb_meta_code (m : Meta E) : get_rdb_meta m.code = some m.op := by
  cases m <;> rfl

/-- An opcode that fails does not do so with the code of success. -/
theorem fails_ne_ok {m : Meta E} {e : RdbErrCode} (h : m.fails = some e) : e ≠ .RDB_OK := by
  cases m with
  | module_aux data => exact Option.some.inj h ▸ by decide
  | aux var val =>
    rw [fails] at h
    split at h
    · exact Option.some.inj h ▸ by decide
    · cases h
  | _ => cases h

/-- If none of the opcodes in front of a key fails, all of them are sent. -/
theorem sent_none {ms : List (Meta E)} (h : (sent ms).2 = none) :
    (∀ m ∈ ms, m.fails = none) ∧ (sent ms).1 = ms.flatMap calls := by
  induction ms with
  | nil => simp [sent]
  | cons m ms ih =>
    cases hm : m.fails with
    | some e => simp [sent, hm] at h
    | none =>
      simp only [sent, hm] at h
      obtain ⟨hgood, hcalls⟩ := ih h
      simp only [sent, hm, hcalls, List.mem_cons, forall_eq_or_imp, List.flatMap_cons, and_true]
      exact ⟨trivial, hgood⟩

/-- An opcode does not fail with the code of the end of the file. -/
theorem sent_ne_eof {ms : List (Meta E)} {e : RdbErrCode} (h : (sent ms).2 = some e) :
    e ≠ .RDB_EOF_MARK := by
  induction ms with
  | nil => cases h
  | cons m ms ih =>
    cases hm : m.fails with
    | none =>
      simp only [sent, hm] at h
      exact ih h
    | some e' =>
      simp only [sent, hm, Option.some.injEq] at h
      subst h
      rintro rfl
      cases m with
      | aux var val => simp [fails] at hm
      | _ => simp [fails] at hm

theorem sent_good {ms : List (Meta E)} (h : ∀ m ∈ ms, m.fails = none) : (sent ms).2 = none := by
  induction ms with
  | nil => rfl
  | cons m ms ih =>
    simp only [sent, h m List.mem_cons_self]
    exact ih fun m' hm' => h m' (List.mem_cons_of_mem m hm')

end Meta

/-- How a value starts: with the number of its elements or with a string. -/
inductive Head (E : Env)
  | len (n : StoredLen)
  | str (x : StoredStr E)

namespace Head

variable {E : Env}

def hdr : Head E → Header
  | len n => .plain n
  | str x => x.hdr

/-- The bytes after the header that are decompressed before the value is decoded. -/
def blob : Head E → List UInt8
  | len _ => []
  | str x => x.blob

end Head

/-- A kind of values as they are stored in records: the byte that starts a record, how the value
starts, what follows its header and blob, and the callbacks that hand it out. -/
class Encoding (E : outParam Env) (V : Type) where
  type : V → RdbType
  type_byte : V → UInt8
  head : V → Head E
  plain : V → List UInt8
  calls : V → List Callback
  get_rdb_type_byte : ∀ v, get_rdb_type (type_byte v) = type v
  type_ne_bad : ∀ v, type v ≠ .RDB_BAD_TYPE
  get_rdb_meta_byte : ∀ v, get_rdb_meta (type_byte v) = none
  of_value : ∀ v, ∀ c ∈ calls v, c.of_value = true

/-- A value as it is stored: its header, what is decompressed of it and what follows. -/
def Encoding.data {E : Env} {V : Type} [Encoding E V] (v : V) : List UInt8 :=
  (head v).hdr.bytes ++ ((head v).blob ++ plain v)

/-- A value: a string, or a count and that many elements. -/
inductive Value (E : Env)
  | string (s : StoredStr E)
  | list (n : StoredLen) (elems : List (StoredStr E)) (hn : n.val = elems.length)
  | set (n : StoredLen) (members : List (StoredStr E)) (hn : n.val = members.length)
  | hash (n : StoredLen) (pairs : List (StoredStr E × StoredStr E)) (hn : n.val = pairs.length)

namespace Value

variable {E : Env}

def type : Value E → RdbType
  | string _ => .RDB_STRING
  | list .. => .RDB_LIST
  | set .. => .RDB_SET
  | hash .. => .RDB_HASH

def type_byte : Value E → UInt8
  | string _ => 0
  | list .. => 1
  | set .. => 2
  | hash .. => 4

def head : Value E → Head E
  | string s => .str s
  | list n _ _ | set n _ _ | hash n _ _ => .len n

def plain : Value E → List UInt8
  | string s => s.plain
  | list _ xs _ | set _ xs _ => xs.flatMap StoredStr.bytes
  | hash _ xs _ => xs.flatMap fun x => x.1.bytes ++ x.2.bytes

/-- One callback per element, in order. -/
def calls : Value E → List Callback
  | string s => [.d_string s.val]
  | list n xs _ => xs.mapIdx fun num x => .d_list num n.val x.val
  | set n xs _ => xs.mapIdx fun num x => .d_set num n.val x.val
  | hash n xs _ => xs.mapIdx fun num x => .d_hash num n.val x.1.val x.2.val

instance : Encoding E (Value E) where
  type := type
  type_byte := type_byte
  head := head
  plain := plain
  calls := calls
  get_rdb_type_byte v := by cases v <;> rfl
  type_ne_bad v := by cases v <;> exact RdbType.noConfusion
  get_rdb_meta_byte v := by cases v <;> rfl
  of_value v c hc := by
    cases v with
    | string s => exact List.mem_singleton.mp hc ▸ rfl
    | list | set | hash =>
      obtain ⟨num, hnum, rfl⟩ := List.mem_mapIdx.mp hc
      rfl

end Value

/-- A record of a file: the opcodes before it, its type, its key and its value. -/
structure Record (E : Env) (V : Type) where
  metas : List (Meta E)
  key : StoredStr E
  value : V

namespace Record

variable {E : Env} {V : Type} [Encoding E V]

/-- What `decode_hdr` eats of a record. -/
def front (r : Record E V) : List UInt8 :=
  r.metas.flatMap Meta.bytes ++ Encoding.type_byte r.value ::
    (r.key.bytes ++ ((Encoding.head r.value).hdr.bytes ++ (Encoding.head r.value).blob))

def bytes (r : Record E V) : List UInt8 := r.front ++ Encoding.plain r.value

/-- What follows the key. -/
def data (r : Record E V) : List UInt8 := Encoding.data r.value

theorem bytes_eq (r : Record E V) :
    r.bytes = r.metas.flatMap Meta.bytes ++ Encoding.type_byte r.value :: (r.key.bytes ++ r.data) := by
  simp only [bytes, front, data, Encoding.data, List.append_assoc, List.cons_append]

/-- The callbacks of a record with the outputs they go to: `prev` is the output of the record
before it, `d` the one the verdict on its key selects. -/
def trace (prev d : Dest) (r : Record E V) : List (Dest × Callback) :=
  (r.metas.flatMap Meta.calls).map (prev, ·) ++ (.data_out, .d_start_type (Encoding.type r.value)) ::
    ((d, .d_start_key (Encoding.type r.value) r.key.val) ::
      ((Encoding.calls r.value).map (d, ·) ++ [(d, .d_end_key (Encoding.type r.value))]))

/-- The traces of records one after the other. -/
def traces (verdict : RdbVal → Dest) : Dest → List (Record E V) → List (Dest × Callback)
  | _, [] => []
  | prev, r :: rs => r.trace prev (verdict r.key.val) ++ traces verdict (verdict r.key.val) rs

end Record

/-- "REDIS" and a version of four digits. -/
def header (ver : Nat) : List UInt8 :=
  [0x52, 0x45, 0x44, 0x49, 0x53, 0x30, 0x30, UInt8.ofNat (0x30 + ver / 10),
    UInt8.ofNat (0x30 + ver % 10)]

@[simp] theorem header_length (ver : Nat) : (header ver).length = 9 := rfl

/-- A file: the version header, the records, the end marker and the crc. -/
structure RdbFile (E : Env) (V : Type) where
  ver : Nat
  hver : 0 < ver ∧ ver < 100
  records : List (Record E V)
  crc : List UInt8
  hcrc : crc.length = 8

namespace RdbFile

variable {E : Env} {V : Type} [Encoding E V]

/-- The file with other records. -/
def with_records (f : RdbFile E V) (records : List (Record E V)) : RdbFile E V := { f with records := records }

def body (f : RdbFile E V) : List UInt8 := f.records.flatMap Record.bytes

def bytes (f : RdbFile E V) : List UInt8 := header f.ver ++ (f.body ++ 0xff :: f.crc)

end RdbFile

end rdbparser.format
