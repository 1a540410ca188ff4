import Rdbparser.Encode.Value
import Rdbparser.Main.Encodings
import Rdbparser.Restore.Dump

/-! Dumps and files that are written with the encoders. -/

namespace rdbparser

open format RdbDecode

variable {E : Env}

/-- A value that is written with the encoders as a dump passes the check of the crc and is decoded to the same
value. Apart from the sizes only what the encoder of list packs does not write as it is read is left out;
nothing is assumed of the memory it is written to, nor of that behind the dump. -/
theorem encoded_dump (E : Env) (x : EncodedValue) (h : x.Fits) (out past : Mem) :
    ∃ t o, next_key E (St.start none ⟨.input, Mem.ofList (dump x.type_byte (x.bytes out)) past, 0⟩
        (dump x.type_byte (x.bytes out)).length) = ⟨.ok (), t, o⟩ ∧
      o.map Event.sent = (.data_out, .d_start_type (get_rdb_type x.type_byte)) ::
        (.data_out, .d_start_key (get_rdb_type x.type_byte) .nil) ::
          (x.calls.map (.data_out, ·) ++ [(.data_out, .d_end_key (get_rdb_type x.type_byte))]) := by
  obtain ⟨v, htype, hdata, hcalls⟩ := x.exists_stored E out h
  obtain ⟨t, o, hrun, ho⟩ := next_key_dump v past
  rw [htype, hdata] at hrun
  rw [← Encoding.get_rdb_type_byte v, htype, hcalls] at ho
  exact ⟨t, o, hrun, ho⟩

theorem EncodedValue.three_args_ne : RdbListPackEncode.three_args ≠ [] := List.cons_ne_nil _ _

/-- A quicklist of one list pack: a string, an integer and a string in two parts. -/
def EncodedValue.quick_three : EncodedValue :=
  .list_quicklist_2 [⟨RdbListPackEncode.three_args, EncodedValue.three_args_ne⟩]

theorem EncodedValue.quick_three_fits : quick_three.Fits := by
  refine ⟨by decide, List.forall_mem_singleton.mpr ⟨by decide, ?_⟩⟩
  have hint : (LpArg.int 300).InRange := ⟨by decide, fun h => absurd h (by decide)⟩
  refine List.forall_mem_cons.mpr ⟨?_, List.forall_mem_cons.mpr ⟨hint, List.forall_mem_singleton.mpr ?_⟩⟩ <;>
    exact show _ < 2 ^ 12 by decide

/-- A quicklist of one node: a string, an integer and a string in two parts. -/
theorem encoded_dump_three : ∃ t o, next_key Env.literal (St.start none ⟨.input,
      Mem.ofList (dump EncodedValue.quick_three.type_byte (EncodedValue.quick_three.bytes 0)) 0, 0⟩
      (dump EncodedValue.quick_three.type_byte (EncodedValue.quick_three.bytes 0)).length) = ⟨.ok (), t, o⟩ ∧
    o.map Event.sent = (.data_out, .d_start_type (get_rdb_type EncodedValue.quick_three.type_byte)) ::
      (.data_out, .d_start_key (get_rdb_type EncodedValue.quick_three.type_byte) .nil) ::
        (EncodedValue.quick_three.calls.map (.data_out, ·) ++
          [(.data_out, .d_end_key (get_rdb_type EncodedValue.quick_three.type_byte))]) :=
  encoded_dump Env.literal _ EncodedValue.quick_three_fits 0 0

/-- A key and a value as they are written. -/
structure EncodedRecord where
  key : Item
  value : EncodedValue

namespace EncodedRecord

def bytes (out : Mem) (x : EncodedRecord) : List UInt8 :=
  x.value.type_byte :: ((x.key.encode .init).1 ++ x.value.bytes out)

/-- What is delivered of it. -/
def trace (verdict : RdbVal → Dest) (x : EncodedRecord) : List (Dest × Callback) :=
  (.data_out, .d_start_type (get_rdb_type x.value.type_byte)) ::
    (verdict x.key.val, .d_start_key (get_rdb_type x.value.type_byte) x.key.val) ::
      (x.value.calls.map (verdict x.key.val, ·) ++ [(verdict x.key.val, .d_end_key (get_rdb_type x.value.type_byte))])

/-- A file of such records. -/
def file (ver : Nat) (out : Mem) (xs : List EncodedRecord) (crc : List UInt8) : List UInt8 :=
  header ver ++ (xs.flatMap (bytes out) ++ 0xff :: crc)

/-- The length of a record, and its opcodes and its trace for a verdict and the destination before it. -/
def found (r : Record E (ExactValue E)) : Nat × ((RdbVal → Dest) → Dest → Nat × List (Dest × Callback)) :=
  (r.bytes.length, fun verdict prev => (r.metas.length, r.trace prev (verdict r.key.val)))

def written (out : Mem) (x : EncodedRecord) : Nat × ((RdbVal → Dest) → Dest → Nat × List (Dest × Callback)) :=
  ((x.bytes out).length, fun verdict _ => (0, x.trace verdict))

/-- It is stored as a record without opcodes in front. -/
theorem exists_stored (E : Env) (out : Mem) (x : EncodedRecord) (h : x.value.Fits) :
    ∃ r : Record E (ExactValue E), r.bytes = x.bytes out ∧ found r = x.written out := by
  obtain ⟨v, htype, hdata, hcalls⟩ := x.value.exists_stored E out h
  have hbytes : (⟨[], x.key.stored E, v⟩ : Record E (ExactValue E)).bytes = x.bytes out := by
    rw [Record.bytes_eq, Record.data, hdata, htype, ← x.key.encode_eq E .init]
    rfl
  refine ⟨⟨[], x.key.stored E, v⟩, hbytes, ?_⟩
  rw [found, written, hbytes]
  apply congrArg (Prod.mk _)
  funext verdict prev
  rw [Record.trace, trace, ← Encoding.get_rdb_type_byte, htype, hcalls, x.key.stored_val]
  rfl

/-- The stored records are as long as what was written, so what fits the buffer still does. -/
theorem short_found {out : Mem} {rs : List (Record E (ExactValue E))} {xs : List EncodedRecord}
    (h : rs.map found = xs.map (written out)) {size : Nat} (hxs : ∀ x ∈ xs, 2 * (x.bytes out).length < size) :
    ∀ r ∈ rs, 2 * r.bytes.length < size := by
  intro r hr
  have hmem := List.mem_map_of_mem (f := found) hr
  rw [h] at hmem
  obtain ⟨x, hx, heq⟩ := List.mem_map.mp hmem
  have hlen : (x.bytes out).length = r.bytes.length := congrArg Prod.fst heq
  rw [← hlen]
  exact hxs x hx

/-- What the key loop delivers on records as they are written. -/
theorem outcome_found {out : Mem} {rs : List (Record E (ExactValue E))} {xs : List EncodedRecord}
    (h : rs.map found = xs.map (written out)) (verdict : RdbVal → Dest) (prev : Dest) :
    Record.outcome verdict prev rs = (xs.flatMap (trace verdict), true) := by
  induction rs generalizing xs prev with
  | nil =>
    rw [List.map_eq_nil_iff.mp h.symm]
    rfl
  | cons r rs ih =>
    cases xs with
    | nil => exact absurd h (List.cons_ne_nil _ _)
    | cons x xs =>
      rw [List.map_cons, List.map_cons, List.cons.injEq] at h
      have hfound := congrFun (congrFun (congrArg Prod.snd h.1) verdict) prev
      simp only [found, written, Prod.mk.injEq] at hfound
      rw [Record.outcome, hfound.2, List.eq_nil_of_length_eq_zero hfound.1, ih h.2]
      rfl

end EncodedRecord

/-- A file that is written with the encoders, read from stdin or mapped, is delivered as it was written: every
value under its key, in their order, and each key to the output that the verdict on it selects. The buffer is
more than twice as long as the version header and as every record; the crc may be any. -/
theorem encoded_file (E : Env) (xs : List EncodedRecord) (hfits : ∀ x ∈ xs, x.value.Fits) {ver : Nat}
    (hver : 0 < ver ∧ ver < 100) (out : Mem) {crc : List UInt8} (hcrc : crc.length = 8)
    (filter : Option (RdbVal → Bool))
    (mem past : Mem) {size : Nat} (map_size : Nat) (hheader : 18 < size) (hrecords : ∀ x ∈ xs,
      2 * (x.bytes out).length < size) :
    ∃ r r', (Input.stdin_buf mem size (EncodedRecord.file ver out xs crc)).Delivers E filter r ∧
      (Input.map (EncodedRecord.file ver out xs crc) past map_size).Delivers E filter r' ∧
      r.trace = xs.flatMap (EncodedRecord.trace (verdict filter)) ∧ r.success = true ∧
      r'.trace = xs.flatMap (EncodedRecord.trace (verdict filter)) ∧ r'.success = true := by
  obtain ⟨rs, hbytes, hfound⟩ := exists_parts fun x hx => EncodedRecord.exists_stored E out x (hfits x hx)
  obtain ⟨r, r', hr, hr', hout, hout'⟩ :=
    RdbFile.exists_runs (E := E) ⟨ver, hver, rs, crc, hcrc⟩ filter mem past map_size
    hheader (EncodedRecord.short_found hfound hrecords)
  have hfile : RdbFile.bytes (E := E) ⟨ver, hver, rs, crc, hcrc⟩ = EncodedRecord.file ver out xs crc := by
    rw [RdbFile.bytes, RdbFile.body, EncodedRecord.file, hbytes]
  rw [hfile] at hr hr'
  rw [EncodedRecord.outcome_found hfound, Prod.mk.injEq] at hout hout'
  exact ⟨r, r', hr, hr', hout.1, hout.2, hout'.1, hout'.2⟩

/-- The key "k". -/
def Item.k : Item := .str [0x6b] (by decide)

/-- A list in a zip list, and the same key again with a quicklist and a string. -/
def EncodedRecord.three : List EncodedRecord := [⟨.k, .list_ziplist two_args⟩, ⟨.k, .quick_three⟩, ⟨.k, .string .k⟩]

/-- Three records through a buffer of a hundred bytes, and mapped, without a filter. -/
theorem encoded_file_three :
    ∃ r r', (Input.stdin_buf 0 100 (EncodedRecord.file 9 0 EncodedRecord.three (List.replicate 8 0))).Delivers
      Env.literal none r ∧
      (Input.map (EncodedRecord.file 9 0 EncodedRecord.three (List.replicate 8 0)) 0 0).Delivers Env.literal none r' ∧
      r.trace = EncodedRecord.three.flatMap (EncodedRecord.trace (verdict none)) ∧ r.success = true ∧
      r'.trace = EncodedRecord.three.flatMap (EncodedRecord.trace (verdict none)) ∧ r'.success = true := by
  have hfits : ∀ x ∈ EncodedRecord.three, x.value.Fits := by
    intro x hx
    simp only [EncodedRecord.three, List.mem_cons, List.not_mem_nil, or_false] at hx
    obtain rfl | rfl | rfl := hx
    · change RdbZipEncode.Fits two_args
      rw [RdbZipEncode.Fits]
      decide
    · exact EncodedValue.quick_three_fits
    · trivial
  exact encoded_file Env.literal EncodedRecord.three hfits (by decide) 0 (List.length_replicate ..) none 0 0 0
    (by decide) (by decide)

end rdbparser
