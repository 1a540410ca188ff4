import Rdbparser.Restore
import Rdbparser.Keys.File
import Rdbparser.Crc.Slice

namespace rdbparser

open format resp RdbDecode

/-- A length below 10^12 fits the buffer it is printed to. -/
theorem len_text_eq {n : Nat} (hn : n < 10 ^ 12) : len_text n = some (line 0x24 n) := by
  have hival : sext 64 n = n := Int.bmod_eq_of_le_mul_two (by omega) (by omega)
  have hpos : ¬ (n : Int) < 0 := by omega
  have hlen := (decimal_le_iff (k := 12) (by decide)).mpr hn
  have hfits : (0x24 :: (decimal n ++ CRLF)).length < 16 := by
    simp only [List.length_cons, List.length_append, CRLF, List.length_nil]
    omega
  simp only [len_text, hival, int_text, if_neg hpos, Int.natAbs_natCast, if_pos hfits, line]

namespace RestoreOutput

theorem callback_value {e : Event} (he : e.call.of_value = true) (r : RestoreOutput) :
    r.callback e = r := by
  obtain ⟨dest, call, offset⟩ := e
  cases dest <;> cases call <;> first | rfl | contradiction

theorem callbacks_value {o : List Event} (ho : ∀ e ∈ o, e.call.of_value = true) (r : RestoreOutput) :
    o.foldl callback r = r := by
  induction o with
  | nil => rfl
  | cons e o ih =>
    rw [List.foldl_cons, callback_value (ho e List.mem_cons_self),
      ih fun e' he' => ho e' (List.mem_cons_of_mem e he')]

@[simp] theorem callback_use_replace (r : RestoreOutput) (e : Event) :
    (r.callback e).use_replace = r.use_replace := by
  obtain ⟨dest, call, offset⟩ := e
  cases dest <;> cases call <;> rfl

@[simp] theorem callbacks_use_replace (r : RestoreOutput) (o : List Event) :
    (o.foldl callback r).use_replace = r.use_replace := by
  induction o generalizing r with
  | nil => rfl
  | cons e o ih => rw [List.foldl_cons, ih, callback_use_replace]

end RestoreOutput

variable {E : Env} {V : Type} [Encoding E V] {filter : Option (RdbVal → Bool)} {prev : Dest}
  {c : Place} {r : Record E V} {t : St} {o : List Event}

/-- Where the type of a record is in the buffer. -/
def format.Record.type_at (r : Record E V) (offset : Nat) : Nat :=
  offset + (r.metas.flatMap Meta.bytes).length

theorem format.Record.end_at (r : Record E V) (offset : Nat) :
    offset + r.bytes.length = r.type_at offset + 1 + r.key.bytes.length + r.data.length := by
  rw [r.bytes_eq, Record.type_at]
  simp only [List.length_append, List.length_cons]
  omega

/-- After the callbacks of a record it is known where its type is, and whether it is let through. -/
theorem KeyDone.callbacks (h : KeyDone filter prev c r t o) (out : RestoreOutput) :
    (o.foldl RestoreOutput.callback out).is_matched =
        decide (verdict filter r.key.val = .data_out) ∧
      (o.foldl RestoreOutput.callback out).type_offset =
        r.type_at c.offset := by
  obtain ⟨o₁, o₂, rfl, -, ho₂⟩ := h.events
  rw [List.foldl_append, List.foldl_cons]
  -- the start of the key, its value and its end
  obtain ⟨e, o₂, rfl, he, ho₂⟩ := List.map_eq_cons_iff.mp ho₂
  obtain ⟨o₃, o₄, rfl, ho₃, ho₄⟩ := List.map_eq_append_iff.mp ho₂
  obtain ⟨e', rfl, he'⟩ := List.map_eq_singleton_iff.mp ho₄
  have hvalue : ∀ x ∈ o₃, x.call.of_value = true := by
    intro x hx
    have hmem : x.sent ∈ o₃.map Event.sent := List.mem_map_of_mem hx
    rw [ho₃] at hmem
    obtain ⟨k, hk, hsent⟩ := List.mem_map.mp hmem
    have hcall : x.call = k := (congrArg Prod.snd hsent).symm
    exact hcall ▸ Encoding.of_value r.value k hk
  obtain ⟨edest, ecall, eoffset⟩ := e
  obtain ⟨rfl, rfl⟩ : edest = _ ∧ ecall = _ := Prod.mk.inj he
  obtain ⟨edest', ecall', eoffset'⟩ := e'
  obtain ⟨rfl, rfl⟩ : edest' = _ ∧ ecall' = _ := Prod.mk.inj he'
  rw [List.foldl_cons, List.foldl_append, RestoreOutput.callbacks_value hvalue]
  cases verdict filter r.key.val <;> exact ⟨rfl, rfl⟩

/-- "RESTORE" and "REPLACE" -/
def RestoreOutput.RESTORE : List UInt8 := [0x52, 0x45, 0x53, 0x54, 0x4f, 0x52, 0x45]
def RestoreOutput.REPLACE : List UInt8 := [0x52, 0x45, 0x50, 0x4c, 0x41, 0x43, 0x45]

/-- A dump: the type, the value, the version and the crc of all of these. -/
def dump (type_byte : UInt8) (data : List UInt8) : List UInt8 :=
  type_byte :: (data ++ (RestoreOutput.ver ++
    le_bytes 8 (crc64 (type_byte :: (data ++ RestoreOutput.ver))).toNat))

theorem dump_length (type_byte : UInt8) (data : List UInt8) :
    (dump type_byte data).length = data.length + 11 := by
  simp [dump, RestoreOutput.ver]

/-- The command that restores a record. -/
def format.Record.command (r : Record E V) : List UInt8 :=
  array [RestoreOutput.RESTORE, r.key.text, [0x30], dump (Encoding.type_byte r.value) r.data,
    RestoreOutput.REPLACE]

/-- The offsets a command is made from: where the type and the end of the record are in the buffer,
less the offset of the buffer in the file. -/
theorem KeyDone.write_restore_cmd (h : KeyDone filter prev c r t o) (out : RestoreOutput) :
    out.key_command E o t =
      if verdict filter r.key.val = .data_out ∧
          c.start_offset ≤ r.type_at c.offset then
        (o.foldl RestoreOutput.callback out).command E t
          (r.type_at c.offset - c.start_offset)
          (c.offset + r.bytes.length - c.start_offset)
      else some [] := by
  obtain ⟨hmatched, htype⟩ := h.callbacks out
  have hoffset : t.bptr.offset = c.offset + r.bytes.length := h.on.offset
  have hstart : t.bptr.start_offset = c.start_offset := congrArg Place.start_offset h.on.cur
  have hend_at := r.end_at c.offset
  rw [RestoreOutput.key_command, RestoreOutput.write_restore_cmd, hmatched, htype, hoffset, hstart]
  simp only [decide_eq_true_eq, ite_not]
  by_cases hmatch : verdict filter r.key.val = .data_out
  · simp only [hmatch, if_true, true_and]
    by_cases hbefore : c.start_offset ≤ r.type_at c.offset
    · have hend : sub64 (c.offset + r.bytes.length) c.start_offset =
          c.offset + r.bytes.length - c.start_offset := if_pos (by omega)
      have htype : sub64 (r.type_at c.offset) c.start_offset =
          r.type_at c.offset - c.start_offset := if_pos hbefore
      rw [if_pos hbefore, hend, htype]
      exact if_neg (by omega)
    · rw [if_neg hbefore]
      exact if_pos (.inl (by omega))
  · rw [if_neg hmatch, if_neg fun h => hmatch h.1]

/-- A record in the buffer: its type, its key and its value. -/
theorem format.Record.in_buffer (hpos : c.buf.pos = c.offset) {rest : List UInt8}
    (hv : c.Views (r.bytes ++ rest)) :
    (c.buf.mem.add (r.type_at c.offset)).Starts
      (Encoding.type_byte r.value :: (r.key.bytes ++ r.data)) := by
  have hstarts := hv.starts
  rw [r.bytes_eq, Mem.starts_append, Cursor.ptr, Mem.add_add, hpos] at hstarts
  exact hstarts.2

/-- The buffer from its start, behind the record. -/
theorem KeyDone.buffer (h : KeyDone filter prev c r t o) (hpos : c.buf.pos = c.offset) :
    t.bptr.buf.pos = t.bptr.offset ∧
      { t.bptr.buf with pos := t.bptr.buf.pos - t.bptr.offset } = { c.buf with pos := 0 } := by
  have hbuf : t.bptr.buf = c.buf.add r.bytes.length := h.on.buf
  have hoffset : t.bptr.offset = c.offset + r.bytes.length := h.on.offset
  refine ⟨?_, ?_⟩
  · rw [hbuf, hoffset, ← hpos]
    rfl
  · rw [hbuf, hoffset, ← hpos]
    simp only [Cursor.add, Nat.sub_self]

/-- The value is looked for behind the header of the key and as many bytes as its length says. -/
theorem RestoreOutput.data_start_eq {buf : Cursor} {start : Nat} (x : StoredStr E) (key : RdbString)
    (hbuf : ((buf.add (start + 1)).ptr.mem).Starts x.hdr.bytes) :
    data_start buf true key start = (start + 1 + x.hdr.bytes.length + key.s_len) % 2 ^ 64 := by
  rw [data_start, if_pos rfl, RdbLength.decode_buf_header x.hdr hbuf]
  exact congrArg Int.toNat (Int.natCast_mod (start + 1 + x.hdr.bytes.length + key.s_len) (2 ^ 64)).symm

/-- A command of a type and the bytes that are taken for its value. -/
def RestoreOutput.command_of (type_byte : UInt8) (data key_len key data_len : List UInt8) : List UInt8 :=
  line 0x2a 5 ++ (bulk RESTORE ++ (key_len ++ (key ++ (CRLF ++ (bulk [0x30] ++
    (data_len ++ (dump type_byte data ++ (CRLF ++ bulk REPLACE))))))))

/-- The pieces that are written for a command are those of a RESTORE: the dump is the byte of the type, the value, the
version and the crc of all of these. -/
theorem RestoreOutput.command_text_eq {out : RestoreOutput} {buf : Cursor} {start : Nat}
    {type_byte : UInt8} {data : List UInt8}
    (htype : (buf.add out.type_offset).ptr.mem 0 = type_byte)
    (hdata : (buf.add start).ptr.mem.Starts data) (hreplace : out.use_replace = true)
    (key_len key data_len : List UInt8) :
    out.command_text E buf start data.length key_len key data_len =
      command_of type_byte data key_len key data_len := by
  have htake : (buf.add out.type_offset).ptr.mem.take 1 = [type_byte] := by
    rw [Mem.take_succ, htype, Mem.take_zero]
  have hcrc : ver.foldl crc_step (data.foldl crc_step ([type_byte].foldl crc_step 0)) =
      crc64 (type_byte :: (data ++ ver)) := by
    rw [crc64, ← List.foldl_append, ← List.foldl_append]
    rfl
  have hhead : use_repl ++ restore.drop 2 = line 0x2a 5 ++ bulk RESTORE := by decide
  have hzero : ttl_0 = CRLF ++ bulk [0x30] := by decide
  have htail : repl = bulk REPLACE := by decide
  simp only [command_text, htake, hdata.take, jones_crc64_eq, hcrc, hreplace, if_true, hhead, hzero,
    htail, command_of, dump, List.append_assoc, List.cons_append, List.nil_append]

/-- A key that is stored raw is written as it is. -/
theorem KeyDone.fwrite_raw (h : KeyDone filter prev c r t o) (hinput : c.buf.blk = .input)
    (hraw : r.key.is_raw = true) :
    t.dec.key.s_len = r.key.text.length ∧
      t.dec.key.fwrite t.bptr.alloced_mem = some r.key.text := by
  obtain ⟨len, text, hlen, hkey⟩ := StoredStr.eq_raw hraw
  obtain ⟨k₀, hk⟩ := h.key
  rw [hkey] at hk ⊢
  obtain ⟨p, hset, hp, hblk⟩ := hk
  have hs_len : t.dec.key.s_len = text.length := by rw [hset]; rfl
  have hs : t.dec.key.s = p := by rw [hset]; rfl
  refine ⟨hs_len, ?_⟩
  rw [RdbString.fwrite, hs_len, hs, hblk, hinput]
  split
  · next hzero => exact congrArg some (List.eq_nil_of_length_eq_zero hzero).symm
  · exact congrArg some hp.take

/-- The command for a record whose key is stored raw, from wherever its value is taken. -/
theorem KeyDone.command_eq (h : KeyDone filter prev c r t o) (hpos : c.buf.pos = c.offset)
    {rest : List UInt8} (hv : c.Views (r.bytes ++ rest)) (hinput : c.buf.blk = .input)
    (hraw : r.key.is_raw = true) {out : RestoreOutput}
    (htype : out.type_offset = r.type_at c.offset)
    (hreplace : out.use_replace = true) {start start' end_ : Nat}
    (hstart : RestoreOutput.data_start { c.buf with pos := 0 } true t.dec.key start = start') :
    out.command E t start end_ =
      if end_ < start' then none
      else (len_text r.key.text.length).bind fun key_len =>
        (len_text ((end_ - start' + 1 + 10) % 2 ^ 64)).map fun data_len =>
          RestoreOutput.command_of (Encoding.type_byte r.value)
            ((c.buf.mem.add start').take (end_ - start')) key_len r.key.text data_len := by
  obtain ⟨hposition, hbuf⟩ := h.buffer hpos
  obtain ⟨hs_len, hfwrite⟩ := h.fwrite_raw hinput hraw
  have htbyte := (Mem.starts_cons.mp (r.in_buffer hpos hv)).1
  have hbelow : ¬ t.bptr.buf.pos < t.bptr.offset := by omega
  rw [RestoreOutput.command, if_neg hbelow]
  simp only [hbuf, h.ready.file, hstart, hs_len, hfwrite]
  split
  · rfl
  · have hmem : ∀ n, (({ c.buf with pos := 0 } : Cursor).add n).ptr.mem = c.buf.mem.add n := by
      intro n
      simp [Cursor.ptr, Cursor.add]
    have hdata : (({ c.buf with pos := 0 } : Cursor).add start').ptr.mem.Starts
        ((c.buf.mem.add start').take (end_ - start')) := by
      rw [hmem, Mem.Starts, Mem.take_length]
    have htype' : (({ c.buf with pos := 0 } : Cursor).add out.type_offset).ptr.mem 0 =
        Encoding.type_byte r.value := by
      rw [hmem, htype, htbyte]
    have htext := RestoreOutput.command_text_eq (E := E) htype' hdata hreplace
    rw [Mem.take_length] at htext
    generalize len_text r.key.text.length = key_len
    generalize len_text ((end_ - start' + 1 + 10) % 2 ^ 64) = data_len
    generalize RestoreOutput.command_text E out { c.buf with pos := 0 } = f at htext ⊢
    simp only [htext]
    cases key_len <;> cases data_len <;> rfl

/-- What is printed for a record, if its lengths can be. -/
def format.Record.printed (r : Record E V) : Option (List UInt8) :=
  (len_text r.key.text.length).bind fun key_len =>
    (len_text (dump (Encoding.type_byte r.value) r.data).length).map fun data_len =>
      RestoreOutput.command_of (Encoding.type_byte r.value) r.data key_len r.key.text data_len

/-- The command for a record whose key is stored raw, from where the value is. -/
theorem KeyDone.command_raw (h : KeyDone filter prev c r t o) (hpos : c.buf.pos = c.offset)
    {rest : List UInt8} (hv : c.Views (r.bytes ++ rest)) (hlong : c.offset + c.avail < 2 ^ 63)
    (hinput : c.buf.blk = .input) (hraw : r.key.is_raw = true) {out : RestoreOutput}
    (htype : out.type_offset = r.type_at c.offset)
    (hreplace : out.use_replace = true) :
    out.command E t (r.type_at c.offset) (c.offset + r.bytes.length) =
      r.printed := by
  have hbytes : r.key.bytes = r.key.hdr.bytes ++ r.key.text := by
    obtain ⟨len, text, hlen, hkey⟩ := StoredStr.eq_raw hraw
    rw [hkey]
    rfl
  have hend := r.end_at c.offset
  have hsmall : c.offset + r.bytes.length < 2 ^ 63 :=
    Nat.lt_of_le_of_lt (Nat.add_le_add_left hv.le _) hlong
  obtain ⟨-, hkeydata⟩ := Mem.starts_cons.mp (r.in_buffer hpos hv)
  obtain ⟨hkeybytes, hdata⟩ := Mem.starts_append.mp hkeydata
  simp only [Mem.add_add] at hkeybytes hdata
  have hstart : RestoreOutput.data_start { c.buf with pos := 0 } true t.dec.key (r.type_at c.offset) =
      r.type_at c.offset + 1 + r.key.bytes.length := by
    have hhdr : ((({ c.buf with pos := 0 } : Cursor).add (r.type_at c.offset + 1)).ptr.mem).Starts
        r.key.hdr.bytes := by
      rw [hbytes] at hkeybytes
      simpa [Cursor.ptr, Cursor.add] using (Mem.starts_append.mp hkeybytes).1
    rw [RestoreOutput.data_start_eq r.key t.dec.key hhdr, (h.fwrite_raw hinput hraw).1, hbytes,
      List.length_append]
    rw [hbytes, List.length_append] at hend
    omega
  have hmod : (r.data.length + 1 + 10) % 2 ^ 64 =
      (dump (Encoding.type_byte r.value) r.data).length := by
    rw [dump_length]
    omega
  rw [h.command_eq hpos hv hinput hraw htype hreplace hstart, hend,
    if_neg (by omega), Nat.add_sub_cancel_left, hmod, hdata.take, Record.printed]

theorem format.Record.command_eq (r : Record E V) :
    r.command = RestoreOutput.command_of (Encoding.type_byte r.value) r.data
      (line 0x24 r.key.text.length) r.key.text
      (line 0x24 (dump (Encoding.type_byte r.value) r.data).length) := by
  simp only [Record.command, array, bulk, RestoreOutput.command_of, List.flatMap_cons,
    List.flatMap_nil, List.append_nil, List.append_assoc]
  rfl

/-- What is written for a record whose key is stored raw, in a buffer that starts with the file. -/
theorem KeyDone.key_command_printed (h : KeyDone filter prev c r t o) (hpos : c.buf.pos = c.offset)
    (hstart : c.start_offset = 0) {rest : List UInt8} (hv : c.Views (r.bytes ++ rest))
    (hlong : c.offset + c.avail < 2 ^ 63) (hinput : c.buf.blk = .input)
    (hraw : r.key.is_raw = true) {out : RestoreOutput} (hreplace : out.use_replace = true) :
    out.key_command E o t =
      if verdict filter r.key.val = .data_out then r.printed else some [] := by
  rw [h.write_restore_cmd, hstart]
  simp only [Nat.zero_le, and_true, Nat.sub_zero]
  rw [h.command_raw hpos hv hlong hinput hraw (h.callbacks out).2
    (by rw [RestoreOutput.callbacks_use_replace, hreplace])]

theorem format.Record.printed_eq (r : Record E V) (hkey : r.key.text.length < 10 ^ 12)
    (hdata : (dump (Encoding.type_byte r.value) r.data).length < 10 ^ 12) :
    r.printed = some r.command := by
  rw [Record.printed, len_text_eq hkey, len_text_eq hdata, r.command_eq]
  rfl

/-- What is written for it when its lengths can be printed. -/
theorem KeyDone.key_command_raw (h : KeyDone filter prev c r t o) (hpos : c.buf.pos = c.offset)
    (hstart : c.start_offset = 0) {rest : List UInt8} (hv : c.Views (r.bytes ++ rest))
    (hlong : c.offset + c.avail < 2 ^ 63) (hinput : c.buf.blk = .input)
    (hraw : r.key.is_raw = true) (hkey : r.key.text.length < 10 ^ 12)
    (hdata : (dump (Encoding.type_byte r.value) r.data).length < 10 ^ 12) {out : RestoreOutput}
    (hreplace : out.use_replace = true) :
    out.key_command E o t =
      some (if verdict filter r.key.val = .data_out then r.command else []) := by
  rw [h.key_command_printed hpos hstart hv hlong hinput hraw hreplace, r.printed_eq hkey hdata]
  exact (apply_ite some _ _ _).symm

end rdbparser
