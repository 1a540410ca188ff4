import Rdbparser.Restore.File
import Rdbparser.Restore.Keys

namespace rdbparser

open format resp RdbDecode

variable {E : Env} {V : Type} [Encoding E V] {filter : Option (RdbVal → Bool)} {prev : Dest}
  {c : Place} {r : Record E V} {t : St} {o : List Event} {file : List UInt8}

/-- The command for a record is made from what the file has at the offset that the record has in the
buffer: there must be a key header of the same size there, and the same value behind it. -/
def format.Record.Mirrored (file : List UInt8) (r : Record E V) (place : Nat × Nat) : Prop :=
  place.2 ≤ r.type_at place.1 ∧
    (RdbLength.decode_buf {} (Mem.ofList (file.drop (r.type_at place.1 + 1)) fun _ => 0)).1 =
      r.key.hdr.bytes.length ∧
    (file.drop (r.type_at place.1 + 1 + r.key.bytes.length)).take r.data.length = r.data

instance (r : Record E V) (place : Nat × Nat) : Decidable (r.Mirrored file place) :=
  inferInstanceAs (Decidable (_ ∧ _))

/-- The buffer holds the bytes of the file. -/
theorem Place.Buffers.get (h : c.Buffers file) {i : Nat} (hi : i < c.offset + c.avail) :
    c.buf.mem i = file.getD (c.start_offset + i) 0 := by
  have hends := h.ends
  have hlen : ((file.drop c.start_offset).take (c.offset + c.avail)).length = c.offset + c.avail := by
    rw [List.length_take, List.length_drop]
    omega
  rw [h.starts.get (i := i) (by rw [hlen]; exact hi), List.getElem_take, List.getElem_drop,
    List.getD_eq_getElem?_getD, List.getElem?_eq_getElem (by omega), Option.getD_some]

/-- What is in the buffer is what is in the file, from where the buffer starts in it. -/
theorem Place.Buffers.take (h : c.Buffers file) {i n : Nat} (hi : i + n ≤ c.offset + c.avail) :
    (c.buf.mem.add i).take n = (file.drop (c.start_offset + i)).take n := by
  have hends := h.ends
  apply List.ext_getElem
  · rw [Mem.take_length, List.length_take, List.length_drop]
    omega
  · intro j h1 h2
    rw [Mem.take_length] at h1
    have hget := h.get (i := i + j) (by omega)
    rw [List.getElem_take, List.getElem_drop]
    rw [List.getD_eq_getElem?_getD, List.getElem?_eq_getElem (by omega), Option.getD_some] at hget
    simp only [Mem.take, List.getElem_map, List.getElem_range, Mem.add_apply, hget]
    congr 1
    omega

/-- The size of the key header is read from the file, at the offset that the record has in the
buffer. -/
theorem Place.Buffers.header_size (h : c.Buffers file) {rest : List UInt8}
    (hv : c.Views (r.bytes ++ rest)) (hstart : c.start_offset = 0 ∨ 9 ≤ c.start_offset)
    (hbefore : c.start_offset ≤ r.type_at c.offset) :
    (RdbLength.decode_buf {} (c.buf.mem.add (r.type_at c.offset - c.start_offset + 1))).1 =
      (RdbLength.decode_buf {} (Mem.ofList (file.drop (r.type_at c.offset + 1)) fun _ => 0)).1 := by
  have hmem := r.in_buffer h.pos hv
  have hend := r.end_at c.offset
  have hle := hv.le
  have hkey := r.key.hdr.bytes_length
  have hdata := (Encoding.head r.value).hdr.bytes_length
  have hkeylen : r.key.bytes.length = r.key.hdr.bytes.length + r.key.data.length := by
    rw [StoredStr.bytes, List.length_append]
  have hdatalen : (Encoding.head r.value).hdr.bytes.length ≤ r.data.length := by
    rw [Record.data, Encoding.data, List.length_append]
    exact Nat.le_add_right _ _
  cases hstart with
  | inl hzero =>
    have hhdr : (c.buf.mem.add (r.type_at c.offset + 1)).Starts r.key.hdr.bytes := by
      have hkeydata := (Mem.starts_cons.mp hmem).2
      rw [StoredStr.bytes, List.append_assoc, Mem.add_add] at hkeydata
      exact (Mem.starts_append.mp hkeydata).1
    have hfile := h.take (i := r.type_at c.offset + 1) (n := r.key.hdr.bytes.length) (by omega)
    rw [hzero, Nat.zero_add, hhdr.take] at hfile
    have hhdr' : (Mem.ofList (file.drop (r.type_at c.offset + 1)) fun _ => 0).Starts
        r.key.hdr.bytes := by
      have hall := Mem.ofList_starts (file.drop (r.type_at c.offset + 1)) fun _ => 0
      rw [← List.take_append_drop r.key.hdr.bytes.length (file.drop (r.type_at c.offset + 1)),
        ← hfile] at hall
      rw [← List.take_append_drop r.key.hdr.bytes.length (file.drop (r.type_at c.offset + 1)),
        ← hfile]
      exact (Mem.starts_append.mp hall).1
    rw [hzero, Nat.sub_zero, RdbLength.decode_buf_header _ hhdr, RdbLength.decode_buf_header _ hhdr']
  | inr hstart =>
    apply RdbLength.decode_buf_size_congr
    intro i hi
    rw [Mem.add_apply, h.get (by omega), Mem.ofList, List.getD_eq_getElem?_getD, List.getD_eq_getElem?_getD,
      List.getElem?_drop]
    congr 2
    omega

/-- A length that is printed is not taken for a negative number, unless it wraps around to a small one. -/
theorem len_text_small {m : Nat} {t : List UInt8} (hm : m < 2 ^ 63 + 2 ^ 62) (h : len_text m = some t) :
    m < 2 ^ 63 := by
  by_contra hge
  obtain ⟨n, hn⟩ : ∃ n : Nat, (m : Int) = 2 ^ 64 - n := ⟨2 ^ 64 - m, by omega⟩
  have hival : sext 64 m = -(n : Int) := by
    have htwos : m = twos 64 (-(n : Int)) := by
      unfold twos
      omega
    rw [htwos]
    exact sext_twos (by omega) (by omega)
  have hdigits : ¬ (decimal n).length ≤ 18 := by
    rw [decimal_le_iff (by decide)]
    omega
  have hlong : 16 < (0x24 :: (int_text (sext 64 m) ++ CRLF) : List UInt8).length := by
    rw [hival, int_text, Int.natAbs_neg, Int.natAbs_natCast]
    split <;> simp only [List.length_cons, List.length_append] <;> omega
  simp only [len_text] at h
  generalize (0x24 :: (int_text (sext 64 m) ++ CRLF) : List UInt8) = text at h hlong
  rw [if_neg (by omega), if_neg (by omega)] at h
  cases h

theorem len_text_length {m : Nat} {t : List UInt8} (hm : m < 2 ^ 63) (h : len_text m = some t) :
    t.length = (decimal m).length + 3 := by
  have hline : (line 0x24 m).length = (decimal m).length + 3 := by
    simp [line, CRLF]
  cases len_text_cases hm h with
  | inl h => rw [h.2, hline]
  | inr h => rw [h.1, hline]

/-- Two commands for a key that are the same have the same value. -/
theorem RestoreOutput.command_of_data {type_byte : UInt8} {data data' key_len key : List UInt8}
    {data_len data_len' : List UInt8} (hsmall : data.length + 11 < 2 ^ 63)
    (hsmall' : data'.length + 11 < 2 ^ 63) (hlen : len_text (data.length + 11) = some data_len)
    (hlen' : len_text (data'.length + 11) = some data_len')
    (h : command_of type_byte data key_len key data_len =
      command_of type_byte data' key_len key data_len') : data = data' := by
  simp only [command_of, List.append_cancel_left_eq] at h
  have hsum := congrArg List.length h
  simp only [List.length_append, dump_length, len_text_length hsmall hlen,
    len_text_length hsmall' hlen'] at hsum
  have hdata : data.length = data'.length := by
    rcases Nat.lt_trichotomy data.length data'.length with hlt | heq | hgt
    · have := decimal_mono (m := data.length + 11) (n := data'.length + 11) (by omega)
      omega
    · exact heq
    · have := decimal_mono (m := data'.length + 11) (n := data.length + 11) (by omega)
      omega
  rw [hdata, hlen', Option.some.injEq] at hlen
  rw [hlen] at h
  have hdump := List.append_cancel_right (List.append_cancel_left h)
  exact (List.append_inj (List.cons.inj hdump).2 hdata).1

theorem format.Record.printed_ne_nil {r : Record E V} {text : List UInt8} (h : r.printed = some text) :
    text ≠ [] := by
  rw [Record.printed, Option.bind_eq_some_iff] at h
  obtain ⟨key_len, -, h⟩ := h
  obtain ⟨data_len, -, rfl⟩ := Option.map_eq_some_iff.mp h
  exact List.cons_ne_nil _ _

/-- The command that a record is to have is written for it if and only if the file mirrors it. -/
theorem KeyDone.key_command_mirrored_iff (h : KeyDone filter prev c r t o) (hbuf : c.Buffers file)
    (hlong : file.length < 2 ^ 63) (hstart : c.start_offset = 0 ∨ 9 ≤ c.start_offset)
    (hheader : 9 ≤ c.start_offset + c.offset) {rest : List UInt8} (hv : c.Views (r.bytes ++ rest))
    (hraw : r.key.is_raw = true) (hmatch : verdict filter r.key.val = .data_out) {out : RestoreOutput}
    (hreplace : out.use_replace = true) {text : List UInt8} (hprinted : r.printed = some text) :
    out.key_command E o t = some text ↔ r.Mirrored file (c.offset, c.start_offset) := by
  rw [h.write_restore_cmd, Record.Mirrored]
  by_cases hbefore : c.start_offset ≤ r.type_at c.offset
  · have hend := r.end_at c.offset
    have hat : c.offset ≤ r.type_at c.offset := Nat.le_add_right _ _
    have hsize := hbuf.header_size hv hstart hbefore
    have hbytes : r.key.bytes.length = r.key.hdr.bytes.length + r.key.text.length := by
      obtain ⟨len, text, hlen, hkey⟩ := StoredStr.eq_raw hraw
      rw [hkey, StoredStr.bytes, List.length_append]
      rfl
    have hbounds := RdbLength.decode_buf_size_bounds {}
      (Mem.ofList (file.drop (r.type_at c.offset + 1)) fun _ => 0)
    generalize hsz : (RdbLength.decode_buf {} (Mem.ofList (file.drop (r.type_at c.offset + 1)) fun _ => 0)).1
      = sz at hsize hbounds
    have hends := hbuf.ends
    have hle := hv.le
    -- where the code takes the value from
    obtain ⟨start', hstart'⟩ : ∃ start' : Nat, (start' : Int) =
        (r.type_at c.offset - c.start_offset : Nat) + 1 + sz + r.key.text.length :=
      ⟨((r.type_at c.offset - c.start_offset : Nat) + 1 + sz + r.key.text.length).toNat, by omega⟩
    have hdata_start : RestoreOutput.data_start { c.buf with pos := 0 } true t.dec.key
        (r.type_at c.offset - c.start_offset) = start' := by
      rw [RestoreOutput.data_start, if_pos rfl, (h.fwrite_raw hbuf.blk hraw).1]
      have hmem0 : (({ c.buf with pos := 0 } : Cursor).add
          (r.type_at c.offset - c.start_offset + 1)).ptr.mem =
          c.buf.mem.add (r.type_at c.offset - c.start_offset + 1) := by
        simp [Cursor.ptr, Cursor.add]
      rw [hmem0]
      simp only [hsize]
      omega
    have hdump := dump_length (Encoding.type_byte r.value) r.data
    have hpos := r.key.bytes_length_pos
    have hdata_small : r.data.length + 11 < 2 ^ 63 := by omega
    rw [if_pos ⟨hmatch, hbefore⟩, h.command_eq hbuf.pos hv hbuf.blk hraw (h.callbacks out).2
      (by rw [RestoreOutput.callbacks_use_replace, hreplace]) hdata_start]
    rw [Record.printed, Option.bind_eq_some_iff] at hprinted
    obtain ⟨key_len, hkey_len, hprinted⟩ := hprinted
    obtain ⟨data_len, hdata_len, rfl⟩ := Option.map_eq_some_iff.mp hprinted
    rw [hkey_len, Option.bind_some]
    rw [hdump] at hdata_len
    constructor
    · intro hcmd
      split at hcmd
      · cases hcmd
      · next hafter =>
        obtain ⟨data_len', hdata_len', heq⟩ := Option.map_eq_some_iff.mp hcmd
        rw [Nat.mod_eq_of_lt (by omega)] at hdata_len'
        have hsmall := len_text_small (by omega) hdata_len'
        have hlen' := Mem.take_length (c.buf.mem.add start') (c.offset + r.bytes.length - c.start_offset - start')
        rw [← hlen'] at hsmall hdata_len'
        have hvalue := RestoreOutput.command_of_data hsmall hdata_small hdata_len' hdata_len heq
        have hlen := congrArg List.length hvalue
        rw [Mem.take_length] at hlen
        refine ⟨hbefore, by omega, ?_⟩
        rw [hlen, hbuf.take (by omega)] at hvalue
        rw [show r.type_at c.offset + 1 + r.key.bytes.length = c.start_offset + start' by omega]
        exact hvalue
    · rintro ⟨-, rfl, hdata⟩
      have hlen : c.offset + r.bytes.length - c.start_offset - start' = r.data.length := by omega
      have htake : (c.buf.mem.add start').take r.data.length = r.data := by
        rw [hbuf.take (by omega),
          show c.start_offset + start' = r.type_at c.offset + 1 + r.key.bytes.length by omega]
        exact hdata
      rw [if_neg (by omega), hlen, htake, Nat.mod_eq_of_lt (by omega), hdata_len]
      rfl
  · rw [if_neg fun h => hbefore h.2]
    refine ⟨fun heq => absurd (Option.some.inj heq).symm (r.printed_ne_nil hprinted), fun h => absurd h.1 hbefore⟩

/-- Lists that are the same without what `p` drops, the first having something to drop wherever the
second has. -/
theorem filter_eq_of_forall₂ {α : Type} {p : α → Bool} {as bs : List α}
    (h : List.Forall₂ (fun a b => p b = false → a = b) as bs) (hfilter : as.filter p = bs.filter p) :
    as = bs := by
  have hle : ∀ {as bs : List α}, List.Forall₂ (fun a b => p b = false → a = b) as bs →
      (as.filter p).length ≤ (bs.filter p).length := by
    intro as bs h
    induction h with
    | nil => exact Nat.le_refl _
    | @cons a b as bs hab _ ih =>
      cases hb : p b with
      | false => simpa [hab hb, hb] using ih
      | true =>
        rw [List.filter_cons_of_pos hb, List.filter_cons]
        split
        · exact Nat.succ_le_succ ih
        · exact Nat.le_succ_of_le ih
  induction h with
  | nil => rfl
  | @cons a b as bs hab htail ih =>
    cases hb : p b with
    | false =>
      obtain rfl := hab hb
      rw [List.filter_cons_of_neg (by simp [hb]), List.filter_cons_of_neg (by simp [hb])] at hfilter
      rw [ih hfilter]
    | true =>
      rw [List.filter_cons_of_pos hb, List.filter_cons] at hfilter
      split at hfilter
      · rw [(List.cons.inj hfilter).1, ih (List.cons.inj hfilter).2]
      · have hlen := congrArg List.length hfilter
        have := hle htail
        rw [List.length_cons] at hlen
        omega

/-- What a record has written for it, in a buffer that starts with the file. -/
def format.Record.written (verdict : RdbVal → Dest) (r : Record E V) : Option (List UInt8) :=
  if verdict r.key.val = .data_out then r.printed else some []

/-- The commands for records whose keys are stored raw, in a buffer that starts with the file. -/
theorem KeysDone.commands_mapped {rs : List (Record E V × Nat × Nat)} {ks : List (List Event × St)}
    (h : KeysDone filter file prev rs ks) (hlong : file.length < 2 ^ 63)
    (hraw : ∀ x ∈ rs, x.1.key.is_raw = true) (hplaces : ∀ x ∈ rs, 9 ≤ x.2.1 ∧ x.2.2 = 0)
    {out : RestoreOutput} (hreplace : out.use_replace = true) :
    RestoreOutput.commands E out ks = rs.map fun x => x.1.written (verdict filter) := by
  have hall : List.Forall₂ (fun x cmd => cmd = Record.written (verdict filter) x.1 ↔ True) rs
      (RestoreOutput.commands E out ks) := by
    refine forall₂_of_mem (A := fun x => x.1.key.is_raw = true ∧ 9 ≤ x.2.1 ∧ x.2.2 = 0)
      (h.commands_forall hreplace ?_) fun x hx => ⟨hraw x hx, hplaces x hx⟩
    rintro prev c r t o rest out hbuf hv hdone hreplace ⟨hraw, hheader, hstart⟩
    have hends := hbuf.ends
    exact iff_true_intro (hdone.key_command_printed hbuf.pos hstart hv (by omega) hbuf.blk hraw hreplace)
  exact (forall₂_eq_map_iff hall).mpr fun _ _ => trivial

/-- The commands for records whose keys are stored raw, in buffers refilled along the file: none where
the buffer that starts with the file has none, and that one where the file mirrors the record. -/
theorem KeysDone.commands_refilled {rs : List (Record E V × Nat × Nat)} {ks : List (List Event × St)}
    (h : KeysDone filter file prev rs ks) (hlong : file.length < 2 ^ 63)
    (hraw : ∀ x ∈ rs, x.1.key.is_raw = true)
    (hplaces : ∀ x ∈ rs, (x.2.2 = 0 ∨ 9 ≤ x.2.2) ∧ 9 ≤ x.2.2 + x.2.1) {out : RestoreOutput}
    (hreplace : out.use_replace = true)
    (hprinted : ∀ x ∈ rs, verdict filter x.1.key.val = .data_out → x.1.printed.isSome = true) :
    List.Forall₂ (fun x cmd =>
        (x.1.written (verdict filter) = some [] → cmd = x.1.written (verdict filter)) ∧
        (cmd = x.1.written (verdict filter) ↔
          (verdict filter x.1.key.val = .data_out → x.1.Mirrored file x.2)))
      rs (RestoreOutput.commands E out ks) := by
  refine forall₂_of_mem (A := fun x => x.1.key.is_raw = true ∧ ((x.2.2 = 0 ∨ 9 ≤ x.2.2) ∧
      9 ≤ x.2.2 + x.2.1) ∧ (verdict filter x.1.key.val = .data_out → x.1.printed.isSome = true))
    (h.commands_forall hreplace ?_) fun x hx => ⟨hraw x hx, hplaces x hx, hprinted x hx⟩
  rintro prev c r t o rest out hbuf hv hdone hreplace ⟨hraw, ⟨hstart, hheader⟩, hprinted⟩
  by_cases hmatch : verdict filter r.key.val = .data_out
  · obtain ⟨text, htext⟩ := Option.isSome_iff_exists.mp (hprinted hmatch)
    rw [Record.written, if_pos hmatch, htext, hdone.key_command_mirrored_iff hbuf hlong hstart hheader hv
      hraw hmatch hreplace htext]
    exact ⟨fun h => absurd (Option.some.inj h) (r.printed_ne_nil htext), fun h _ => h, fun h => h hmatch⟩
  · rw [Record.written, if_neg hmatch, hdone.write_restore_cmd, if_neg fun h => hmatch h.1]
    exact ⟨fun _ => rfl, fun _ h => absurd h hmatch, fun _ => rfl⟩

/-- The places of records in buffers refilled along a file, behind its version header. -/
theorem places_refilled {size total offset start_offset : Nat} (lens : List Nat)
    (hstart : start_offset = 0 ∨ 9 ≤ start_offset) (hheader : 9 ≤ start_offset + offset) :
    ∀ p ∈ places size total offset start_offset lens, (p.2 = 0 ∨ 9 ≤ p.2) ∧ 9 ≤ p.2 + p.1 := by
  induction lens generalizing offset start_offset with
  | nil => simp [places]
  | cons n lens ih =>
    rw [places, List.forall_mem_cons]
    refine ⟨⟨hstart, hheader⟩, ?_⟩
    unfold next_place
    split
    · exact ih (by omega) (by omega)
    · exact ih hstart (by omega)

/-- What is written for commands: all of them but the empty ones. -/
def RestoreOutput.Written (cmds cmds' : List (Option (List UInt8))) : Prop :=
  (∀ cmd ∈ cmds', cmd.isSome = true) ∧ cmds.filter (· ≠ some []) = cmds'.filter (· ≠ some [])

/-- The commands for a file that goes through a buffer are those of the mapped file if and only if each
record that is let through has a command, and the file mirrors it. -/
theorem KeysDone.written_iff {rs rs' : List (Record E V × Nat × Nat)} {ks ks' : List (List Event × St)}
    (h : KeysDone filter file prev rs ks) (h' : KeysDone filter file prev rs' ks')
    (hsame : rs'.map Prod.fst = rs.map Prod.fst) (hlong : file.length < 2 ^ 63)
    (hraw : ∀ r ∈ rs.map Prod.fst, r.key.is_raw = true)
    (hplaces : ∀ x ∈ rs, (x.2.2 = 0 ∨ 9 ≤ x.2.2) ∧ 9 ≤ x.2.2 + x.2.1)
    (hplaces' : ∀ x ∈ rs', 9 ≤ x.2.1 ∧ x.2.2 = 0) {out : RestoreOutput}
    (hreplace : out.use_replace = true) :
    RestoreOutput.Written (RestoreOutput.commands E out ks) (RestoreOutput.commands E out ks') ↔
      ∀ x ∈ rs, verdict filter x.1.key.val = .data_out →
        x.1.printed.isSome = true ∧ x.1.Mirrored file x.2 := by
  have hraw' : ∀ x ∈ rs', x.1.key.is_raw = true := by
    intro x hx
    exact hraw _ (hsame ▸ List.mem_map_of_mem hx)
  have hmapped : RestoreOutput.commands E out ks' = rs.map fun x => x.1.written (verdict filter) := by
    rw [h'.commands_mapped hlong hraw' hplaces' hreplace]
    have hmap := congrArg (List.map (Record.written (verdict filter))) hsame
    rwa [List.map_map, List.map_map] at hmap
  have hrefilled := h.commands_refilled hlong (fun x hx => hraw _ (List.mem_map_of_mem hx)) hplaces hreplace
  rw [RestoreOutput.Written, hmapped, List.forall_mem_map]
  constructor
  · rintro ⟨hsome, hfilter⟩
    have hprinted : ∀ x ∈ rs, verdict filter x.1.key.val = .data_out → x.1.printed.isSome = true := by
      intro x hx hmatch
      have := hsome x hx
      rwa [Record.written, if_pos hmatch] at this
    have hall := hrefilled hprinted
    have hsame : RestoreOutput.commands E out ks = rs.map fun x => x.1.written (verdict filter) := by
      refine filter_eq_of_forall₂ (List.forall₂_map_right_iff.mpr (.flip (hall.imp ?_))) hfilter
      intro x cmd hx hempty
      exact hx.1 (by simpa using hempty)
    have hmirrored := (forall₂_eq_map_iff (hall.imp fun _ _ h => h.2)).mp hsame
    exact fun x hx hmatch => ⟨hprinted x hx hmatch, hmirrored x hx hmatch⟩
  · intro hall
    have hcmds := (forall₂_eq_map_iff ((hrefilled fun x hx hmatch =>
      (hall x hx hmatch).1).imp fun _ _ h => h.2)).mpr fun x hx hmatch => (hall x hx hmatch).2
    refine ⟨fun x hx => ?_, congrArg _ hcmds⟩
    rw [Record.written]
    split
    · next hmatch => exact (hall x hx hmatch).1
    · rfl

/-- The records of a file that are done with, and their places in buffers of the given size. -/
def format.RdbFile.placed (f : RdbFile E V) (size : Nat) : List (Record E V × Nat × Nat) :=
  (Record.reached f.records).zip
    (places size f.bytes.length 9 0 (f.records.map fun r => r.bytes.length))

theorem format.RdbFile.placed_fst (f : RdbFile E V) (size : Nat) :
    (f.placed size).map Prod.fst = Record.reached f.records := by
  apply List.map_fst_zip
  rw [places_length, List.length_map]
  exact (List.takeWhile_sublist _).length_le

/-- The commands for a file that is read from stdin through a buffer are those of the mapped file. -/
def format.RdbFile.Refills (f : RdbFile E V) (filter : Option (RdbVal → Bool)) (size : Nat)
    (out : RestoreOutput) : Prop :=
  ∀ mem past map_size, ∃ run run', (Input.stdin_buf mem size f.bytes).Delivers E filter run ∧
    (Input.map f.bytes past map_size).Delivers E filter run' ∧
    RestoreOutput.Written (RestoreOutput.commands E out run.keys) (RestoreOutput.commands E out run'.keys)

/-- What is written for a file that goes through a buffer is what is written for it mapped if and only if each record
that is let through has lengths that can be printed, and the file mirrors it. -/
theorem format.RdbFile.refills_iff [Decodes E V] (f : RdbFile E V) (hlong : f.bytes.length < 2 ^ 63)
    (hraw : ∀ r ∈ f.records, r.key.is_raw = true) {size : Nat} (hsize : 18 < size)
    (hrecords : ∀ r ∈ f.records, 2 * r.bytes.length < size) {out : RestoreOutput}
    (hreplace : out.use_replace = true) :
    f.Refills filter size out ↔ ∀ x ∈ f.placed size, verdict filter x.1.key.val = .data_out →
      x.1.printed.isSome = true ∧ x.1.Mirrored f.bytes x.2 := by
  have hiff : ∀ mem past map_size, ∃ run run', (Input.stdin_buf mem size f.bytes).Delivers E filter run ∧
      (Input.map f.bytes past map_size).Delivers E filter run' ∧
      (RestoreOutput.Written (RestoreOutput.commands E out run.keys)
          (RestoreOutput.commands E out run'.keys) ↔
        ∀ x ∈ f.placed size, verdict filter x.1.key.val = .data_out →
          x.1.printed.isSome = true ∧ x.1.Mirrored f.bytes x.2) := by
    intro mem past map_size
    obtain ⟨ht, htsize⟩ := Input.stdin_tracks f mem hsize
    obtain ⟨run, hrun, -, hkeys⟩ := Input.run_file filter f ht
      (.inr (by rw [htsize]; exact ⟨hsize, hrecords⟩))
    obtain ⟨run', hrun', -, hkeys'⟩ := Input.run_file filter f
      (Input.map_tracks f.bytes past map_size) (.inl rfl)
    refine ⟨run, run', hrun, hrun', KeysDone.written_iff hkeys hkeys'
      ((f.placed_fst _).trans (f.placed_fst size).symm) hlong ?_ ?_ ?_ hreplace⟩
    · intro r hr
      have hmem : r ∈ Record.reached f.records := f.placed_fst size ▸ hr
      exact hraw r ((List.takeWhile_sublist _).mem hmem)
    · exact fun x hx => places_refilled _ (.inl rfl) (by omega) x.2 (List.of_mem_zip hx).2
    · exact fun x hx => places_mapped _ _ _ x.2 (List.of_mem_zip hx).2
  constructor
  · intro h
    obtain ⟨run, run', hrun, hrun', hcmds⟩ := h 0 0 0
    obtain ⟨run₁, run₁', hrun₁, hrun₁', h₁⟩ := hiff 0 0 0
    rw [hrun.unique hrun₁, hrun'.unique hrun₁'] at hcmds
    exact h₁.mp hcmds
  · intro h mem past map_size
    obtain ⟨run, run', hrun, hrun', h₁⟩ := hiff mem past map_size
    exact ⟨run, run', hrun, hrun', h₁.mpr h⟩

/-- With `-r`, a file of records whose keys are stored raw has the same commands written when it is read
from stdin as when it is mapped if and only if each record that the filter lets through has lengths that
can be printed, and the file mirrors it: what it has at the offset of the record in the buffer, counted
from the start of the file, is a key header of the same size and the same value behind the key, and the
buffer starts no further into the file than the type is in the buffer. -/
theorem main_stdin_restore_iff (f : RdbFile E (Value E)) (hlong : f.bytes.length < 2 ^ 63)
    (hraw : ∀ r ∈ f.records, r.key.is_raw = true) (filter : Option (RdbVal → Bool)) {size : Nat}
    (hheader : 2 * (header f.ver).length < size) (hrecords : ∀ r ∈ f.records, 2 * r.bytes.length < size)
    {out : RestoreOutput} (hreplace : out.use_replace = true) :
    f.Refills filter size out ↔ ∀ x ∈ f.placed size, verdict filter x.1.key.val = .data_out →
      x.1.printed.isSome = true ∧ x.1.Mirrored f.bytes x.2 := by
  rw [header_length] at hheader
  exact f.refills_iff hlong hraw (by omega) hrecords hreplace

/-- A file of four lists. -/
def format.RdbFile.raw_lists : RdbFile Env.literal (Value Env.literal) :=
  RdbFile.raw.with_records (List.replicate 4 RdbFile.raw.records).flatten

/-- The same file with "m" for the key of the last two lists, which are in the second buffer. -/
def format.RdbFile.raw_keys : RdbFile Env.literal (Value Env.literal) :=
  RdbFile.raw.with_records (RdbFile.raw_lists.records.take 2 ++
    (RdbFile.raw_lists.records.drop 2).map fun r => { r with key := .letter 0x6d })

/-- The lists in front of the refill are let through, and those behind it are not. -/
theorem main_stdin_restore_keys :
    RdbFile.raw_keys.Refills (some fun key => key = .str [0x6b]) 70 ⟨true, false, 0, 0, 0, 0⟩ := by
  refine (main_stdin_restore_iff RdbFile.raw_keys (by decide) (by decide) (some fun key => key = .str [0x6b])
    (by decide) (by decide) rfl).mpr ?_
  decide

/-- The list that the second buffer starts with is not restored. -/
theorem main_stdin_not_restored :
    ¬ ∀ (E : Env) (f : RdbFile E (Value E)) (size : Nat) (out : RestoreOutput),
      (∀ r ∈ f.records, r.key.is_raw = true) →
      (∀ r ∈ f.records.head?, 2 * ((header f.ver).length + r.bytes.length) < size) →
      (∀ r ∈ f.records.tail, 2 * r.bytes.length < size) → out.use_replace = true →
      f.Refills none size out := by
  intro h
  have hrefills := h _ RdbFile.raw_lists 70 ⟨true, false, 0, 0, 0, 0⟩ (by decide) (by decide) (by decide) rfl
  have hall := (RdbFile.raw_lists.refills_iff (by decide) (by decide) (by decide) (by decide) rfl).mp hrefills
  revert hall
  decide

end rdbparser
