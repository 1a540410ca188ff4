import Rdbparser.Keys.Passed
import Rdbparser.Restore.Dump
import Rdbparser.Stream.Stored

namespace rdbparser

open format RdbDecode DecodeProc

variable {E : Env} {V : Type} [Encoding E V] {filter : Option (RdbVal → Bool)}

/-- The parts of the values that were handed out. -/
def values (o : List Event) : List Callback := (o.map Event.call).filter Callback.of_value

theorem values_eq (o : List Event) : values o = ((o.map Event.sent).map Prod.snd).filter Callback.of_value := by
  rw [values, List.map_map]
  rfl

theorem values_calls (v : V) : (Encoding.calls v).filter Callback.of_value = Encoding.calls v :=
  List.filter_eq_self.mpr (Encoding.of_value v)

theorem format.Meta.calls_of_value (ms : List (Meta E)) :
    (ms.flatMap Meta.calls).filter Callback.of_value = [] := by
  rw [List.filter_eq_nil_iff]
  intro k hk
  obtain ⟨m, -, hk⟩ := List.mem_flatMap.mp hk
  cases m <;> simp [Meta.calls] at hk <;> subst hk <;> exact Bool.false_ne_true

/-- Between the opcodes, the type and the start of a key and its end there is only its value. -/
theorem values_framed {o : List Event} {metas : List Callback} (hmetas : metas.filter Callback.of_value = [])
    {v : V} (prev : Dest) {d : Dest} {key : RdbVal}
    (ho : o.map Event.sent = metas.map (prev, ·) ++ (.data_out, .d_start_type (Encoding.type v)) ::
      (d, .d_start_key (Encoding.type v) key) ::
        ((Encoding.calls v).map (d, ·) ++ [(d, .d_end_key (Encoding.type v))])) :
    values o = Encoding.calls v := by
  have hcalls : ∀ (d : Dest) (ks : List Callback), (ks.map (d, ·)).map Prod.snd = ks := by
    intro d ks
    rw [List.map_map]
    exact List.map_id ks
  rw [values_eq, ho]
  simp only [List.map_append, List.map_cons, hcalls, List.filter_append, hmetas, List.nil_append,
    List.filter_cons, Callback.of_value, values_calls, Bool.false_eq_true, if_false, List.map_nil,
    List.filter_nil, List.append_nil]

theorem KeyDone.values {prev : Dest} {c : Place} {r : Record E V} {t : St} {o : List Event}
    (h : KeyDone filter prev c r t o) : values o = Encoding.calls r.value :=
  values_framed (Meta.calls_of_value r.metas) prev h.trace

/-- A record as one of several kinds. -/
def format.Record.inl (W : Type) (r : Record E V) : Record E (V ⊕ W) := ⟨r.metas, r.key, .inl r.value⟩

/-- After the first `k` keys of a file in one buffer, the key `r` is decoded, its command is written if the
filter lets it through and nothing is if it does not, and the dump in the command is decoded to the same values
by another decoder. -/
def format.RdbFile.RestoresAt {W : Type} [Encoding E W] (f : RdbFile E W) (k : Nat) (r : Record E V)
    (filter : Option (RdbVal → Bool)) (past past' : Mem) (out : RestoreOutput) : Prop :=
  ∃ s o t o', Proc.count (fun _ => next_key E) 0 k
      (St.start filter ⟨.input, Mem.ofList f.bytes past, 0⟩ f.bytes.length) = ⟨.ok (), s, o⟩ ∧
    next_key E s = ⟨.ok (), t, o'⟩ ∧
    out.key_command E o' t =
      some (if verdict filter r.key.val = .data_out then r.command else []) ∧
    ∃ u o'', next_key E (St.start none
        ⟨.input, Mem.ofList (dump (Encoding.type_byte r.value) r.data) past', 0⟩
        (dump (Encoding.type_byte r.value) r.data).length) = ⟨.ok (), u, o''⟩ ∧
      values o'' = values o'

section

variable {W : Type} [Encoding E W] [Passable E W] [Decodes E V] (f : RdbFile E (V ⊕ W))
  {pre post : List (Record E (V ⊕ W))} {r : Record E V} (hf : f.records = pre ++ r.inl W :: post)

include hf

/-- A record behind others that are passed, with no opcode that fails in front of it. -/
theorem format.RdbFile.restoresAt_of_passed (hpre : ∀ r' ∈ pre, r'.Passed) (hgood : ∀ m ∈ r.metas, m.fails = none)
    (hraw : r.key.is_raw = true) (hsize : f.bytes.length < 10 ^ 12) (filter : Option (RdbVal → Bool)) (past past' : Mem)
    {out : RestoreOutput} (hreplace : out.use_replace = true) : f.RestoresAt pre.length r filter past past' out := by
  have hv := f.views past
  have hbody : f.body = pre.flatMap Record.bytes ++ ((r.inl W).bytes ++ post.flatMap Record.bytes) := by
    rw [RdbFile.body, hf, List.flatMap_append, List.flatMap_cons]
  rw [hbody, List.append_assoc, List.append_assoc] at hv
  have hat := St.start_atRecord (E := E) filter _ f.hver (by simp) hv
  obtain ⟨s, prev, o, hkeys, hat', -⟩ :=
    hat.next_keys pre (fun r' hr' => Passable.decoded (hpre r' hr').2) hv.adv (by simp)
    (fun r' hr' => (hpre r' hr').1) 0
  have hvalue : Encoding.Decoded (r.inl W).value := fun _ _ _ htype hrlen hs hv =>
    Decodes.decode_body_run r.value htype hrlen hs hv
  obtain ⟨t, o', hkey, hdone⟩ := hat'.next_key (r.inl W) hvalue hv.adv.adv (by simp) hgood
  obtain ⟨u, o'', hdump, ho''⟩ := next_key_dump r.value past'
  have hlen := hv.1
  simp only [List.length_append, header_length, (r.inl W).bytes_eq, List.length_cons] at hlen
  have htext : r.key.text.length ≤ r.key.bytes.length := by
    obtain ⟨len, text, hlen, hkey⟩ := StoredStr.eq_raw hraw
    rw [hkey, StoredStr.bytes, List.length_append]
    exact Nat.le_add_left _ _
  have hpos := r.key.bytes_length_pos
  have hdata : (r.inl W).data = r.data := rfl
  have hkeyeq : (r.inl W).key = r.key := rfl
  rw [hdata, hkeyeq] at hlen
  refine ⟨s, o, t, o', hkeys, hkey, ?_, u, o'', hdump, ?_⟩
  · refine hdone.key_command_raw (by simp) rfl hv.adv.adv ?_ rfl hraw ?_ ?_ hreplace
    · simp only [Place.adv_offset, Place.adv_avail]
      omega
    · rw [hkeyeq]
      omega
    · rw [dump_length, hdata]
      omega
  · rw [hdone.values]
    exact values_framed List.filter_nil .data_out ho''

/-- A record that is restored is behind others that are passed. -/
theorem format.RdbFile.passed_of_restoresAt {filter : Option (RdbVal → Bool)} {past past' : Mem} {out : RestoreOutput}
    (h : f.RestoresAt pre.length r filter past past' out) :
    (∀ r' ∈ pre, r'.Passed) ∧ ∀ m ∈ r.metas, m.fails = none := by
  obtain ⟨s, o, t, o', hkeys, hkey, -⟩ := h
  have hv := f.views past
  have hbody : f.body = pre.flatMap Record.bytes ++ ((r.inl W).bytes ++ post.flatMap Record.bytes) := by
    rw [RdbFile.body, hf, List.flatMap_append, List.flatMap_cons]
  rw [hbody, List.append_assoc, List.append_assoc] at hv
  have hat := St.start_atRecord (E := E) filter _ f.hver (by simp) hv
  have hpre := hat.next_keys_passed pre hv.adv (by simp) hkeys
  obtain ⟨s', prev, o₁, hkeys', hat', -⟩ := hat.next_keys pre (fun r' hr' => Passable.decoded (hpre r' hr').2) hv.adv
    (by simp) (fun r' hr' => (hpre r' hr').1) 0
  obtain ⟨-, rfl, -⟩ := Run.mk.inj (hkeys.symm.trans hkeys')
  refine ⟨hpre, ?_⟩
  by_contra hbad
  obtain ⟨e, herr⟩ := hat'.next_key_stops (r.inl W) hv.adv.adv fun hpassed => hbad hpassed.1
  rw [hkey] at herr
  cases herr

end

/-- The values a file can hold, by the types they are stored as: strings, lists, sets and hashes, sorted sets,
values that are packed in one string, quicklists and streams. -/
abbrev format.FileValue (E : Env) : Type :=
  Value E ⊕ ZSet E ⊕ PackedValue E ⊕ IntsetValue E ⊕ QuickValue E ⊕ QuickParts E ⊕ StoredStream E

/-- In a file in one buffer, the command for a string, list, set or hash whose key is stored raw is written, if
the filter lets it through, and what it restores is the value of the record, if and only if the decoder gets
past every record in front of it and no opcode in front of it fails. The records in front may be of any type,
their keys and elements of any form; nothing is assumed of those behind. -/
theorem restore_file_iff (f : RdbFile E (FileValue E)) {pre post : List (Record E (FileValue E))}
    {r : Record E (Value E)}
    (hf : f.records = pre ++ r.inl _ :: post) (hraw : r.key.is_raw = true) (hsize : f.bytes.length < 10 ^ 12)
    (filter : Option (RdbVal → Bool)) (past past' : Mem) {out : RestoreOutput} (hreplace : out.use_replace = true) :
    f.RestoresAt pre.length r filter past past' out ↔
      (∀ r' ∈ pre, r'.Passed) ∧ ∀ m ∈ r.metas, m.fails = none :=
  ⟨f.passed_of_restoresAt hf, fun h => f.restoresAt_of_passed hf h.1 h.2 hraw hsize filter past past' hreplace⟩

/-- A file with the list "k", whose only element is compressed. -/
def format.RdbFile.raw : RdbFile Env.literal (Value Env.literal) :=
  RdbFile.compressed.with_records (RdbFile.compressed.records.map fun r => { r with key := .letter 0x6b })

theorem format.RdbFile.raw_records : RdbFile.raw.records ≠ [] := by decide

/-- This list. -/
def format.Record.raw : Record Env.literal (Value Env.literal) := RdbFile.raw.records.head RdbFile.raw_records

theorem format.ScoreBits.zero_fits : 0 < 2 ^ 64 := by decide

/-- A sorted set with the one member "a" and the score 0. -/
def format.ZSet.letter : ZSet Env.literal :=
  .zset_2 (.short 1) [(.letter 0x61, ⟨0, ScoreBits.zero_fits⟩)] StoredLen.short_one

theorem format.StoredStream.one_counted : ∀ x ∈ [StreamNode.one], x.block.Counted :=
  List.forall_mem_singleton.mpr ⟨rfl, rfl⟩

/-- The stream of one entry, which the consumer of its group has pending. -/
def format.StoredStream.one : StoredStream Env.literal := ⟨.short 1, [.one], .pending, StoredLen.short_one, one_counted⟩

theorem format.QuickValue.two_nodes : (StoredLen.short 2).val = 2 := rfl

/-- The quicklist of two nodes. -/
def format.QuickValue.two : QuickValue Env.literal := ⟨.short 2, .ziplists [.two, .two], two_nodes⟩

/-- A sorted set, a quicklist and a stream, with an AUX field in front of them. -/
def format.Record.others : List (Record Env.literal (FileValue Env.literal)) :=
  [⟨[.aux (.literal 0x61) (.letter 0x62)], .letter 0x7a, .inr (.inl .letter)⟩,
    ⟨[.dbselect (.short 3)], .literal 0x71, .inr (.inr (.inr (.inr (.inl .two))))⟩,
    ⟨[], .letter 0x73, .inr (.inr (.inr (.inr (.inr (.inr .one)))))⟩]

/-- The list behind other records. -/
def format.RdbFile.behind (pre : List (Record Env.literal (FileValue Env.literal))) :
    RdbFile Env.literal (FileValue Env.literal) where
  ver := RdbFile.compressed.ver
  hver := RdbFile.compressed_ver
  records := pre ++ [Record.raw.inl _]
  crc := RdbFile.compressed.crc
  hcrc := RdbFile.compressed_crc

/-- A list behind a sorted set, a quicklist and a stream, with an AUX field in front of them. -/
theorem restore_file_behind :
    (RdbFile.behind Record.others).RestoresAt 3 Record.raw (some fun key => key = .str [0x6b]) 0 0 ⟨true,
      false, 0, 0, 0, 0⟩ := by
  have hrecords : (RdbFile.behind Record.others).records = Record.others ++ Record.raw.inl _ :: [] := rfl
  refine (restore_file_iff (RdbFile.behind Record.others) hrecords rfl (by decide +kernel) _ 0 0 rfl).mpr ⟨?_,
    by decide⟩
  have hstream : Passable.passable StoredStream.one := ⟨⟨by decide, by decide, by decide⟩, by decide⟩
  refine List.forall_mem_cons.mpr ⟨⟨by decide, ?_⟩, List.forall_mem_cons.mpr ⟨⟨by decide, trivial⟩,
    List.forall_mem_singleton.mpr ⟨by decide, hstream⟩⟩⟩
  exact List.forall_mem_singleton.mpr rfl

/-- A sorted set whose one member is compressed. -/
def format.Record.shut : List (Record Env.literal (FileValue Env.literal)) :=
  [⟨[], .letter 0x7a, .inr (.inl .compressed)⟩]

/-- Behind it the list is not restored. -/
theorem restore_file_shut : ¬ ∀ (E : Env) (f : RdbFile E (FileValue E)) (pre post : List (Record E (FileValue E)))
    (r : Record E (Value E)), f.records = pre ++ r.inl _ :: post → r.key.is_raw = true → f.bytes.length < 10 ^ 12 →
      ∀ (filter : Option (RdbVal → Bool)) (past past' : Mem) (out : RestoreOutput), out.use_replace = true →
        f.RestoresAt pre.length r filter past past' out := by
  intro h
  have hrecords : (RdbFile.behind Record.shut).records = Record.shut ++ Record.raw.inl _ :: [] := rfl
  have hall := h _ (RdbFile.behind Record.shut) Record.shut [] Record.raw hrecords rfl (by decide) none 0 0
    ⟨true, false, 0, 0, 0, 0⟩ rfl
  have hpassed := ((RdbFile.behind Record.shut).passed_of_restoresAt hrecords hall).1
  have hmember := (hpassed _ List.mem_cons_self).2
  have hlzf : (StoredStr.literal 0x61).is_lzf = false := hmember _ List.mem_cons_self
  cases hlzf

end rdbparser
