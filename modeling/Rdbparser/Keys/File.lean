import Rdbparser.Keys

namespace rdbparser

open format RdbDecode DecodeProc

variable {E : Env} {V : Type} [Encoding E V] {filter : Option (RdbVal → Bool)}

/-- `decode_hdr` goes on at `c`, in a file whose version header is read or is read on the way;
`prev` is the output of the key before. -/
def St.AtRecord (E : Env) (filter : Option (RdbVal → Bool)) (prev : Dest) (s : St) (c : Place) :
    Prop :=
  ∃ t, decode_hdr E s = decode_hdr E t ∧ t.dec.Ready prev ∧ t.dec.filter = filter ∧ t.bptr.On c

/-- A decoder before a file is at its first record. -/
theorem St.start_atRecord (filter : Option (RdbVal → Bool)) (buf : Cursor) {sz ver : Nat} (hver : 0 < ver ∧ ver < 100)
    {rest : List UInt8} (hrest : rest ≠ []) (hv : Place.Views ⟨buf, sz, 0, 0⟩ (header ver ++ rest)) :
    (St.start filter buf sz).AtRecord E filter .data_out (Place.adv ⟨buf, sz, 0, 0⟩ 9) := by
  obtain ⟨t, hrun, hready, hfilter, hon⟩ := decode_hdr_first (E := E) hver
    (show (St.start filter buf sz).dec = { data_out := true, filter := filter } from rfl) ⟨rfl, rfl⟩ hv hrest
  exact ⟨t, hrun, hready, hfilter, hon⟩

/-- One key of a file. -/
theorem St.AtRecord.next_key {s : St} {c : Place} {prev : Dest} (h : s.AtRecord E filter prev c)
    (r : Record E V) (hvalue : Encoding.Decoded r.value) {rest : List UInt8} (hv : c.Views (r.bytes ++ rest))
    (hrest : rest ≠ []) (hgood : ∀ m ∈ r.metas, m.fails = none) :
    ∃ t o, next_key E s = ⟨.ok (), t, o⟩ ∧ KeyDone filter prev c r t o := by
  obtain ⟨t, hrun, hready, rfl, hon⟩ := h
  obtain ⟨u, o, hkey, hdone⟩ := next_key_record r hvalue hready hon hv hrest hgood
  exact ⟨u, o, (Proc.bind_congr_run hrun _).trans hkey, hdone⟩

/-- A record with an opcode that fails. -/
theorem St.AtRecord.fails {s : St} {c : Place} {prev : Dest} (h : s.AtRecord E filter prev c)
    {metas : List (Meta E)} {rest : List UInt8} (hv : c.Views (metas.flatMap Meta.bytes ++ rest))
    {e : RdbErrCode} (hbad : (Meta.sent metas).2 = some e) :
    ∃ t o, rdbparser.next_key E s = ⟨.error e, t, o⟩ ∧
      o.map Event.sent = (Meta.sent metas).1.map (prev, ·) := by
  obtain ⟨t, hrun, hready, -, hon⟩ := h
  obtain ⟨u, o, hhdr, ho⟩ := decode_hdr_fails hready hon hv hbad
  exact ⟨u, o, Proc.bind_error (hrun.trans hhdr), ho⟩

theorem KeyDone.atRecord {c : Place} {prev : Dest} {r : Record E V} {t : St} {o : List Event}
    (h : KeyDone filter prev c r t o) :
    t.AtRecord E filter (verdict filter r.key.val) (c.adv r.bytes.length) :=
  ⟨t, rfl, h.ready, h.filter_eq, h.on⟩

/-- The records of a file one after the other. -/
theorem St.AtRecord.next_keys (records : List (Record E V)) (hvalues : ∀ r ∈ records, Encoding.Decoded r.value)
    {s : St} {c : Place} {prev : Dest} (h : s.AtRecord E filter prev c) {rest : List UInt8}
    (hv : c.Views (records.flatMap Record.bytes ++ rest)) (hrest : rest ≠ [])
    (hgood : ∀ r ∈ records, ∀ m ∈ r.metas, m.fails = none) (i : Nat) :
    ∃ t d o, Proc.count (fun _ => rdbparser.next_key E) i records.length s = ⟨.ok (), t, o⟩ ∧
      t.AtRecord E filter d (c.adv (records.flatMap Record.bytes).length) ∧
      o.map Event.sent = Record.traces (verdict filter) prev records := by
  induction records generalizing s c prev i with
  | nil => exact ⟨s, prev, [], rfl, h, rfl⟩
  | cons r rs ih =>
    rw [List.flatMap_cons, List.append_assoc] at hv
    obtain ⟨t, o, hkey, hdone⟩ := h.next_key r (hvalues r List.mem_cons_self) hv (by simp [hrest])
      (hgood r List.mem_cons_self)
    obtain ⟨u, d, o', hkeys, hat', ho'⟩ := ih (fun r' hr' => hvalues r' (List.mem_cons_of_mem r hr'))
      hdone.atRecord hv.adv
      (fun r' hr' => hgood r' (List.mem_cons_of_mem r hr')) (i + 1)
    refine ⟨u, d, o ++ o', Proc.bind_ok hkey hkeys, ?_, ?_⟩
    · rwa [List.flatMap_cons, List.length_append, ← Place.adv_adv]
    · rw [List.map_append, hdone.trace, ho', Record.traces]

/-- The end marker of a file. -/
theorem St.AtRecord.eof {s : St} {c : Place} {prev : Dest} (h : s.AtRecord E filter prev c)
    {rest : List UInt8} (hv : c.Views (0xff :: rest)) :
    ∃ t, decode_hdr E s = ⟨.error .RDB_EOF_MARK, t, []⟩ := by
  obtain ⟨t, hrun, hready, -, hon⟩ := h
  obtain ⟨fuel, hfuel⟩ : ∃ k, t.bptr.avail + t.bptr.sav_avail = k + 1 :=
    ⟨t.bptr.avail + t.bptr.sav_avail - 1, by
      rw [hon.avail, hv.1, List.length_cons]
      omega⟩
  obtain ⟨b, hincr, -⟩ := hon.incr (n := 1) (by rw [hv.1]; simp)
  have hskip : skip 1 t = ⟨.ok (), { t with bptr := b }, []⟩ := by
    simp only [skip, Proc.update_run, hincr]
  have hloop : decode_meta_loop E (fuel + 1) t =
      ⟨.error .RDB_EOF_MARK, { t with bptr := b }, []⟩ := by
    rw [decode_meta_loop_succ hon hv (show get_rdb_meta 0xff = some .RDB_EOF from rfl), Proc.bind_quiet hskip]
    exact Proc.bind_error rfl
  refine ⟨{ t with bptr := b }, ?_⟩
  rw [hrun, decode_hdr_ready hready, hfuel]
  exact Proc.bind_error hloop

/-- Without a filter every callback goes to the real output. -/
theorem format.Record.traces_none (records : List (Record E V)) :
    Record.traces (verdict none) .data_out records =
      records.flatMap (Record.trace .data_out .data_out) := by
  induction records with
  | nil => rfl
  | cons r rs ih =>
    rw [List.flatMap_cons, ← ih]
    rfl

/-- A file in one buffer. -/
theorem format.RdbFile.views (f : RdbFile E V) (past : Mem) :
    Place.Views ⟨⟨.input, Mem.ofList f.bytes past, 0⟩, f.bytes.length, 0, 0⟩
      (header f.ver ++ (f.body ++ 0xff :: f.crc)) :=
  Place.ofList_views .input f.bytes past

/-- A file is decoded to the callbacks of its records, in the order of the file, up to the end marker, whatever
the form each of its keys and elements is stored in. Of its opcodes none may be one that fails; nothing is
assumed of the crc, nor of the memory behind the file. -/
theorem decode_file (f : RdbFile E (Value E)) (past : Mem)
    (hgood : ∀ r ∈ f.records, ∀ m ∈ r.metas, m.fails = none) :
    ∃ t o, Proc.count (fun _ => next_key E) 0 f.records.length
        (St.start none ⟨.input, Mem.ofList f.bytes past, 0⟩ f.bytes.length) = ⟨.ok (), t, o⟩ ∧
      o.map Event.sent = f.records.flatMap (Record.trace .data_out .data_out) ∧
      ∃ u, decode_hdr E t = ⟨.error .RDB_EOF_MARK, u, []⟩ := by
  have hv := f.views past
  have hat := St.start_atRecord (E := E) none _ f.hver (by simp) hv
  obtain ⟨t, d, o, hkeys, hat', ho⟩ :=
    hat.next_keys f.records (fun r _ => Decodes.decode_body_run r.value) hv.adv (by simp) hgood 0
  refine ⟨t, o, hkeys, ?_, hat'.eof hv.adv.adv⟩
  rw [ho, Record.traces_none]

/-- A file with one list, whose key and only element are compressed. -/
def format.RdbFile.compressed : RdbFile Env.literal (Value Env.literal) where
  ver := 9
  hver := by decide
  records := [⟨[.dbselect (.short 3), .expired_ms 7 (by decide)], .literal 0x6b,
    .list ⟨.len14, 1, by decide⟩
      [.lzf ⟨.len32, 2, by decide⟩ (.short 1) [0x00, 0x61] [0x61] rfl StoredLen.short_one
        (Env.literal_expands_one 0x61)] rfl⟩]
  crc := [0, 0, 0, 0, 0, 0, 0, 0]
  hcrc := rfl

theorem format.RdbFile.compressed_ver : 0 < RdbFile.compressed.ver ∧ RdbFile.compressed.ver < 100 :=
  RdbFile.compressed.hver

theorem format.RdbFile.compressed_crc : RdbFile.compressed.crc.length = 8 := RdbFile.compressed.hcrc

theorem decode_file_compressed :
    ∃ t o, Proc.count (fun _ => next_key Env.literal) 0 RdbFile.compressed.records.length
        (St.start none ⟨.input, Mem.ofList RdbFile.compressed.bytes 0, 0⟩
          RdbFile.compressed.bytes.length) = ⟨.ok (), t, o⟩ ∧
      o.map Event.sent = RdbFile.compressed.records.flatMap (Record.trace .data_out .data_out) ∧
      ∃ u, decode_hdr Env.literal t = ⟨.error .RDB_EOF_MARK, u, []⟩ :=
  decode_file RdbFile.compressed 0 (by decide)

end rdbparser
