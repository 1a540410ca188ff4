import Rdbparser.Decode.Record

namespace rdbparser

open format RdbDecode DecodeProc

/-- The steps `main` repeats for every key: find type, length and key, decode the data type, release
the decompression buffers. -/
def next_key (E : Env) : DecodeProc Unit := do
  decode_hdr E
  decode_body E
  set_dec fun d => { d with key_cnt := d.key_cnt + 1 }
  Proc.update fun s => { s with bptr := s.bptr.free_alloced }

/-- A decoder and a buffer at the start of `sz` bytes. -/
def St.start (filter : Option (RdbVal → Bool)) (buf : Cursor) (sz : Nat) : St :=
  ⟨{ data_out := true, filter := filter }, RdbBufptr.init buf sz⟩

/-- A decoder in front of bytes that are all in one buffer. -/
def St.map (filter : Option (RdbVal → Bool)) (bytes : List UInt8) (past : Mem) : St :=
  St.start filter ⟨.input, Mem.ofList bytes past, 0⟩ bytes.length

@[simp] theorem St.map_mem (filter : Option (RdbVal → Bool)) (bytes : List UInt8) (past : Mem) :
    (St.map filter bytes past).bptr.buf.ptr.mem = Mem.ofList bytes past := by
  simp [St.map, St.start, RdbBufptr.init, Cursor.ptr]

@[simp] theorem St.map_avail (filter : Option (RdbVal → Bool)) (bytes : List UInt8) (past : Mem) :
    (St.map filter bytes past).bptr.avail = bytes.length := rfl

variable {E : Env}

/-- What one key of a file leaves behind: the cursor in the main buffer, right behind the bytes of
the record at `c`, no decompression buffers, and the events of the record; only the offset of the type
matters. -/
structure KeyDone {V : Type} [Encoding E V] (filter : Option (RdbVal → Bool)) (prev : Dest)
    (c : Place) (r : Record E V) (t : St) (o : List Event) : Prop where
  ready : t.dec.Ready (verdict filter r.key.val)
  filter_eq : t.dec.filter = filter
  key : ∃ k₀, t.dec.key.Holds k₀ r.key c.buf.blk
  on : t.bptr.On (c.adv r.bytes.length)
  alloced : t.bptr.alloced_mem = []
  events : ∃ o₁ o₂, o = o₁ ++ ⟨.data_out, .d_start_type (Encoding.type r.value),
      c.offset + (r.metas.flatMap Meta.bytes).length⟩ :: o₂ ∧
    o₁.map Event.sent = (r.metas.flatMap Meta.calls).map (prev, ·) ∧
    o₂.map Event.sent =
      (verdict filter r.key.val, .d_start_key (Encoding.type r.value) r.key.val) ::
        ((Encoding.calls r.value).map (verdict filter r.key.val, ·) ++
          [(verdict filter r.key.val, .d_end_key (Encoding.type r.value))])

theorem KeyDone.trace {V : Type} [Encoding E V] {filter : Option (RdbVal → Bool)} {prev : Dest}
    {c : Place} {r : Record E V} {t : St} {o : List Event} (h : KeyDone filter prev c r t o) :
    o.map Event.sent = r.trace prev (verdict filter r.key.val) := by
  obtain ⟨o₁, o₂, rfl, ho₁, ho₂⟩ := h.events
  rw [List.map_append, List.map_cons, ho₁, ho₂]
  rfl

/-- One key of a file, of which nothing more is assumed than that its value is decoded. -/
theorem next_key_record {V : Type} [Encoding E V] (r : Record E V) (hvalue : Encoding.Decoded r.value) {s : St}
    {c : Place} {prev : Dest} (hready : s.dec.Ready prev) (hs : s.bptr.On c) {rest : List UInt8}
    (hv : c.Views (r.bytes ++ rest)) (hrest : rest ≠ [])
    (hgood : ∀ m ∈ r.metas, m.fails = none) :
    ∃ t o, next_key E s = ⟨.ok (), t, o⟩ ∧ KeyDone s.dec.filter prev c r t o := by
  have hleft : 0 < (c.adv r.bytes.length).avail := by
    rw [hv.adv.1]
    exact List.length_pos_iff.mpr hrest
  rw [Record.bytes, List.append_assoc] at hv
  obtain ⟨k, b₁, o₁, hhdr, ho₁, hk, hopen⟩ := decode_hdr_record r hready hs hv hgood
  obtain ⟨b₂, o₂, hbody, hat, ho₂⟩ := hvalue
    (s := ⟨{ s.dec with type := Encoding.type r.value, key := k,
                        rlen := RdbLength.ofHeader (Encoding.head r.value).hdr }, b₁⟩)
    rfl rfl hopen hv.adv
  rw [Place.adv_adv, ← List.length_append] at hat
  have hdest : RdbDecode.dest { s.dec with type := Encoding.type r.value, key := k,
                                           rlen := RdbLength.ofHeader (Encoding.head r.value).hdr } =
      verdict s.dec.filter r.key.val := by
    rw [RdbDecode.dest, hk.val]
  simp only [hdest, hk.val] at hbody ho₂
  refine ⟨⟨{ s.dec with type := Encoding.type r.value, key := k,
                        rlen := RdbLength.ofHeader (Encoding.head r.value).hdr
                        out := some (verdict s.dec.filter r.key.val)
                        key_cnt := s.dec.key_cnt + 1 }, b₂.free_alloced⟩, _, ?_,
    ⟨rfl, hready.file, hready.ver⟩, rfl, ⟨_, hk⟩, hat.free_alloced hleft,
    b₂.free_alloced_alloced_mem, o₁, o₂, rfl, ho₁, ho₂⟩
  rw [List.append_cons]
  refine Proc.bind_ok hhdr ?_
  have hall := Proc.bind_ok (f := fun _ => do
    set_dec fun d => { d with key_cnt := d.key_cnt + 1 }
    Proc.update fun s => { s with bptr := s.bptr.free_alloced }) hbody rfl
  simp only [List.append_nil] at hall
  exact hall

/-- A file is told by the letters in front, and its version is the number of the four digits behind them. -/
theorem decode_ver_file {s : St} {ver : Nat} (hver : ver < 100)
    (h : s.bptr.buf.ptr.mem.Starts (header ver)) :
    ∃ crc, decode_ver s =
      ⟨.ok 8, ⟨{ s.dec with is_rdb_file := true, ver := ver, crc := crc }, s.bptr⟩, []⟩ := by
  have hmagic : s.bptr.buf.ptr.mem.take 7 = magic :=
    (Mem.starts_append.mp (show Mem.Starts _ (magic ++ _) from h)).1.take
  have hparse : parse_ver s.bptr.buf.ptr.mem [5, 6, 7, 8] 0 = (true, ver) := by
    have h5 : s.bptr.buf.ptr.mem 5 = 0x30 := h.get (i := 5) (by simp)
    have h6 : s.bptr.buf.ptr.mem 6 = 0x30 := h.get (i := 6) (by simp)
    have h7 : s.bptr.buf.ptr.mem 7 = UInt8.ofNat (0x30 + ver / 10) := h.get (i := 7) (by simp)
    have h8 : s.bptr.buf.ptr.mem 8 = UInt8.ofNat (0x30 + ver % 10) := h.get (i := 8) (by simp)
    have hdigit : ∀ d < 10, ¬ (UInt8.ofNat (0x30 + d) < 0x30 ∨ 0x39 < UInt8.ofNat (0x30 + d)) ∧
        (UInt8.ofNat (0x30 + d)).toNat - 0x30 = d := by decide
    obtain ⟨hd1, hv1⟩ := hdigit (ver / 10) (by omega)
    obtain ⟨hd2, hv2⟩ := hdigit (ver % 10) (by omega)
    have hzero : ¬ ((0x30 : UInt8) < 0x30 ∨ (0x39 : UInt8) < 0x30) := by decide
    simp only [parse_ver, h5, h6, h7, h8, if_neg hzero, if_neg hd1, if_neg hd2, hv1, hv2]
    simp only [UInt8.reduceToNat, Prod.mk.injEq, true_and]
    omega
  rw [decode_ver, Proc.read_bind_run]
  simp only [hmagic, if_true, hparse, set_dec, Proc.update_bind_run, not_true_eq_false, if_false]
  split
  · exact ⟨_, by rw [Proc.update_bind_run]; rfl⟩
  · exact ⟨_, rfl⟩

/-- The version header of a file is read by the first `decode_hdr` only, and the crc at its end
does not matter. -/
theorem decode_trailer_file {s : St} {c : Place} {ver : Nat} (hver : ver < 100) (hs : s.bptr.On c)
    {rest : List UInt8} (hv : c.Views (header ver ++ rest)) (hrest : rest ≠ []) :
    ∃ crc b, decode_trailer E s =
        ⟨.ok (), ⟨{ s.dec with is_rdb_file := true, ver := ver, crc := crc }, b⟩, []⟩ ∧
      b.On (c.adv 9) := by
  have hlong : ¬ s.bptr.avail < 10 := by
    have hpos := List.length_pos_iff.mpr hrest
    rw [hs.avail, hv.1, List.length_append, header_length]
    omega
  obtain ⟨b, hincr, hon⟩ := hs.incr hv.le
  obtain ⟨crc, hrun⟩ := decode_ver_file hver (s := { s with dec.crc := 0 })
    (hs.buf ▸ hv.starts : s.bptr.buf.ptr.mem.Starts (header ver))
  refine ⟨crc, b, ?_, hon⟩
  rw [decode_trailer, set_dec, Proc.update_bind_run, Proc.read_bind_run, if_neg hlong,
    Proc.bind_quiet hrun, Proc.read_bind_run]
  simp only [not_true_eq_false, and_false, if_false]
  rw [header_length] at hincr
  rw [skip, Proc.update_run]
  simp only [hincr, Nat.reduceAdd]

/-- What the first `decode_hdr` does. -/
theorem decode_hdr_fresh {s : St} (hout : s.dec.out = none) (hdata : s.dec.data_out = true)
    (hver : s.dec.ver = 0) :
    decode_hdr E s = (decode_trailer E >>= fun _ => Proc.read >>= fun t =>
      (if t.dec.is_rdb_file then decode_meta_loop E (t.bptr.avail + t.bptr.sav_avail) else pure ()) >>=
        fun _ => decode_type_key E >>= fun _ => decode_unzip E)
          { s with dec.out := some .data_out } := by
  have hdata' : ¬ (s.dec.out = none ∧ ¬ s.dec.data_out = true) := fun h => h.2 hdata
  rw [decode_hdr, Proc.read_bind_run, if_neg hdata']
  simp only [if_pos hout, if_pos hver, set_dec, Proc.update_bind_run, Proc.ite_bind]

/-- The first `decode_hdr` of a file goes on like any other, behind the version header. -/
theorem decode_hdr_first {filter : Option (RdbVal → Bool)} {s : St} {c : Place} {ver : Nat}
    (hver : 0 < ver ∧ ver < 100) (hdec : s.dec = { data_out := true, filter := filter })
    (hs : s.bptr.On c) {rest : List UInt8} (hv : c.Views (header ver ++ rest)) (hrest : rest ≠ []) :
    ∃ t, decode_hdr E s = decode_hdr E t ∧ t.dec.Ready .data_out ∧ t.dec.filter = filter ∧
      t.bptr.On (c.adv 9) := by
  obtain ⟨dec, bptr⟩ := s
  obtain rfl := hdec
  obtain ⟨crc, b, htrailer, hon⟩ := decode_trailer_file (E := E) hver.2
    (s := ⟨{ data_out := true, filter := filter, out := some .data_out }, bptr⟩) hs hv hrest
  have hready : RdbDecode.Ready
      { data_out := true, filter := filter, out := some .data_out, is_rdb_file := true, ver := ver
        crc := crc } .data_out := ⟨rfl, rfl, Nat.pos_iff_ne_zero.mp hver.1⟩
  refine ⟨⟨_, b⟩, ?_, hready, rfl, hon⟩
  rw [decode_hdr_ready (s := ⟨_, b⟩) hready, decode_hdr_fresh rfl rfl rfl, Proc.bind_quiet htrailer]
  simp only [Proc.read_bind_run, if_true]

end rdbparser
