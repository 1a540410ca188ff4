import Rdbparser.Stream
import Rdbparser.Decode.Elements

namespace rdbparser

open format

/-- The decoder has read the header of a file and `prev` is its current output. -/
structure RdbDecode.Ready (d : RdbDecode) (prev : Dest) : Prop where
  out : d.out = some prev
  file : d.is_rdb_file = true
  ver : d.ver ≠ 0

/-- Where the cursor is between `decode_hdr` and `decode_body`. -/
def RdbBufptr.OpenedHead {E : Env} (h : Head E) : RdbBufptr → Place → Prop :=
  match h with
  | .len _ => RdbBufptr.On
  | .str x => RdbBufptr.Opened x

namespace RdbDecode

open DecodeProc

variable {E : Env}

theorem decode_hdr_len_run {s : St} {c : Place} (hs : s.bptr.At c) (hdr : Header)
    {rest : List UInt8} (hv : c.Views (hdr.bytes ++ rest)) :
    ∃ b, decode_hdr_len s = ⟨.ok (), ⟨{ s.dec with rlen := RdbLength.ofHeader hdr }, b⟩, []⟩ ∧
      b.On (c.adv hdr.bytes.length) := by
  obtain ⟨b, hdec, hon⟩ := hs.decode hdr hv
  refine ⟨b, ?_, hon⟩
  simp only [decode_hdr_len, hdec, if_true]

/-- The key: after a compressed one the cursor is not in the main buffer. -/
theorem decode_key_run {s : St} {c : Place} (x : StoredStr E) (hs : s.bptr.On c)
    (hrlen : s.dec.rlen = RdbLength.ofHeader x.hdr) {rest : List UInt8}
    (hv : c.Views (x.data ++ rest)) :
    ∃ k b, decode_key E s = ⟨.ok (), ⟨{ s.dec with key := k }, b⟩, []⟩ ∧
      k.Holds s.dec.key x c.buf.blk ∧ b.Closed x (c.adv x.data.length) := by
  rw [decode_key, Proc.read_bind_run, hrlen]
  cases hint : x.is_int with
  | true =>
    obtain ⟨i, rfl⟩ := StoredStr.eq_int hint
    have hnum : (RdbLength.ofHeader (.int i)).is_enc ≠ 0 := i.form.nbyte_ne
    rw [StoredStr.hdr, if_pos hnum]
    refine ⟨_, s.bptr, rfl, ?_, hs⟩
    simp only [RdbString.Holds, hrlen, StoredStr.hdr, RdbLength.ofHeader]
  | false =>
    obtain ⟨p, b, hcons, hclosed, hholds, -⟩ := Reads.consume_run x hint hs hv
    rw [if_neg (Reads.is_enc_eq hint), Proc.bind_quiet hcons]
    refine ⟨_, b, rfl, ?_, hclosed⟩
    rw [← hrlen] at hholds
    exact hholds s.dec.key

/-- The next byte of the main buffer. -/
theorem On_next {b : RdbBufptr} {c : Place} {x : UInt8} {rest : List UInt8} (h : b.On c)
    (hv : c.Views (x :: rest)) : b.avail ≠ 0 ∧ b.buf.ptr.mem 0 = x := by
  refine ⟨?_, ?_⟩
  · rw [h.avail, hv.1, List.length_cons]
    omega
  · rw [h.buf]
    exact (Mem.starts_cons.mp hv.2).1

/-- One turn of the loop, at an opcode. -/
theorem decode_meta_loop_succ {s : St} {c : Place} {x : UInt8} {rest : List UInt8} {op : RdbMeta}
    (hs : s.bptr.On c) (hv : c.Views (x :: rest)) (hx : get_rdb_meta x = some op) (fuel : Nat) :
    decode_meta_loop E (fuel + 1) s =
      (skip 1 >>= fun _ => decode_meta_op E op >>= fun _ => decode_meta_loop E fuel) s := by
  obtain ⟨havail, hbyte⟩ := On_next hs hv
  rw [decode_meta_loop, Proc.read_bind_run, if_neg havail, hbyte, hx]

theorem decode_meta_loop_none {s : St} {c : Place} {x : UInt8} {rest : List UInt8}
    (hs : s.bptr.On c) (hv : c.Views (x :: rest)) (hx : get_rdb_meta x = none) (fuel : Nat) :
    decode_meta_loop E (fuel + 1) s = ⟨.ok (), s, []⟩ := by
  obtain ⟨havail, hbyte⟩ := On_next hs hv
  rw [decode_meta_loop, Proc.read_bind_run, if_neg havail, hbyte, hx]
  rfl

/-- The opcodes before a record are all handed out. -/
theorem decode_meta_loop_run (metas : List (Meta E)) {s : St} {c : Place} {prev : Dest} {x : UInt8}
    {rest : List UInt8} {fuel : Nat} (hs : s.bptr.On c)
    (hv : c.Views (metas.flatMap Meta.bytes ++ x :: rest)) (hx : get_rdb_meta x = none)
    (hgood : ∀ m ∈ metas, m.fails = none) (hout : s.dec.out = some prev)
    (hfuel : metas.length < fuel) :
    ∃ b o, decode_meta_loop E fuel s = ⟨.ok (), { s with bptr := b }, o⟩ ∧
      b.On (c.adv (metas.flatMap Meta.bytes).length) ∧
      o.map Event.sent = (metas.flatMap Meta.calls).map (prev, ·) := by
  induction metas generalizing s c fuel with
  | nil =>
    obtain ⟨fuel, rfl⟩ : ∃ k, fuel = k + 1 := ⟨fuel - 1, by simp at hfuel; omega⟩
    exact ⟨s.bptr, [], decode_meta_loop_none hs hv hx fuel, hs, rfl⟩
  | cons m metas ih =>
    obtain ⟨fuel, rfl⟩ : ∃ k, fuel = k + 1 := ⟨fuel - 1, by simp at hfuel; omega⟩
    rw [List.flatMap_cons, List.append_assoc] at hv
    rw [decode_meta_loop_succ hs hv m.get_rdb_meta_code]
    -- the opcode and what it announces, then the other opcodes
    have hturn := (Reads.skip (show [m.code].length = 1 from rfl)).bind_read fun _ =>
      Reads.decode_meta_op m (hgood m List.mem_cons_self)
    obtain ⟨_, b, o, hrun, hon, ho⟩ := hturn s c prev _ hs hv hout
    obtain ⟨b', o', hrun', hon', ho'⟩ := ih (s := { s with bptr := b }) hon hv.adv
      (fun m' hm' => hgood m' (List.mem_cons_of_mem m hm')) hout (Nat.succ_le_succ_iff.mp hfuel)
    refine ⟨b', o ++ o', ?_, ?_, ?_⟩
    · rw [← Proc.bind_assoc]
      exact Proc.bind_ok hrun hrun'
    · rw [List.flatMap_cons, List.length_append, ← Place.adv_adv]
      exact hon'
    · rw [List.map_append, ho, ho', List.flatMap_cons, List.map_append]

/-- The type, the key and the header of the value. -/
theorem decode_type_key_run {s : St} {c : Place} {type_byte : UInt8} {type : RdbType}
    (htype : get_rdb_type type_byte = type) (hbad : type ≠ .RDB_BAD_TYPE) (key : StoredStr E)
    (hdr : Header) (hs : s.bptr.On c) (hfile : s.dec.is_rdb_file = true) {rest : List UInt8}
    (hv : c.Views (type_byte :: (key.bytes ++ (hdr.bytes ++ rest)))) :
    ∃ k b, decode_type_key E s =
        ⟨.ok (), ⟨{ s.dec with type := type, key := k, rlen := RdbLength.ofHeader hdr }, b⟩,
          [⟨.data_out, .d_start_type type, c.offset⟩]⟩ ∧
      k.Holds s.dec.key key c.buf.blk ∧ b.On (c.adv (1 + key.bytes.length + hdr.bytes.length)) := by
  obtain ⟨havail, hbyte⟩ := On_next hs hv
  rw [← hbyte] at htype
  -- the type byte
  obtain ⟨b₁, hincr, hon₁⟩ := hs.incr (n := 1) (by rw [hv.1]; simp)
  have hv₁ : (c.adv 1).Views (key.hdr.bytes ++ (key.data ++ (hdr.bytes ++ rest))) := by
    have h : (c.adv 1).Views (key.bytes ++ (hdr.bytes ++ rest)) :=
      Place.Views.adv (show c.Views ([type_byte] ++ _) from hv)
    rwa [StoredStr.bytes, List.append_assoc] at h
  -- the header of the key, the key and the header of the value
  obtain ⟨b₂, hlen₂, hon₂⟩ := decode_hdr_len_run
    (s := ⟨{ s.dec with type := type }, b₁⟩) (.main hon₁) key.hdr hv₁
  obtain ⟨k, b₃, hkey, hholds, hclosed₃⟩ := decode_key_run
    (s := ⟨{ s.dec with type := type, rlen := RdbLength.ofHeader key.hdr }, b₂⟩) key hon₂ rfl
    hv₁.adv
  obtain ⟨b₄, hlen₄, hon₄⟩ := decode_hdr_len_run
    (s := ⟨{ s.dec with type := type, rlen := RdbLength.ofHeader key.hdr, key := k }, b₃⟩) hclosed₃.at
    hdr hv₁.adv.adv
  refine ⟨k, b₄, ?_, hholds, ?_⟩
  · have hstart : start_type type ⟨{ s.dec with type := type }, s.bptr⟩ =
        ⟨.ok (), ⟨{ s.dec with type := type }, s.bptr⟩,
          [⟨.data_out, .d_start_type type, c.offset⟩]⟩ := by
      rw [start_type, Proc.emit_run, hs.offset]
    have hskip : skip 1 ⟨{ s.dec with type := type }, s.bptr⟩ =
        ⟨.ok (), ⟨{ s.dec with type := type }, b₁⟩, []⟩ := by
      simp only [skip, Proc.update_run, hincr]
    rw [decode_type_key, Proc.read_bind_run, if_neg havail]
    simp only [htype, if_neg hbad, if_pos hfile]
    rw [set_dec, Proc.update_bind_run]
    exact Proc.bind_ok hstart (Proc.bind_ok hskip (Proc.bind_ok hlen₂ (Proc.bind_ok hkey hlen₄)))
  · simpa only [Place.adv_adv, StoredStr.bytes, List.length_append, Nat.add_assoc] using hon₄

theorem decode_type_key_empty {s : St} (h : s.bptr.avail = 0) :
    decode_type_key E s = ⟨.error .RDB_ERR_TRUNC, s, []⟩ := by
  rw [decode_type_key, Proc.read_bind_run, if_pos h]
  rfl

/-- An opcode that fails ends `decode_hdr`, after the callbacks of the ones before it. -/
theorem decode_meta_loop_fails {metas : List (Meta E)} {s : St} {c : Place} {prev : Dest}
    {rest : List UInt8} {fuel : Nat} {e : RdbErrCode} (hs : s.bptr.On c)
    (hv : c.Views (metas.flatMap Meta.bytes ++ rest)) (hbad : (Meta.sent metas).2 = some e)
    (hout : s.dec.out = some prev) (hfuel : metas.length ≤ fuel) :
    ∃ t o, (decode_meta_loop E fuel >>= fun _ => decode_type_key E) s = ⟨.error e, t, o⟩ ∧
      o.map Event.sent = (Meta.sent metas).1.map (prev, ·) := by
  induction metas generalizing s c fuel with
  | nil => cases hbad
  | cons m metas ih =>
    obtain ⟨fuel, rfl⟩ : ∃ k, fuel = k + 1 := ⟨fuel - 1, by simp at hfuel; omega⟩
    rw [List.flatMap_cons, List.append_assoc] at hv
    rw [Proc.bind_congr_run (decode_meta_loop_succ hs hv m.get_rdb_meta_code fuel)]
    cases hm : m.fails with
    | none =>
      simp only [Meta.sent, hm] at hbad ⊢
      have hturn := (Reads.skip (show [m.code].length = 1 from rfl)).bind_read fun _ => Reads.decode_meta_op m hm
      obtain ⟨_, b, o, hrun, hon, ho⟩ := hturn s c prev _ hs hv hout
      obtain ⟨t, o', hrun', ho'⟩ := ih (s := { s with bptr := b }) hon hv.adv hbad
        hout (Nat.succ_le_succ_iff.mp hfuel)
      refine ⟨t, o ++ o', ?_, ?_⟩
      · have hall := Proc.bind_ok
          (f := fun _ => decode_meta_loop E fuel >>= fun _ => decode_type_key E) hrun hrun'
        simpa only [Proc.bind_assoc] using hall
      · rw [List.map_append, ho, ho', List.map_append]
    | some e' =>
      simp only [Meta.sent, hm, Option.some.injEq] at hbad ⊢
      subst hbad
      cases m with
      | module_aux data =>
        obtain rfl : e' = .RDB_ERR_NOTSUP := by simpa [Meta.fails] using hm.symm
        obtain ⟨_, b, o, hrun, -, ho⟩ :=
          Reads.skip (show ([0xf7] : List UInt8).length = 1 from rfl) s c prev (data ++ _) hs hv hout
        refine ⟨{ s with bptr := b }, o, ?_, ho⟩
        have hop : decode_meta_op E .RDB_MODULE_AUX { s with bptr := b } =
            ⟨.error .RDB_ERR_NOTSUP, { s with bptr := b }, []⟩ := rfl
        have hall := Proc.bind_error (f := fun _ => decode_type_key E)
          (Proc.bind_ok (f := fun _ => decode_meta_op E .RDB_MODULE_AUX >>= fun _ =>
            decode_meta_loop E fuel) hrun (Proc.bind_error hop))
        rwa [List.append_nil] at hall
      | aux var val =>
        have hval : val.is_lzf = true := by
          by_contra h
          simp [Meta.fails, h] at hm
        obtain rfl : e' = .RDB_ERR_TRUNC := by simpa [Meta.fails, hval] using hm.symm
        have hturn := (Reads.skip (show ([0xfa] : List UInt8).length = 1 from rfl)).bind_read fun _ =>
          Reads.decode_aux var val
        obtain ⟨_, b, o, hrun, hclosed, ho⟩ := hturn s c prev _ hs hv hout
        refine ⟨{ s with bptr := b }, o, ?_, ho⟩
        -- the cursor is left in the decompression buffer, where nothing is left
        have havail : b.avail = 0 := hclosed.avail hval
        have hloop : decode_meta_loop E fuel { s with bptr := b } = ⟨.ok (), { s with bptr := b }, []⟩ := by
          cases fuel with
          | zero => rfl
          | succ fuel =>
            rw [decode_meta_loop, Proc.read_bind_run, if_pos havail]
            rfl
        have hall := Proc.bind_ok
          (f := fun _ => decode_meta_loop E fuel >>= fun _ => decode_type_key E) hrun
          (Proc.bind_ok hloop (decode_type_key_empty (E := E) (s := { s with bptr := b }) havail))
        rw [List.append_nil, List.append_nil] at hall
        simpa only [Proc.bind_assoc, Meta.op] using hall
      | _ => contradiction

theorem decode_hdr_ready {s : St} {prev : Dest} (h : s.dec.Ready prev) :
    decode_hdr E s = (decode_meta_loop E (s.bptr.avail + s.bptr.sav_avail) >>= fun _ =>
      decode_type_key E >>= fun _ => decode_unzip E) s := by
  have hout : ¬ (s.dec.out = none ∧ ¬ s.dec.data_out) := by simp [h.out]
  have hout' : ¬ s.dec.out = none := by simp [h.out]
  rw [decode_hdr, Proc.read_bind_run, if_neg hout]
  simp only [if_neg hout', if_neg h.ver, Proc.read_bind_run, if_pos h.file]

/-- What a value starts with is opened where it is stored, or in a buffer of its own if it is compressed. -/
theorem open_head (h : Head E) :
    Reads RdbBufptr.On
      (if (RdbLength.ofHeader h.hdr).is_lzf then
        decompress E (RdbLength.ofHeader h.hdr) else pure ()) h.blob []
      fun _ => RdbBufptr.OpenedHead h := by
  cases h with
  | len n => exact Reads.value fun b c h => h
  | str x => exact Reads.open_str x

theorem metas_length_le (metas : List (Meta E)) :
    metas.length ≤ (metas.flatMap Meta.bytes).length := by
  induction metas with
  | nil => rfl
  | cons m metas ih =>
    rw [List.flatMap_cons, List.length_append, Meta.bytes, List.length_cons, List.length_cons]
    omega

/-- `decode_hdr` on a record with an opcode that fails. -/
theorem decode_hdr_fails {metas : List (Meta E)} {s : St} {c : Place} {prev : Dest}
    (hready : s.dec.Ready prev) (hs : s.bptr.On c) {rest : List UInt8}
    (hv : c.Views (metas.flatMap Meta.bytes ++ rest)) {e : RdbErrCode}
    (hbad : (Meta.sent metas).2 = some e) :
    ∃ t o, decode_hdr E s = ⟨.error e, t, o⟩ ∧
      o.map Event.sent = (Meta.sent metas).1.map (prev, ·) := by
  have hfuel : metas.length ≤ s.bptr.avail + s.bptr.sav_avail := by
    have hmetas := metas_length_le metas
    have havail := hv.le
    rw [hs.avail]
    omega
  obtain ⟨t, o, hrun, ho⟩ := decode_meta_loop_fails hs hv hbad hready.out hfuel
  refine ⟨t, o, ?_, ho⟩
  rw [decode_hdr_ready hready]
  have hall := Proc.bind_error (f := fun _ => decode_unzip E) hrun
  simpa only [Proc.bind_assoc] using hall

/-- `decode_hdr` on a record: the opcodes go to the output of the record before it, the type to
the real one, and the key is that of the record. -/
theorem decode_hdr_record {V : Type} [Encoding E V] (r : Record E V) {s : St} {c : Place}
    {prev : Dest} (hready : s.dec.Ready prev) (hs : s.bptr.On c) {rest : List UInt8}
    (hv : c.Views (r.front ++ rest)) (hgood : ∀ m ∈ r.metas, m.fails = none) :
    ∃ k b o, decode_hdr E s =
        ⟨.ok (), ⟨{ s.dec with type := Encoding.type r.value, key := k,
                               rlen := RdbLength.ofHeader (Encoding.head r.value).hdr }, b⟩,
          o ++ [⟨.data_out, .d_start_type (Encoding.type r.value),
            c.offset + (r.metas.flatMap Meta.bytes).length⟩]⟩ ∧
      o.map Event.sent = (r.metas.flatMap Meta.calls).map (prev, ·) ∧
      k.Holds s.dec.key r.key c.buf.blk ∧
      b.OpenedHead (Encoding.head r.value) (c.adv r.front.length) := by
  have hv' : c.Views (r.metas.flatMap Meta.bytes ++ Encoding.type_byte r.value :: (r.key.bytes ++
      ((Encoding.head r.value).hdr.bytes ++ ((Encoding.head r.value).blob ++ rest)))) := by
    simpa only [Record.front, List.append_assoc, List.cons_append] using hv
  have hfuel : r.metas.length < s.bptr.avail + s.bptr.sav_avail := by
    have hmetas := metas_length_le r.metas
    have havail := hv'.1
    rw [List.length_append, List.length_cons] at havail
    rw [hs.avail]
    omega
  obtain ⟨b₁, o₁, hmetas, hon₁, ho₁⟩ := decode_meta_loop_run r.metas hs hv'
    (Encoding.get_rdb_meta_byte r.value) hgood hready.out hfuel
  obtain ⟨k, b₂, htype, hk, hon₂⟩ := decode_type_key_run (s := { s with bptr := b₁ })
    (Encoding.get_rdb_type_byte r.value) (Encoding.type_ne_bad r.value) r.key _ hon₁ hready.file
    hv'.adv
  have hv₂ : ((c.adv (r.metas.flatMap Meta.bytes).length).adv
      (1 + r.key.bytes.length + (Encoding.head r.value).hdr.bytes.length)).Views
        ((Encoding.head r.value).blob ++ rest) := by
    have h := Place.Views.adv (show Place.Views _ ((Encoding.type_byte r.value ::
      (r.key.bytes ++ (Encoding.head r.value).hdr.bytes)) ++ _) by
        simpa only [List.cons_append, List.append_assoc] using hv'.adv)
    rwa [List.length_cons, List.length_append, Nat.add_comm, ← Nat.add_assoc] at h
  obtain ⟨_, b₃, o₃, hunzip, hopen, ho₃⟩ := open_head (Encoding.head r.value)
    ⟨{ s.dec with type := Encoding.type r.value, key := k,
                  rlen := RdbLength.ofHeader (Encoding.head r.value).hdr }, b₂⟩
    _ prev _ hon₂ hv₂ hready.out
  obtain rfl : o₃ = [] := by simpa using ho₃
  refine ⟨k, b₃, o₁, ?_, ho₁, hk, ?_⟩
  · rw [decode_hdr_ready hready]
    exact Proc.bind_ok hmetas (Proc.bind_ok htype hunzip)
  · have hlen : r.front.length = (r.metas.flatMap Meta.bytes).length +
        (1 + r.key.bytes.length + (Encoding.head r.value).hdr.bytes.length) +
          (Encoding.head r.value).blob.length := by
      simp only [Record.front, List.length_append, List.length_cons]
      omega
    simpa only [hlen, Place.adv_adv] using hopen

theorem start_key_run (s : St) :
    start_key s = ⟨.ok (), { s with dec.out := some s.dec.dest },
      [⟨s.dec.dest, .d_start_key s.dec.type s.dec.key.val, s.bptr.offset⟩]⟩ := rfl

theorem end_key_run {s : St} {d : Dest} (hout : s.dec.out = some d) :
    end_key s = ⟨.ok (), s, [⟨d, .d_end_key s.dec.type, s.bptr.offset⟩]⟩ := by
  rw [end_key, Proc.read_bind_run, call, Proc.emit_run, hout]

/-- The elements of a key are handed out between its start and its end, to the output the verdict
selects. -/
theorem framed_run {P : RdbBufptr → Place → Prop} {f : St → DecodeProc Unit} {bs rest : List UInt8}
    {calls : List Callback} {s : St} {c : Place}
    (hf : Reads P (f { s with dec.out := some s.dec.dest }) bs calls fun _ => RdbBufptr.At)
    (hs : P s.bptr c) (hv : c.Views (bs ++ rest)) :
    ∃ b o, (start_key >>= fun _ => Proc.read >>= fun t => f t >>= fun _ => end_key) s =
        ⟨.ok (), ⟨{ s.dec with out := some s.dec.dest }, b⟩, o⟩ ∧
      b.At (c.adv bs.length) ∧
      o.map Event.sent = (s.dec.dest, .d_start_key s.dec.type s.dec.key.val) ::
        (calls.map (s.dec.dest, ·) ++ [(s.dec.dest, .d_end_key s.dec.type)]) := by
  obtain ⟨_, b, o, hrun, hat, ho⟩ := hf { s with dec.out := some s.dec.dest } c s.dec.dest rest
    hs hv rfl
  refine ⟨b, _ ++ (o ++ [⟨s.dec.dest, .d_end_key s.dec.type, b.offset⟩]),
    Proc.bind_ok (start_key_run s) ?_, hat, ?_⟩
  · rw [Proc.read_bind_run]
    exact Proc.bind_ok hrun (end_key_run rfl)
  · rw [List.map_append, List.map_append, ho]
    rfl

theorem decode_string_eq : decode_string = (start_key >>= fun _ => Proc.read >>= fun t =>
    (decode_str .empty t.dec.rlen >>= fun str => call (.d_string str.val)) >>= fun _ =>
      end_key) := by
  simp only [decode_string, Proc.bind_assoc]

/-- The elements of a `RDB_LIST`, `RDB_SET` or `RDB_HASH`. -/
theorem decode_elems_run {α : Type} {elem : Nat → Nat → DecodeProc Unit} {bytes : α → List UInt8}
    {calls : Nat → Nat → α → Callback} {xs : List α}
    (helem : ∀ cnt num, ∀ x ∈ xs, Reads RdbBufptr.At (elem cnt num) (bytes x) [calls cnt num x]
      fun _ => RdbBufptr.At)
    {s : St} {c : Place} (hlen : s.dec.rlen.len = xs.length) (hs : s.bptr.At c)
    {rest : List UInt8} (hv : c.Views (xs.flatMap bytes ++ rest)) :
    ∃ b o, decode_elems elem s = ⟨.ok (), ⟨{ s.dec with out := some s.dec.dest }, b⟩, o⟩ ∧
      b.At (c.adv (xs.flatMap bytes).length) ∧
      o.map Event.sent = (s.dec.dest, .d_start_key s.dec.type s.dec.key.val) ::
        ((xs.mapIdx (calls xs.length)).map (s.dec.dest, ·) ++
          [(s.dec.dest, .d_end_key s.dec.type)]) := by
  have hcount := Reads.count (fun num x hx => helem xs.length num x hx) 0
  simp only [Nat.zero_add] at hcount
  refine framed_run (f := fun t => Proc.count (elem t.dec.rlen.len) 0 t.dec.rlen.len) ?_ hs hv
  rwa [hlen]

end RdbDecode

/-- `decode_body` hands out the value between the start and the end of the key, to the output the
verdict selects, and ends behind it, wherever it is stored and whatever follows it. -/
def format.Encoding.Decoded {E : Env} {V : Type} [Encoding E V] (v : V) : Prop :=
  ∀ ⦃s : St⦄ ⦃c : Place⦄ ⦃rest : List UInt8⦄,
    s.dec.type = Encoding.type v → s.dec.rlen = RdbLength.ofHeader (Encoding.head v).hdr →
      s.bptr.OpenedHead (Encoding.head v) c → c.Views (Encoding.plain v ++ rest) →
        ∃ b o, RdbDecode.decode_body E s =
            ⟨.ok (), ⟨{ s.dec with out := some s.dec.dest }, b⟩, o⟩ ∧
          b.At (c.adv (Encoding.plain v).length) ∧
          o.map Event.sent = (s.dec.dest, .d_start_key s.dec.type s.dec.key.val) ::
            ((Encoding.calls v).map (s.dec.dest, ·) ++ [(s.dec.dest, .d_end_key s.dec.type)])

/-- Every value of the kind is decoded. -/
class Decodes (E : outParam Env) (V : Type) [Encoding E V] : Prop where
  decode_body_run : ∀ v : V, Encoding.Decoded v

open RdbDecode DecodeProc in
instance {E : Env} : Decodes E (Value E) where
  decode_body_run v s c rest htype hrlen hs hv := by
    have hbody : decode_body E s = decode_type E v.type s := by
      rw [decode_body, Proc.read_bind_run, htype]
      rfl
    rw [hbody]
    cases v with
    | string x =>
      have hread : Reads (RdbBufptr.Opened x)
          (decode_str .empty s.dec.rlen >>= fun str => call (.d_string str.val))
          x.plain [.d_string x.val] fun _ => RdbBufptr.At := by
        rw [hrlen]
        refine (Reads.decode_str .empty x).bind_call fun r => Reads.of_fact fun hr => ?_
        rw [hr]
        exact (Reads.call _).mono (fun _ _ h => h) fun _ _ _ h => h.at
      rw [Value.type, decode_type, decode_string_eq]
      exact framed_run (f := fun t =>
        decode_str .empty t.dec.rlen >>= fun str => call (.d_string str.val)) hread hs hv
    | list n xs hn =>
      have hlen : s.dec.rlen.len = xs.length := by rw [hrlen]; exact hn
      simp only [Encoding.calls, Value.calls, hn]
      exact decode_elems_run (fun cnt num x _ => Reads.decode_list_elem cnt num x) hlen (.main hs) hv
    | set n xs hn =>
      have hlen : s.dec.rlen.len = xs.length := by rw [hrlen]; exact hn
      simp only [Encoding.calls, Value.calls, hn]
      exact decode_elems_run (fun cnt num x _ => Reads.decode_set_elem cnt num x) hlen (.main hs) hv
    | hash n xs hn =>
      have hlen : s.dec.rlen.len = xs.length := by rw [hrlen]; exact hn
      simp only [Encoding.calls, Value.calls, hn]
      exact decode_elems_run (fun cnt num x _ => Reads.decode_hash_elem cnt num x) hlen (.main hs) hv

end rdbparser
