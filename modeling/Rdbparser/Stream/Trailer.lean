import Rdbparser.Decode.Record
import Rdbparser.Decode.Sends
import Rdbparser.Stream.Names

namespace rdbparser

open format RdbDecode DecodeProc

variable {E : Env}

/-- An id is read from its two numbers, big endian. -/
theorem format.StreamId.rec_id {x : StreamId} {p : Ptr} (hp : p.mem.Starts x.bytes) :
    RdbDecode.rec_id p = x.id := by
  obtain ⟨hms, hser⟩ := Mem.starts_append.mp hp
  have htake : p.mem.take 8 = be_bytes 8 x.id.ms := by simpa using hms.take
  have htake' : (p.mem.add 8).take 8 = be_bytes 8 x.id.ser := by simpa using hser.take
  rw [RdbDecode.rec_id, htake, htake', be_nat_be_bytes, be_nat_be_bytes,
    Nat.mod_eq_of_lt (show x.id.ms < 256 ^ 8 from x.hms),
    Nat.mod_eq_of_lt (show x.id.ser < 256 ^ 8 from x.hser)]

theorem format.StreamId.bytes_length (x : StreamId) : x.bytes.length = 128 / 8 := by
  simp [bytes]

namespace Reads

theorem le_64 {n : Nat} (h : n < 2 ^ 64) {p : Ptr} (hp : p.mem.Starts (le_bytes 8 n)) :
    le_nat (p.mem.take 8) = n := by
  have htake : p.mem.take 8 = le_bytes 8 n := by simpa using hp.take
  rw [htake, le_nat_le_bytes, Nat.mod_eq_of_lt (show n < 256 ^ 8 from h)]

/-- A length in the main buffer. -/
theorem decode_len (n : StoredLen) : Reads RdbBufptr.On (DecodeProc.decode {}) n.bytes []
    fun l b c => b.On c ∧ l.len = n.val :=
  (decode (.plain n)).mono (fun _ _ h => .main h) fun _ _ _ h => ⟨h.1, h.2 ▸ rfl⟩

theorem stream_cons_pend (cnt num : Nat) (x : StreamId) :
    Reads RdbBufptr.On (RdbDecode.stream_cons_pend cnt num) x.bytes [.d_stream_cons_pend num cnt x.id]
      fun _ => RdbBufptr.On := by
  refine (incr (128 / 8) x.bytes_length).bind_call fun p => of_fact fun hp => ?_
  rw [StreamId.rec_id hp]
  exact call _

theorem stream_pend (cnt num : Nat) (x : StreamPend) :
    Reads RdbBufptr.On (RdbDecode.stream_pend cnt num) x.bytes [x.call cnt num] fun _ => RdbBufptr.On := by
  refine (incr (128 / 8) x.id.bytes_length).bind_read fun p => of_fact fun hp => ?_
  refine (incr 8 (le_bytes_length 8 x.last_delivery)).bind_read fun q => of_fact fun hq => ?_
  refine (decode_len x.delivery_cnt).bind_call fun l => of_fact fun hl => ?_
  simp only [StreamId.rec_id hp, le_64 x.hlast hq, hl]
  exact call _

/-- A name that can be read. -/
theorem stream_name (x : Blob E) : Reads RdbBufptr.At (RdbDecode.stream_name E) x.str.bytes []
    fun v b c => b.Closed x.str c ∧ v = x.str.val := by
  intro s c d rest hs hv hd
  have hread : Reads RdbBufptr.At (RdbDecode.stream_text E) x.str.bytes [] fun v b c =>
    b.Closed x.str c ∧ v = x.str.val := by
    refine (decode x.str.hdr).bind_read fun l => of_fact fun hl => ?_
    subst hl
    intro s c d rest hs hv hd
    obtain ⟨p, b, hcons, hclosed, hholds, -⟩ := consume_run x.str x.not_int hs hv
    exact ⟨_, b, [], Proc.bind_quiet hcons, ⟨hclosed, (hholds .empty).val⟩, rfl⟩
  obtain ⟨v, b, o, hrun, hq, ho⟩ := hread s c d rest hs hv hd
  exact ⟨v, b, o, Proc.recode_ok hrun, hq, ho⟩

/-- The info about a stream; in the second layout the number of elements is overwritten. -/
theorem stream_info (t : StreamTrailer E) :
    Reads RdbBufptr.At (RdbDecode.stream_info t.type)
      (t.elems.bytes ++ (t.last_ms.bytes ++ (t.last_ser.bytes ++ (t.more_bytes ++ t.group_cnt.bytes)))) []
      fun r b c => b.On c ∧ r = (t.last_count, ⟨t.last_ms.val, t.last_ser.val⟩, t.group_cnt.val) := by
  refine (decode_again {} t.elems).bind_read fun elems => of_fact fun helems => ?_
  refine (decode_len t.last_ms).bind_read fun ms => of_fact fun hms => ?_
  refine (decode_len t.last_ser).bind_read fun ser => of_fact fun hser => ?_
  have hcnt : ∀ num_elems : RdbLength, num_elems.len = t.last_count →
      Reads RdbBufptr.On (do
        let num_cgroups ← DecodeProc.decode {}
        pure (num_elems.len, (⟨ms.len, ser.len⟩ : RdbStreamRecId), num_cgroups.len) : DecodeProc _)
        t.group_cnt.bytes []
        fun r b c => b.On c ∧
          r = (t.last_count, ⟨t.last_ms.val, t.last_ser.val⟩, t.group_cnt.val) := by
    intro num_elems hnum
    refine (decode_len t.group_cnt).bind_call fun l => of_fact fun hl => ?_
    rw [hnum, hms, hser, hl]
    exact value fun _ _ h => ⟨h, rfl⟩
  cases hmore : t.more with
  | none =>
    have htype : t.type = .RDB_STREAM_LISTPACK := by rw [StreamTrailer.type, hmore]
    rw [htype, StreamTrailer.more_bytes, hmore]
    exact hcnt elems (by rw [helems, StreamTrailer.last_count, hmore])
  | some m =>
    have htype : t.type = .RDB_STREAM_LISTPACKS_2 := by rw [StreamTrailer.type, hmore]
    rw [htype, StreamTrailer.more_bytes, hmore]
    simp only [StreamMore.bytes, List.append_assoc]
    refine (decode_len m.first_ms).bind_read fun _ => of_fact fun _ => ?_
    refine (decode_len m.first_ser).bind_read fun _ => of_fact fun _ => ?_
    refine (decode_len m.max_del_ms).bind_read fun _ => of_fact fun _ => ?_
    refine (decode_len m.max_del_ser).bind_read fun _ => of_fact fun _ => ?_
    refine ((decode_again elems m.entries_added).mono (fun _ _ h => .main h) fun _ _ _ h => h).bind_read
      fun added => of_fact fun hadded => ?_
    exact hcnt added (by rw [hadded, StreamTrailer.last_count, hmore])

end Reads

namespace Goes

/-- Behind a compressed name nothing is read, for `incr` does not go back to the main buffer. -/
theorem stream_cons (cnt num : Nat) (x : StreamCons E) :
    Goes RdbBufptr.On (RdbDecode.stream_cons E cnt num) x.bytes [x.name.str] (x.calls cnt num)
      fun _ => RdbBufptr.On where
  reads hall := by
    have hx := hall _ List.mem_cons_self
    refine ((Reads.stream_name x.name).mono (fun _ _ h => .main h) fun _ _ _ h => ⟨h.1.on hx, h.2⟩).bind_read
      fun v => .of_fact fun hv => ?_
    refine (Reads.incr 8 (le_bytes_length 8 x.last_seen)).bind_read fun p => .of_fact fun hp => ?_
    refine (Reads.decode_len x.pend_cnt).bind_read fun l => .of_fact fun hl => ?_
    rw [hv, Reads.le_64 x.hseen hp, hl]
    have hlist := Reads.stream_list .STREAM_CONSUMER_PENDING_LIST x.hpend
      (fun num y _ => Reads.stream_cons_pend x.pend_cnt.val num y) fun _ _ _ => rfl
    have hend := hlist.bind fun _ => Reads.call (P := RdbBufptr.On) (.d_stream_end .STREAM_CONSUMER)
    rw [List.append_nil] at hend
    exact Reads.call_bind _ hend
  stops hex := by
    have hlzf : x.name.str.is_lzf = true := by simpa using hex
    have hnone : clear [x.name.str] = 0 := Nat.lt_one_iff.mp (clear_lt hex)
    rw [hnone, StreamCons.calls, upto_zero_cons rfl]
    refine ((Reads.stream_name x.name).mono (fun _ _ h => .main h) fun _ _ _ h => h.1).bind_stops fun v => ?_
    refine Stops.bind (show Stops _ _ [] _ from ?_) _ _
    intro s c d rest hs hv hd
    have havail : s.bptr.avail = 0 := hs.avail hlzf
    refine ⟨s, [], ?_, rfl⟩
    rw [DecodeProc.incr, RdbBufptr.incr_none (by omega)]

/-- The number of entries a group has read, in the second layout, and what follows it. -/
theorem entries_read {α : Type} {f : RdbLength → DecodeProc α} {bs : List UInt8} {names : List (StoredStr E)}
    {calls : List Callback} {Q : α → RdbBufptr → Place → Prop} (type : RdbType) (off : RdbLength) (n : StoredLen)
    (hf : ∀ off, Goes RdbBufptr.On (f off) bs names calls Q) :
    Goes RdbBufptr.On
      (if type = .RDB_STREAM_LISTPACKS_2 then DecodeProc.decode off >>= f else Pure.pure off >>= f)
      ((if type = .RDB_STREAM_LISTPACKS_2 then n.bytes else []) ++ bs) names calls Q := by
  split
  · exact ((Reads.decode_again off n).mono (fun _ _ h => .main h) fun _ _ _ h => h.1).bind_goes hf
  · exact (Reads.value (Q := fun _ => RdbBufptr.On) fun _ _ h => h).bind_goes hf

/-- A group goes through its bytes, up to the first compressed name of a consumer of it. -/
theorem stream_group (type : RdbType) (cnt num : Nat) (off : RdbLength) (x : StreamGroup E) :
    Goes RdbBufptr.At (RdbDecode.stream_group E type cnt (num, off)) (x.bytes type)
      (x.consumers.map fun c => c.name.str) (x.calls cnt num) fun r b c => b.On c ∧ r.1 = num + 1 := by
  refine (Reads.stream_name x.name).bind_goes fun v => .of_fact fun hv => ?_
  refine ((Reads.decode_again {} x.last_ms).mono (fun _ _ h => h.at) fun _ _ _ h => h).bind_goes
    fun ms => .of_fact fun hms => ?_
  refine (Reads.decode_len x.last_ser).bind_goes fun ser => .of_fact fun hser => ?_
  refine entries_read type off x.entries_read fun off' => ?_
  refine (Reads.decode_len x.pend_cnt).bind_goes fun n => .of_fact fun hn => ?_
  rw [hv, hms, hser, hn]
  refine Goes.call_bind ?_
  have hpend := Reads.stream_list .STREAM_PENDING_LIST x.hpend
    (fun num y _ => Reads.stream_pend x.pend_cnt.val num y) fun _ _ _ => rfl
  refine (Goes.of_reads hpend).bind (fun _ => ?_) (StreamGroup.countP_pending x)
  refine (Reads.decode_len x.cons_cnt).bind_goes fun m => .of_fact fun hm => ?_
  rw [hm]
  have hcons := Goes.stream_list .STREAM_CONSUMER_LIST x.hcons
    (fun num y _ => stream_cons x.cons_cnt.val num y) fun num y _ => y.countP_calls x.cons_cnt.val num
  have hend := hcons.bind (fun _ => Goes.of_reads (Reads.call_bind (.d_stream_end .STREAM_GROUP)
    (.value (Q := fun r b c => b.On c ∧ r.1 = num + 1) (a := (num + 1, off')) fun _ _ h => ⟨h, rfl⟩)))
    x.countP_consumers
  rwa [List.append_nil, List.append_nil, ← List.map_eq_flatMap] at hend

/-- The groups one after the other, counted from `k`. -/
theorem stream_groups (type : RdbType) (cnt : Nat) (xs : List (StreamGroup E)) (k : Nat) (off : RdbLength) :
    Goes RdbBufptr.On (Proc.times xs.length (RdbDecode.stream_group E type cnt) (k, off))
      (xs.flatMap (StreamGroup.bytes type)) (xs.flatMap fun g => g.consumers.map fun c => c.name.str)
      (xs.mapIdx fun num g => g.calls cnt (k + num)).flatten fun _ => RdbBufptr.On := by
  induction xs generalizing k off with
  | nil => exact .of_reads (.value fun _ _ h => h)
  | cons x xs ih =>
    have hgroup := (stream_group type cnt k off x).mono (fun _ _ h => .main h) fun _ _ _ h => h
    rw [List.flatMap_cons, List.flatMap_cons, List.mapIdx_cons, List.flatten_cons]
    refine hgroup.bind (fun r => .of_fact fun hr => ?_) (x.countP_calls cnt k)
    obtain ⟨num, off'⟩ := r
    obtain rfl : num = k + 1 := hr
    simpa only [Nat.add_zero, Nat.add_assoc, Nat.add_comm 1] using ih (k + 1) off'

end Goes

namespace RdbDecode

/-- Once the nodes are decoded, the trailer follows, and where it can not be read the entry is destroyed. -/
theorem stream_parts_run {s t : St} {e : RdbStreamEntry} {o : List Event} (h : stream_nodes E s = ⟨.ok e, t, o⟩)
    {u : St} {o' : List Event} (htrailer : (stream_trailer E t.dec.type e.num >>= fun _ => end_key) t =
      ⟨.ok (), u, o'⟩) :
    stream_parts E s = ⟨.ok e, u, o ++ o'⟩ := by
  refine Proc.bind_ok h ?_
  rw [Proc.read_bind_run, Proc.bind_ok (Proc.recode_ok htrailer) (Proc.pure_run e u), List.append_nil]

/-- A stream that is decoded up to its end is taken for decoded if the entry can be destroyed. -/
theorem decode_stream_run {s t : St} {e : RdbStreamEntry} {o : List Event} (h : stream_parts E s = ⟨.ok e, t, o⟩) :
    decode_stream E s = ⟨if e.destroy.isSome then .ok () else .error .undefined, t, o⟩ := by
  rw [decode_stream, Proc.accept, stream_scope_run h]
  cases e.destroy.isSome <;> rfl

/-- A stream that is not decoded up to its end ends with the same code, unless this is taken for success. -/
theorem decode_stream_error {s t : St} {err : RdbErrCode} {o : List Event} (h : stream_parts E s = ⟨.error err, t, o⟩)
    (hne : err ≠ .RDB_OK) : (decode_stream E s).res = .error err := by
  have hscope : stream_scope E s = ⟨.error err, t, o⟩ := Proc.bind_error h
  simp only [decode_stream, Proc.accept, hscope, if_neg hne]

/-- An entry that cannot be destroyed makes no end of the stream well defined. -/
theorem decode_stream_undestroyed {s t : St} {e : RdbStreamEntry} {o : List Event}
    (h : stream_nodes E s = ⟨.ok e, t, o⟩)
    (hdestroy : e.destroy.isSome = false) : (decode_stream E s).res = .error .undefined := by
  have hnone : ¬ e.destroy.isSome = true := by
    rw [hdestroy]
    exact Bool.false_ne_true
  rcases htrailer : (stream_trailer E t.dec.type e.num >>= fun _ => end_key) t with ⟨err | ⟨⟩, u, o'⟩
  · have hparts : stream_parts E s = ⟨.error (e.leave err), u, o ++ o'⟩ := by
      refine Proc.bind_ok h ?_
      rw [Proc.read_bind_run]
      exact Proc.bind_error (Proc.recode_error htrailer)
    have hleave : e.leave err = .undefined := if_neg hnone
    rw [hleave] at hparts
    exact decode_stream_error hparts (by decide)
  · rw [decode_stream_run (stream_parts_run h htrailer), if_neg hnone]

end RdbDecode

/-- The callbacks behind `entry_cnt` entries, up to the end of the key, when `num_elems` is given for the number of
elements. -/
def format.StreamTrailer.parts_of (entry_cnt num_elems : Nat) (x : StreamTrailer E) : List Callback :=
  (if entry_cnt ≠ 0 then [.d_stream_end .STREAM_ENTRY_LIST] else []) ++
    .d_stream_info ⟨x.last_ms.val, x.last_ser.val⟩ num_elems x.group_cnt.val entry_cnt ::
      listed .STREAM_GROUP_LIST x.group_cnt.val (x.groups.mapIdx (StreamGroup.calls x.group_cnt.val)).flatten

/-- Those the decoder makes, which gives the count that it has read last. -/
def format.StreamTrailer.parts (entry_cnt : Nat) (x : StreamTrailer E) : List Callback :=
  x.parts_of entry_cnt x.last_count

/-- The trailer is handed out with the count that is read last for the number of elements, up to the first
consumer whose name is compressed. -/
theorem Goes.stream_trailer (x : StreamTrailer E) (entry_cnt : Nat) :
    Goes RdbBufptr.At (RdbDecode.stream_trailer E x.type entry_cnt) x.bytes x.consumer_names
      (x.parts entry_cnt) fun _ => RdbBufptr.On := by
  have hgroups := stream_groups x.type x.group_cnt.val x.groups 0 {}
  simp only [Nat.zero_add] at hgroups
  have hlist : Goes RdbBufptr.On (do
      if x.group_cnt.val ≠ 0 then DecodeProc.call (.d_stream_start .STREAM_GROUP_LIST)
      let _ ← Proc.times x.group_cnt.val (RdbDecode.stream_group E x.type x.group_cnt.val) (0, {})
      if x.group_cnt.val ≠ 0 then DecodeProc.call (.d_stream_end .STREAM_GROUP_LIST))
      (x.groups.flatMap (StreamGroup.bytes x.type)) x.consumer_names
      (listed .STREAM_GROUP_LIST x.group_cnt.val
        (x.groups.mapIdx (StreamGroup.calls x.group_cnt.val)).flatten) fun _ => RdbBufptr.On := by
    rw [x.hgroups] at hgroups ⊢
    rw [listed]
    by_cases hnil : x.groups.length = 0
    · rw [StreamTrailer.consumer_names, hnil, List.length_eq_zero_iff.mp hnil]
      exact .of_reads (.value fun _ _ h => h)
    · simp only [ne_eq, hnil, not_false_eq_true, if_true, if_false]
      have h := hgroups.bind (fun _ => .of_reads (.call (P := RdbBufptr.On) (.d_stream_end .STREAM_GROUP_LIST)))
        (countP_mapIdx_flatten fun num g _ => g.countP_calls x.groups.length num)
      rw [List.append_nil, List.append_nil] at h
      exact h.call_bind
  have hbytes : x.bytes = (x.elems.bytes ++ (x.last_ms.bytes ++ (x.last_ser.bytes ++
      (x.more_bytes ++ x.group_cnt.bytes)))) ++ x.groups.flatMap (StreamGroup.bytes x.type) := by
    simp only [StreamTrailer.bytes, List.append_assoc]
  rw [RdbDecode.stream_trailer, StreamTrailer.parts, StreamTrailer.parts_of, hbytes]
  by_cases hentries : entry_cnt = 0
  · simp only [ne_eq, hentries, not_true_eq_false, if_false, List.nil_append]
    refine (Reads.stream_info x).bind_goes fun r => .of_fact fun hr => ?_
    subst hr
    exact hlist.call_bind
  · simp only [ne_eq, hentries, not_false_eq_true, if_true, List.singleton_append]
    refine Goes.call_bind ((Reads.stream_info x).bind_goes fun r => .of_fact fun hr => ?_)
    subst hr
    exact hlist.call_bind

/-- A stream without nodes. -/
theorem stream_nodes_none {s : St} (h : s.dec.rlen.len = 0) :
    stream_nodes E s = ⟨.ok {}, { s with dec.out := some s.dec.dest },
      [⟨s.dec.dest, .d_start_key s.dec.type s.dec.key.val, s.bptr.offset⟩]⟩ := by
  rw [stream_nodes, Proc.bind_ok (start_key_run s) rfl]
  dsimp only
  rw [h]
  rfl

/-- The nodes change nothing of the decoder but the output. -/
theorem stream_nodes_dec {s t : St} {e : RdbStreamEntry} {o : List Event}
    (h : stream_nodes E s = ⟨.ok e, t, o⟩) : t.dec = { s.dec with out := some s.dec.dest } := by
  have hnodes : ∀ n e, (Proc.times n (stream_node E) e).Follows (Sends fun _ => true) := fun n e =>
    .times Sends.chains (fun e => Sends.steps.stream_node (fun _ _ => rfl) e) n e
  rw [stream_nodes, Proc.bind_ok (start_key_run s) rfl] at h
  have hdec := (hnodes s.dec.rlen.len {} { s with dec.out := some s.dec.dest }).1
  rw [← (Run.mk.inj h).2.1]
  exact hdec

theorem format.StreamTrailer.calls_of_inj (x : StreamTrailer E) {entry_cnt m n : Nat}
    (h : x.calls_of entry_cnt m = x.calls_of entry_cnt n) : m = n := by
  rw [StreamTrailer.calls_of, StreamTrailer.calls_of, List.append_cancel_left_eq] at h
  simpa using h

/-- The stream whose nodes leave the entry `e` is decoded to what is stored behind them, up to the last byte of the
trailer. The entry is destroyed behind that, if it can be. -/
def format.StreamTrailer.Reported (x : StreamTrailer E) (s : St) (e : RdbStreamEntry) (o : List Event)
    (c : Place) : Prop :=
  ∃ u o', decode_stream E s = ⟨if e.destroy.isSome then .ok () else .error .undefined, u, o ++ o'⟩ ∧
    o'.map Event.sent = (x.calls e.num).map (s.dec.dest, ·) ∧ u.bptr.On (c.adv x.bytes.length)

/-- Behind the nodes of a stream, whatever these are, the trailer is handed out as it is stored if and only
if the count that is read last, in the second layout that of all entries ever added, is the number of
elements. -/
theorem decode_stream_trailer_iff (x : StreamTrailer E) (hx : ∀ n ∈ x.consumer_names, n.is_lzf = false)
    {s t : St} {e : RdbStreamEntry} {o : List Event} (hnodes : stream_nodes E s = ⟨.ok e, t, o⟩)
    (htype : s.dec.type = x.type) {c : Place} {rest : List UInt8} (hat : t.bptr.At c)
    (hv : c.Views (x.bytes ++ rest)) : x.Reported s e o c ↔ x.last_count = x.elems.val := by
  have hdec := stream_nodes_dec hnodes
  have hout : t.dec.out = some s.dec.dest := by rw [hdec]
  obtain ⟨_, b, o', hrun, hon, ho⟩ := (Goes.stream_trailer x e.num).reads hx t c s.dec.dest rest hat hv hout
  have htype' : t.dec.type = x.type := by rw [hdec, ← htype]
  have hend : end_key { t with bptr := b } =
      ⟨.ok (), { t with bptr := b }, [⟨s.dec.dest, .d_end_key t.dec.type, b.offset⟩]⟩ := end_key_run hout
  have hstream := decode_stream_run (stream_parts_run hnodes (htype' ▸ Proc.bind_ok hrun hend))
  have hcalls : List.map Event.sent (o' ++ [⟨s.dec.dest, .d_end_key t.dec.type, b.offset⟩]) =
      (x.calls_of e.num x.last_count).map (s.dec.dest, ·) := by
    rw [List.map_append, ho, StreamTrailer.parts, StreamTrailer.parts_of, StreamTrailer.calls_of, hdec, htype]
    simp only [List.map_append, List.map_cons, List.append_assoc, List.cons_append]
    rfl
  rw [StreamTrailer.Reported, hstream]
  constructor
  · rintro ⟨u, o'', hrun', ho'', -⟩
    obtain ⟨-, -, hsame⟩ := Run.mk.inj hrun'
    obtain rfl := List.append_cancel_left hsame
    rw [hcalls] at ho''
    exact x.calls_of_inj (List.map_injective_iff.mpr (Prod.mk_right_injective s.dec.dest) ho'')
  · intro hcount
    refine ⟨_, _, rfl, ?_, hon⟩
    rw [hcalls, hcount]
    rfl

/-- A length of 6 bits. -/
theorem format.StreamTrailer.time_fits : 7 < 2 ^ 64 := by decide

/-- One element, and one group "g" with one pending entry, which its consumer "c" has pending. -/
def format.StreamTrailer.pending : StreamTrailer Env.literal where
  elems := .short 1
  last_ms := .short 5
  last_ser := .short 0
  more := none
  group_cnt := .short 1
  groups := [{
    name := ⟨.letter 0x67, rfl⟩
    last_ms := .short 5
    last_ser := .short 0
    entries_read := .short 0
    pend_cnt := .short 1
    pending := [⟨⟨⟨5, 0⟩, by decide, by decide⟩, 7, time_fits, .short 1⟩]
    hpend := StoredLen.short_one
    cons_cnt := .short 1
    consumers := [⟨⟨.letter 0x63, rfl⟩, 7, time_fits, .short 1,
      [⟨⟨5, 0⟩, by decide, by decide⟩], StoredLen.short_one⟩]
    hcons := StoredLen.short_one }]
  hgroups := StoredLen.short_one

/-- The decoder in front of a stream without nodes. -/
def St.no_nodes (type : RdbType) (bytes : List UInt8) : St :=
  ⟨{ data_out := true, type := type }, RdbBufptr.init ⟨.input, Mem.ofList bytes 0, 0⟩ bytes.length⟩

theorem decode_stream_trailer_pending :
    StreamTrailer.pending.Reported (St.no_nodes .RDB_STREAM_LISTPACK StreamTrailer.pending.bytes) {}
        [⟨.data_out, .d_start_key .RDB_STREAM_LISTPACK .nil, 0⟩]
        ⟨⟨.input, Mem.ofList StreamTrailer.pending.bytes 0, 0⟩, StreamTrailer.pending.bytes.length, 0, 0⟩ ↔
      StreamTrailer.pending.last_count = StreamTrailer.pending.elems.val :=
  decode_stream_trailer_iff StreamTrailer.pending (by decide) (stream_nodes_none rfl) rfl (.main ⟨rfl, rfl⟩)
    (Place.ofList_views_end _ _ _)

/-- The trailer of a stream to which three entries were added and from which all are trimmed. -/
def format.StreamTrailer.trimmed : StreamTrailer Env.literal where
  elems := .short 0
  last_ms := .short 5
  last_ser := .short 0
  more := some ⟨.short 0, .short 0, .short 5, .short 0, .short 3⟩
  group_cnt := .short 0
  groups := []
  hgroups := rfl

/-- In the second layout the number of elements is not that of the stream. -/
theorem stream_trailer_misreported : ¬ ∀ (E : Env) (x : StreamTrailer E) (s t : St) (e : RdbStreamEntry)
    (o : List Event) (c : Place) (rest : List UInt8), (∀ n ∈ x.consumer_names, n.is_raw = true) →
      stream_nodes E s = ⟨.ok e, t, o⟩ → s.dec.type = x.type → t.bptr.At c → c.Views (x.bytes ++ rest) →
        x.Reported s e o c := by
  intro h
  obtain ⟨u, o', hrun, ho', -⟩ := h _ StreamTrailer.trimmed
    (St.no_nodes .RDB_STREAM_LISTPACKS_2 StreamTrailer.trimmed.bytes) _ _ _ _ [] (by decide)
    (stream_nodes_none rfl) rfl (.main ⟨rfl, rfl⟩)
    (by rw [List.append_nil]; exact Place.ofList_views _ _ _)
  have hsent : (decode_stream Env.literal
      (St.no_nodes .RDB_STREAM_LISTPACKS_2 StreamTrailer.trimmed.bytes)).out.map Event.sent =
        [(.data_out, .d_start_key .RDB_STREAM_LISTPACKS_2 .nil),
          (.data_out, .d_stream_info ⟨5, 0⟩ 3 0 0), (.data_out, .d_end_key .RDB_STREAM_LISTPACKS_2)] := by
    decide +kernel
  rw [hrun, List.map_append, ho'] at hsent
  revert hsent
  decide

end rdbparser
