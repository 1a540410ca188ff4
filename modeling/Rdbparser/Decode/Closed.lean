import Rdbparser.Proc.Closed
import Rdbparser.Stream

/-! What holds of the steps of the decoders, and is blind to the filter, holds of all decoders. -/

namespace rdbparser

open RdbDecode

/-- The state of a decoder without a filter, which has all its output on the real one. -/
def St.unfilter (s : St) : St :=
  { s with dec := { s.dec with filter := none, out := s.dec.out.map fun _ => .data_out } }

/-- A code of a record that is cut short, damaged or not supported. -/
def RdbErrCode.of_record : RdbErrCode → Bool
  | .RDB_ERR_TRUNC | .RDB_ERR_HDR | .RDB_ERR_LZF | .RDB_ERR_NOTSUP | .undefined => true
  | _ => false

/-- A code of `decode_hdr`. -/
def RdbErrCode.of_hdr : RdbErrCode → Bool
  | .RDB_ERR_OUTPUT | .RDB_ERR_TRUNC | .RDB_ERR_VERSION | .RDB_ERR_CRC | .RDB_ERR_TYPE | .RDB_ERR_HDR | .RDB_ERR_LZF
  | .RDB_ERR_NOTSUP | .RDB_EOF_MARK => true
  | _ => false

/-- A property that the steps on the buffer and the callbacks have, wherever they go. -/
structure DecodeClosed (E : Env) (B : RdbErrCode → Prop) (P : ∀ {α : Type}, DecodeProc α → Prop) : Prop
    extends Proc.Closed St.unfilter B P where
  incr : ∀ n, P (DecodeProc.incr n)
  decode : ∀ l, P (DecodeProc.decode l)
  consume : ∀ l, P (DecodeProc.consume E l)
  decompress : ∀ l, P (DecodeProc.decompress E l)
  call : ∀ c, P (DecodeProc.call c)
  start_type : ∀ type, P (DecodeProc.start_type type)
  decode_hdr_len : P DecodeProc.decode_hdr_len

variable {E : Env} {B : RdbErrCode → Prop} {P : ∀ {α : Type}, DecodeProc α → Prop}

namespace DecodeClosed

variable (h : DecodeClosed E B P)

include h

theorem skip (n : Nat) : P (DecodeProc.skip n) := by
  refine h.update fun s => ?_
  cases hincr : s.bptr.incr n with
  | none => simp [St.unfilter, hincr]
  | some r => simp [St.unfilter, hincr]

theorem start_key : P RdbDecode.start_key :=
  h.bind (h.update fun _ => rfl) fun _ => h.read_bind (fun _ => rfl) fun _ => h.call _

theorem end_key : P RdbDecode.end_key := h.read_bind (fun _ => rfl) fun _ => h.call _

theorem decode_str (str : RdbString) (len : RdbLength) : P (RdbDecode.decode_str str len) :=
  h.ite (h.pure _) (h.bind (h.incr _) fun _ => h.pure _)

theorem decode_rlen (str : RdbString) : P (RdbDecode.decode_rlen E str) :=
  h.bind (h.decode {}) fun _ => h.ite (h.bind (h.decompress _) fun _ => h.decode_str _ _) (h.decode_str _ _)

theorem decode_elems {elem : Nat → Nat → DecodeProc Unit} (helem : ∀ cnt i, P (elem cnt i)) :
    P (RdbDecode.decode_elems elem) :=
  h.bind h.start_key fun _ => h.read_bind (fun _ => rfl) fun _ => h.bind (h.count (helem _) _ _) fun _ => h.end_key

theorem list_loop (next : RdbListValue → Bool × RdbListValue) (base : Ptr) (cnt fuel num : Nat)
    (lval : RdbListValue) : P (RdbDecode.list_loop next base cnt fuel num lval) := by
  induction fuel generalizing num lval with
  | zero => exact h.pure _
  | succ fuel ih => exact h.bind (h.call _) fun _ => h.ite (ih _ _) (h.pure _)

theorem pair_loop (next : RdbListValue → Bool × RdbListValue) (base : Ptr) (d_pair : Nat → RdbVal → RdbVal → Callback)
    (fuel num : Nat) (lval : RdbListValue) : P (RdbDecode.pair_loop next base d_pair fuel num lval) := by
  induction fuel generalizing num lval with
  | zero => exact h.pure _
  | succ fuel ih => exact h.ite (h.bind (h.call _) fun _ => h.ite (ih _ _) (h.pure _)) (h.pure _)

theorem stream_list (part : StreamPart) (cnt : Nat) {elem : Nat → DecodeProc Unit} (helem : ∀ i, P (elem i)) :
    P (RdbDecode.stream_list part cnt elem) := by
  have hend : P (do
      Proc.count elem 0 cnt
      if cnt ≠ 0 then DecodeProc.call (.d_stream_end part) : DecodeProc Unit) :=
    h.bind (h.count helem 0 cnt) fun _ => h.ite (h.call _) (h.pure ())
  exact h.ite (h.bind (h.call _) fun _ => hend) hend

theorem stream_pend (cnt num : Nat) : P (RdbDecode.stream_pend cnt num) :=
  h.bind (h.incr _) fun _ => h.bind (h.incr _) fun _ => h.bind (h.decode {}) fun _ => h.call _

theorem stream_cons_pend (cnt num : Nat) : P (RdbDecode.stream_cons_pend cnt num) :=
  h.bind (h.incr _) fun _ => h.call _

theorem decode_aux_str : P (RdbDecode.decode_aux_str E) :=
  h.bind (h.decode {}) fun _ => h.ite (h.pure _) (h.bind (h.consume _) fun _ => h.pure _)

/-- The counts and ids behind the nodes of a stream, with those that the second layout adds. -/
theorem stream_info (type : RdbType) : P (RdbDecode.stream_info type) := by
  refine h.bind (h.decode {}) fun num_elems => h.bind (h.decode {}) fun last_ms =>
    h.bind (h.decode {}) fun last_ser => ?_
  have hrest : ∀ num_elems : RdbLength, P (do
      let num_cgroups ← DecodeProc.decode {}
      pure (num_elems.len, ⟨last_ms.len, last_ser.len⟩, num_cgroups.len) :
        DecodeProc (Nat × RdbStreamRecId × Nat)) := fun _ => h.bind (h.decode {}) fun _ => h.pure _
  refine h.ite ?_ (h.bind (h.pure _) hrest)
  exact h.bind (h.decode {}) fun _ => h.bind (h.decode {}) fun _ => h.bind (h.decode {}) fun _ =>
    h.bind (h.decode {}) fun _ => h.bind (h.decode _) hrest

/-! The header of a record. -/

section Header

variable (hB : ∀ e, e.of_hdr = true → B e)

include hB

theorem decode_plain : P RdbDecode.decode_plain :=
  h.bind (h.decode {}) fun _ => h.ite (h.ret (hB _ rfl)) (h.pure _)

/-- An opcode in front of a key, by what it is. -/
theorem decode_meta_op (op : RdbMeta) : P (RdbDecode.decode_meta_op E op) := by
  have hplain := h.decode_plain hB
  have haux := h.decode_aux_str
  cases op with
  | RDB_MODULE_AUX | RDB_EOF => exact h.ret (hB _ rfl)
  | RDB_IDLE | RDB_DBSELECT => exact h.bind hplain fun _ => h.call _
  | RDB_FREQ | RDB_EXPIRED_MS | RDB_EXPIRED_SEC => exact h.bind (h.incr _) fun _ => h.call _
  | RDB_AUX => exact h.bind haux fun _ => h.bind haux fun _ => h.call _
  | RDB_DBRESIZE => exact h.bind hplain fun _ => h.bind hplain fun _ => h.call _

/-- Opcodes up to a type, by induction on the turns that are left. -/
theorem decode_meta_loop (fuel : Nat) : P (RdbDecode.decode_meta_loop E fuel) := by
  induction fuel with
  | zero => exact h.pure ()
  | succ fuel ih =>
    refine h.read_bind (fun _ => rfl) fun s => h.ite (h.pure ()) ?_
    split
    · exact h.pure ()
    · exact h.bind (h.skip 1) fun _ => h.bind (h.decode_meta_op hB _) fun _ => ih

/-- The version and the crc, from the front of a file or from the end of a dump. -/
theorem decode_trailer : P (RdbDecode.decode_trailer E) := by
  have hver : P RdbDecode.decode_ver := by
    refine h.read_bind (fun _ => rfl) fun s => h.ite ?_ (h.bind (h.update fun _ => rfl) fun _ => h.pure _)
    refine h.bind (h.update fun _ => rfl) fun _ => h.ite (h.ret (hB _ rfl)) ?_
    exact h.ite (h.bind (h.update fun _ => rfl) fun _ => h.pure _) (h.pure _)
  refine h.bind (h.update fun _ => rfl) fun _ => h.read_bind (fun _ => rfl) fun s => h.ite (h.ret (hB _ rfl)) ?_
  refine h.bind hver fun _ => h.read_bind (fun _ => rfl) fun _ => h.ite (h.ret (hB _ rfl)) ?_
  exact h.ite (h.update fun _ => rfl) (h.skip _)

/-- The type and, in a file, the key. -/
theorem decode_type_key : P (RdbDecode.decode_type_key E) := by
  have hkey : P (RdbDecode.decode_key E) :=
    h.read_bind (fun _ => rfl) fun _ =>
      h.ite (h.update fun _ => rfl) (h.bind (h.consume _) fun _ => h.update fun _ => rfl)
  refine h.read_bind (fun _ => rfl) fun s => h.ite (h.ret (hB _ rfl)) (h.bind (h.update fun _ => rfl) fun _ => ?_)
  refine h.ite (h.ret (hB _ rfl)) (h.bind (h.start_type _) fun _ => h.bind (h.skip _) fun _ =>
    h.bind h.decode_hdr_len fun _ => ?_)
  exact h.ite (h.bind hkey fun _ => h.decode_hdr_len) (h.pure _)

/-- The header of a record, from the version to the length of its value. -/
theorem decode_hdr : P (RdbDecode.decode_hdr E) := by
  have hunzip : P (RdbDecode.decode_unzip E) :=
    h.read_bind (fun _ => rfl) fun _ => h.ite (h.decompress _) (h.pure _)
  have hrecord : P (RdbDecode.decode_type_key E >>= fun _ => RdbDecode.decode_unzip E) :=
    h.bind (h.decode_type_key hB) fun _ => hunzip
  have hlast : P (do
      let s ← Proc.read
      if s.dec.is_rdb_file then RdbDecode.decode_meta_loop E (s.bptr.avail + s.bptr.sav_avail)
      RdbDecode.decode_type_key E
      RdbDecode.decode_unzip E : DecodeProc Unit) :=
    h.read_bind (fun _ => rfl) fun _ => h.ite (h.bind (h.decode_meta_loop hB _) fun _ => hrecord) hrecord
  -- that there is an output is seen, but not which
  refine h.read_bind (fun s => ?_) fun s => h.ite (h.ret (hB _ rfl)) ?_
  · simp [St.unfilter]
  · refine h.ite (h.bind (h.update fun _ => rfl) fun _ => ?_) ?_
    all_goals exact h.ite (h.bind (h.decode_trailer hB) fun _ => hlast) hlast

end Header

/-! The value of a record. -/

section Record

variable (hB : ∀ e, e.of_record = true → B e)

include hB

theorem local_incr (hptr : RdbBufptr) (n : Nat) : P (RdbDecode.local_incr hptr n) := by
  unfold RdbDecode.local_incr
  split
  · exact h.pure _
  · exact h.ret (hB _ rfl)

theorem zipmap_len (hptr : RdbBufptr) (len : Nat) : P (RdbDecode.zipmap_len hptr len) :=
  h.ite (h.bind (h.local_incr hB _ _) fun _ => h.pure _) (h.pure _)

/-- The pairs of a zipmap, by induction on the turns that are left. -/
theorem zipmap_loop (cnt fuel num : Nat) (hptr : RdbBufptr) : P (RdbDecode.zipmap_loop cnt fuel num hptr) := by
  have hincr := h.local_incr hB
  have hlen := h.zipmap_len hB
  induction fuel generalizing num hptr with
  | zero => exact h.pure ()
  | succ fuel ih =>
    refine h.ite (h.pure ()) (h.bind (hincr _ _) fun _ => h.ite (h.pure ()) ?_)
    refine h.bind (hlen _ _) fun _ => h.bind (hincr _ _) fun _ => h.bind (hincr _ _) fun _ => ?_
    refine h.bind (hlen _ _) fun _ => h.bind (hincr _ _) fun _ => h.bind (hincr _ _) fun _ => ?_
    exact h.bind (h.call _) fun _ => ih _ _

omit hB in
/-- A score as text or as bits. -/
theorem decode_score (type : RdbType) : P (RdbDecode.decode_score type) := by
  refine h.ite (h.bind (h.incr _) fun _ => h.pure _) (h.bind (h.incr _) fun b => ?_)
  dsimp only
  split
  · exact h.pure _
  · exact h.pure _
  · exact h.pure _
  · exact h.bind (h.incr _) fun _ => h.pure _

theorem decode_quicklist_node (num : Nat) : P (RdbDecode.decode_quicklist_node E num) := by
  refine h.bind (h.decode {}) fun _ => h.bind (h.consume _) fun _ => ?_
  split
  · exact h.ret (hB _ rfl)
  · exact h.ite (h.list_loop _ _ _ _ _ _) (h.pure _)

theorem decode_quicklist_2_node (num : Nat) : P (RdbDecode.decode_quicklist_2_node E num) := by
  refine h.bind (h.decode {}) fun _ => h.bind (h.decode {}) fun _ => h.bind (h.consume _) fun _ =>
    h.ite ?_ (h.ret (hB _ rfl))
  split
  · exact h.ret (hB _ rfl)
  · exact h.ite (h.list_loop _ _ _ _ _ _) (h.pure _)

/-! The parts of a stream; a name that cannot be read makes the decoder return. -/

theorem stream_entry (e : RdbStreamEntry) (base : Ptr) : P (RdbDecode.stream_entry e base) := by
  unfold RdbDecode.stream_entry
  cases e.pairs base with
  | none => exact h.ite (h.bind (h.call _) fun _ => h.ret (hB _ rfl)) (h.ret (hB _ rfl))
  | some pairs => exact h.ite (h.bind (h.call _) fun _ => h.call _) (h.call _)

omit hB in
theorem stream_text : P (RdbDecode.stream_text E) :=
  h.bind (h.decode {}) fun _ => h.bind (h.consume _) fun _ => h.pure _

omit hB in
theorem stream_lp : P (RdbDecode.stream_lp E) :=
  h.bind (h.decode {}) fun _ => h.bind (h.consume _) fun _ => h.bind (h.decode {}) fun _ =>
    h.bind (h.consume _) fun _ => h.pure _

/-- The entries of a listpack, by induction on how many are counted. -/
theorem stream_entries (list : RdbListPack) (n : Nat) (e : RdbStreamEntry) (lval : RdbListValue) :
    P (RdbDecode.stream_entries list n e lval) := by
  induction n generalizing e lval with
  | zero => exact h.pure _
  | succ n ih =>
    unfold RdbDecode.stream_entries
    split
    · exact h.ret (hB _ rfl)
    · exact h.ret (RdbStreamEntry.leave_of _ (hB _ rfl) (hB _ rfl))
    · exact h.ite (h.bind (h.stream_entry hB _ _) fun _ => ih _ _) (ih _ _)

/-- A node, its id and its listpack first. -/
theorem stream_node (e : RdbStreamEntry) : P (RdbDecode.stream_node E e) := by
  refine h.bind (h.recode (fun _ herr => e.leave_of herr (hB _ rfl)) h.stream_lp) fun r => ?_
  unfold RdbDecode.stream_block
  split
  · exact h.pure _
  · split
    · exact h.ret (hB _ rfl)
    · exact h.ret (RdbStreamEntry.leave_of _ (hB _ rfl) (hB _ rfl))
    · exact h.stream_entries hB _ _ _ _

omit hB

section Names

variable (hname : P (RdbDecode.stream_name E))

include hname

theorem stream_cons (cnt num : Nat) : P (RdbDecode.stream_cons E cnt num) := by
  refine h.bind hname fun _ => h.bind (h.incr _) fun _ => h.bind (h.decode {}) fun _ => h.bind (h.call _) fun _ => ?_
  exact h.bind (h.stream_list _ _ fun _ => h.stream_cons_pend _ _) fun _ => h.call _

/-- A group, with its pending entries and its consumers. -/
theorem stream_group (type : RdbType) (cnt : Nat) (b : Nat × RdbLength) : P (RdbDecode.stream_group E type cnt b) := by
  obtain ⟨num, group_off⟩ := b
  refine h.bind hname fun gname => h.bind (h.decode {}) fun last_ms => h.bind (h.decode {}) fun last_ser => ?_
  have hrest : ∀ group_off : RdbLength, P (do
      let pend_cnt ← DecodeProc.decode {}
      DecodeProc.call (.d_stream_group num cnt gname pend_cnt.len ⟨last_ms.len, last_ser.len⟩)
      RdbDecode.stream_list .STREAM_PENDING_LIST pend_cnt.len (RdbDecode.stream_pend pend_cnt.len)
      let cons_cnt ← DecodeProc.decode {}
      RdbDecode.stream_list .STREAM_CONSUMER_LIST cons_cnt.len (RdbDecode.stream_cons E cons_cnt.len)
      DecodeProc.call (.d_stream_end .STREAM_GROUP)
      pure (num + 1, group_off) : DecodeProc (Nat × RdbLength)) := fun _ =>
    h.bind (h.decode {}) fun _ => h.bind (h.call _) fun _ =>
    h.bind (h.stream_list _ _ fun _ => h.stream_pend _ _) fun _ =>
    h.bind (h.decode {}) fun _ => h.bind (h.stream_list _ _ fun _ => h.stream_cons hname _ _) fun _ =>
    h.bind (h.call _) fun _ => h.pure _
  exact h.ite (h.bind (h.decode _) hrest) (h.bind (h.pure _) hrest)

/-- What is stored behind the nodes of a stream. -/
theorem stream_trailer (type : RdbType) (entry_cnt : Nat) : P (RdbDecode.stream_trailer E type entry_cnt) := by
  have hgroups : ∀ n : Nat, P (do
      let _ ← Proc.times n (RdbDecode.stream_group E type n) (0, {})
      if n ≠ 0 then DecodeProc.call (.d_stream_end .STREAM_GROUP_LIST) : DecodeProc Unit) := fun n =>
    h.bind (h.times (h.stream_group hname _ _) _ _) fun _ => h.ite (h.call _) (h.pure ())
  have hinfo : P (do
      let r ← RdbDecode.stream_info type
      DecodeProc.call (.d_stream_info r.2.1 r.1 r.2.2 entry_cnt)
      if r.2.2 ≠ 0 then DecodeProc.call (.d_stream_start .STREAM_GROUP_LIST)
      let _ ← Proc.times r.2.2 (RdbDecode.stream_group E type r.2.2) (0, {})
      if r.2.2 ≠ 0 then DecodeProc.call (.d_stream_end .STREAM_GROUP_LIST) : DecodeProc Unit) :=
    h.bind (h.stream_info _) fun _ => h.bind (h.call _) fun _ =>
      h.ite (h.bind (h.call _) fun _ => hgroups _) (hgroups _)
  exact h.ite (h.bind (h.call _) fun _ => hinfo) hinfo

include hB

theorem stream_parts : P (RdbDecode.stream_parts E) := by
  have hnodes : P (RdbDecode.stream_nodes E) :=
    h.bind h.start_key fun _ => h.read_bind (fun _ => rfl) fun _ => h.times (h.stream_node hB) _ _
  refine h.bind hnodes fun e => h.read_bind (fun _ => rfl) fun s => ?_
  refine h.bind (h.recode (fun _ herr => e.leave_of herr (hB _ rfl)) ?_) fun _ => h.pure e
  exact h.bind (h.stream_trailer hname _ _) fun _ => h.end_key

theorem stream_scope : P (RdbDecode.stream_scope E) :=
  h.bind (h.stream_parts hB hname) fun _ => h.ite (h.pure ()) (h.ret (hB _ rfl))

end Names

include hB

/-- The body of a record of any type. Streams are left to the caller, as they may return early. -/
theorem decode_body (hstream : P (RdbDecode.decode_stream E)) : P (RdbDecode.decode_body E) := by
  refine h.read_bind (fun _ => rfl) fun s => ?_
  cases s.dec.type with
  | RDB_BAD_TYPE => exact h.ret (hB _ rfl)
  | RDB_STREAM_LISTPACK | RDB_STREAM_LISTPACKS_2 => exact hstream
  | RDB_STRING =>
    refine h.bind h.start_key fun _ => h.read_bind (fun _ => rfl) fun _ => h.bind (h.decode_str _ _) fun _ => ?_
    exact h.bind (h.call _) fun _ => h.end_key
  | RDB_LIST | RDB_SET => exact h.decode_elems fun _ _ => h.bind (h.decode_rlen _) fun _ => h.call _
  | RDB_HASH =>
    exact h.decode_elems fun _ _ => h.bind (h.decode_rlen _) fun _ => h.bind (h.decode_rlen _) fun _ => h.call _
  | RDB_ZSET | RDB_ZSET_2 =>
    refine h.bind h.start_key fun _ => h.read_bind (fun _ => rfl) fun s =>
      h.bind (h.count (fun _ => ?_) _ _) fun _ => h.end_key
    exact h.bind (h.decode_rlen _) fun _ => h.bind (h.decode_score _) fun _ => h.call _
  | RDB_HASH_ZIPMAP =>
    refine h.bind h.start_key fun _ => h.read_bind (fun _ => rfl) fun _ => h.bind (h.incr _) fun _ => ?_
    dsimp only
    split <;> exact h.bind (h.zipmap_loop hB _ _ _ _) fun _ => h.end_key
  | RDB_SET_INTSET =>
    refine h.bind h.start_key fun _ => h.bind (h.incr _) fun _ =>
      h.ite (h.ret (hB _ rfl)) (h.bind (h.incr _) fun _ => ?_)
    exact h.bind (h.count (fun _ => h.call _) _ _) fun _ => h.end_key
  | RDB_LIST_ZIPLIST | RDB_ZSET_ZIPLIST | RDB_HASH_ZIPLIST =>
    refine h.bind h.start_key fun _ => h.read_bind (fun _ => rfl) fun s => h.bind (h.incr _) fun _ => ?_
    split
    · exact h.ret (hB _ rfl)
    · refine h.ite ?_ h.end_key
      split
      · exact h.bind (h.pair_loop _ _ _ _ _ _) fun _ => h.end_key
      · exact h.bind (h.list_loop _ _ _ _ _ _) fun _ => h.end_key
      · exact h.bind (h.pair_loop _ _ _ _ _ _) fun _ => h.end_key
  | RDB_HASH_LISTPACK | RDB_ZSET_LISTPACK =>
    refine h.bind h.start_key fun _ => h.read_bind (fun _ => rfl) fun s => h.bind (h.incr _) fun _ => ?_
    split
    · exact h.ret (hB _ rfl)
    · dsimp only
      split
      · exact h.ite (h.bind (h.pair_loop _ _ _ _ _ _) fun _ => h.end_key) h.end_key
      · exact h.ite (h.bind (h.pair_loop _ _ _ _ _ _) fun _ => h.end_key) h.end_key
      · exact h.ret (hB _ rfl)
  | RDB_LIST_QUICKLIST =>
    exact h.bind h.start_key fun _ => h.read_bind (fun _ => rfl) fun _ =>
      h.bind (h.times (h.decode_quicklist_node hB) _ _) fun _ => h.end_key
  | RDB_LIST_QUICKLIST_2 =>
    exact h.bind h.start_key fun _ => h.read_bind (fun _ => rfl) fun _ =>
      h.bind (h.times (h.decode_quicklist_2_node hB) _ _) fun _ => h.end_key
  | RDB_MODULE | RDB_MODULE_2 =>
    refine h.read_bind (fun _ => rfl) fun _ =>
      h.ite (h.ret (hB _ rfl)) (h.bind h.start_key fun _ => h.bind (h.call _) fun _ => ?_)
    exact h.bind h.end_key fun _ => h.update fun _ => rfl

end Record

end DecodeClosed

end rdbparser
