import Rdbparser.Proc.Follows
import Rdbparser.Stream

/-! What holds of the steps on the buffer and of the callbacks holds of all decoders. -/

namespace rdbparser

open RdbDecode

/-- A callback of an opcode before a record. -/
def Callback.of_opcode : Callback → Bool
  | .d_idle _ | .d_freq _ | .d_aux _ _ | .d_dbresize _ _ | .d_expired_ms _ | .d_expired _
  | .d_dbselect _ => true
  | _ => false

/-- A callback that hands out a part of a value that is no stream. -/
def Callback.of_elem : Callback → Bool
  | .d_string _ | .d_module _ | .d_hash .. | .d_list .. | .d_set .. | .d_zset .. => true
  | _ => false

/-- A callback that hands out an entry of a stream. -/
def Callback.of_entry : Callback → Bool
  | .d_stream_entry .. => true
  | _ => false

/-- A callback that hands out another part of a stream. -/
def Callback.of_part : Callback → Bool
  | .d_stream_start _ | .d_stream_end _ | .d_stream_info .. | .d_stream_group .. | .d_stream_pend ..
  | .d_stream_cons .. | .d_stream_cons_pend .. => true
  | _ => false

theorem Callback.of_part_value {c : Callback} (h : c.of_part = true) : c.of_value = true := by
  cases c <;> first | rfl | cases h

theorem Callback.of_elem_value {c : Callback} (h : c.of_elem = true) : c.of_value = true := by
  cases c <;> first | rfl | cases h

theorem Callback.of_part_entry {c : Callback} (h : c.of_part = true) : c.of_entry = false := by
  cases c <;> first | rfl | cases h

/-- A relation that holds of the steps on the buffer and of the callbacks of the kind `C`. -/
structure BufSteps (C : Callback → Bool) (T : St → List Event → St → Prop) : Prop where
  chains : Proc.Chains T
  incr : ∀ n, (DecodeProc.incr n).Follows T
  skip : ∀ n, (DecodeProc.skip n).Follows T
  decode : ∀ l, (DecodeProc.decode l).Follows T
  call : ∀ {c : Callback}, C c = true → (DecodeProc.call c).Follows T

structure ReadSteps (E : Env) (C : Callback → Bool) (T : St → List Event → St → Prop) : Prop
    extends BufSteps C T where
  consume : ∀ l, (DecodeProc.consume E l).Follows T

structure DecodeSteps (E : Env) (C : Callback → Bool) (T : St → List Event → St → Prop) : Prop
    extends ReadSteps E C T where
  decompress : ∀ l, (DecodeProc.decompress E l).Follows T

/-- It also holds where the type of a record, its key and its length are set. -/
structure HdrSteps (E : Env) (C : Callback → Bool) (T : St → List Event → St → Prop) : Prop
    extends ReadSteps E C T where
  start_type : ∀ type, (DecodeProc.start_type type).Follows T
  header : ∀ s type key rlen, T s [] { s with dec := { s.dec with type := type, key := key, rlen := rlen } }

/-- It also holds where a key is started, and where a module is skipped. -/
structure BodySteps (E : Env) (C : Callback → Bool) (T : St → List Event → St → Prop) : Prop
    extends DecodeSteps E C T where
  start_key : RdbDecode.start_key.Follows T
  scan : Proc.Follows (ε := RdbErrCode) T
    (Proc.update fun s => { s with bptr := module_scan s.bptr.avail s.bptr })

variable {E : Env} {C : Callback → Bool} {T : St → List Event → St → Prop}

namespace BufSteps

variable (h : BufSteps C T)

include h

theorem decode_plain : RdbDecode.decode_plain.Follows T :=
  .bind h.chains (h.decode {}) fun _ => .ite (.ret h.chains _) (.pure h.chains _)

theorem decode_str (str : RdbString) (len : RdbLength) :
    (RdbDecode.decode_str str len).Follows T :=
  .ite (.pure h.chains _) (.bind h.chains (h.incr _) fun _ => .pure h.chains _)

theorem local_incr (hptr : RdbBufptr) (n : Nat) : (RdbDecode.local_incr hptr n).Follows T := by
  unfold RdbDecode.local_incr
  split
  · exact .pure h.chains _
  · exact .ret h.chains _

theorem zipmap_len (hptr : RdbBufptr) (len : Nat) : (RdbDecode.zipmap_len hptr len).Follows T :=
  .ite (.bind h.chains (h.local_incr _ _) fun _ => .pure h.chains _) (.pure h.chains _)

/-- A score follows a relation that its steps follow. -/
theorem decode_score (type : RdbType) : (RdbDecode.decode_score type).Follows T := by
  refine .ite (.bind h.chains (h.incr _) fun _ => .pure h.chains _) (.bind h.chains (h.incr _) fun b => ?_)
  dsimp only
  split
  · exact .pure h.chains _
  · exact .pure h.chains _
  · exact .pure h.chains _
  · exact .bind h.chains (h.incr _) fun _ => .pure h.chains _

section Elements

variable (hC : ∀ c, c.of_elem = true → C c = true)

include hC

/-- So do the pairs of a zipmap, by induction on the turns that are left. -/
theorem zipmap_loop (cnt fuel num : Nat) (hptr : RdbBufptr) :
    (RdbDecode.zipmap_loop cnt fuel num hptr).Follows T := by
  induction fuel generalizing num hptr with
  | zero => exact .pure h.chains ()
  | succ fuel ih =>
    refine .ite (.pure h.chains ()) (.bind h.chains (h.local_incr _ _) fun _ => .ite (.pure h.chains ()) ?_)
    refine .bind h.chains (h.zipmap_len _ _) fun _ => .bind h.chains (h.local_incr _ _) fun _ => ?_
    refine .bind h.chains (h.local_incr _ _) fun _ => .bind h.chains (h.zipmap_len _ _) fun _ => ?_
    refine .bind h.chains (h.local_incr _ _) fun _ => .bind h.chains (h.local_incr _ _) fun _ => ?_
    exact .bind h.chains (h.call (hC _ rfl)) fun _ => ih _ _

theorem list_loop (next : RdbListValue → Bool × RdbListValue) (base : Ptr) (cnt fuel num : Nat)
    (lval : RdbListValue) : (RdbDecode.list_loop next base cnt fuel num lval).Follows T := by
  induction fuel generalizing num lval with
  | zero => exact .pure h.chains _
  | succ fuel ih =>
    exact .bind h.chains (h.call (hC _ rfl)) fun _ => .ite (ih _ _) (.pure h.chains _)

/-- So do pairs of a list. -/
theorem pair_loop (next : RdbListValue → Bool × RdbListValue) (base : Ptr)
    {d_pair : Nat → RdbVal → RdbVal → Callback} (hpair : ∀ n x y, (d_pair n x y).of_elem = true)
    (fuel num : Nat) (lval : RdbListValue) :
    (RdbDecode.pair_loop next base d_pair fuel num lval).Follows T := by
  induction fuel generalizing num lval with
  | zero => exact .pure h.chains _
  | succ fuel ih =>
    refine .ite (.bind h.chains (h.call (hC _ (hpair _ _ _))) fun _ => ?_) (.pure h.chains _)
    exact .ite (ih _ _) (.pure h.chains _)

end Elements

/-- So does what is said about a stream. -/
theorem stream_info (type : RdbType) : (RdbDecode.stream_info type).Follows T := by
  refine .bind h.chains (h.decode {}) fun num_elems => .bind h.chains (h.decode {}) fun last_ms => ?_
  refine .bind h.chains (h.decode {}) fun last_ser => ?_
  have hrest : ∀ num_elems : RdbLength, Proc.Follows T (do
      let num_cgroups ← DecodeProc.decode {}
      pure (num_elems.len, ⟨last_ms.len, last_ser.len⟩, num_cgroups.len) :
        DecodeProc (Nat × RdbStreamRecId × Nat)) := fun _ =>
    .bind h.chains (h.decode {}) fun _ => .pure h.chains _
  refine .ite ?_ (.bind h.chains (.pure h.chains _) hrest)
  exact .bind h.chains (h.decode {}) fun _ => .bind h.chains (h.decode {}) fun _ =>
    .bind h.chains (h.decode {}) fun _ => .bind h.chains (h.decode {}) fun _ => .bind h.chains (h.decode _) hrest

section Entries

variable (hC : ∀ c, c.of_value = true → C c = true)

include hC

theorem stream_entry (e : RdbStreamEntry) (base : Ptr) :
    (RdbDecode.stream_entry e base).Follows T := by
  unfold RdbDecode.stream_entry
  cases e.pairs base with
  | none => exact .ite (.bind h.chains (h.call (hC _ rfl)) fun _ => .ret h.chains _) (.ret h.chains _)
  | some pairs => exact .ite (.bind h.chains (h.call (hC _ rfl)) fun _ => h.call (hC _ rfl)) (h.call (hC _ rfl))

/-- So do the entries of a listpack, by induction on how many are counted. -/
theorem stream_entries (list : RdbListPack) (n : Nat) (e : RdbStreamEntry) (lval : RdbListValue) :
    (RdbDecode.stream_entries list n e lval).Follows T := by
  induction n generalizing e lval with
  | zero => exact .pure h.chains _
  | succ n ih =>
    unfold RdbDecode.stream_entries
    split
    · exact .ret h.chains _
    · exact .ret h.chains _
    · exact .ite (.bind h.chains (h.stream_entry hC _ _) fun _ => ih _ _) (ih _ _)

end Entries

section Parts

variable (hC : ∀ c, c.of_part = true → C c = true)

include hC

theorem stream_pend (cnt num : Nat) : (RdbDecode.stream_pend cnt num).Follows T :=
  .bind h.chains (h.incr _) fun _ => .bind h.chains (h.incr _) fun _ => .bind h.chains (h.decode {}) fun _ =>
    h.call (hC _ rfl)

theorem stream_cons_pend (cnt num : Nat) : (RdbDecode.stream_cons_pend cnt num).Follows T :=
  .bind h.chains (h.incr _) fun _ => h.call (hC _ rfl)

/-- So does a list of parts, if the parts do. -/
theorem stream_list (part : StreamPart) (cnt : Nat) {elem : Nat → DecodeProc Unit}
    (helem : ∀ i, (elem i).Follows T) :
    (RdbDecode.stream_list part cnt elem).Follows T := by
  have hend : Proc.Follows T (do
      Proc.count elem 0 cnt
      if cnt ≠ 0 then DecodeProc.call (.d_stream_end part) : DecodeProc Unit) :=
    .bind h.chains (.count h.chains helem 0 cnt) fun _ => .ite (h.call (hC _ rfl)) (.pure h.chains ())
  exact .ite (.bind h.chains (h.call (hC _ rfl)) fun _ => hend) hend

end Parts

end BufSteps

namespace ReadSteps

variable (h : ReadSteps E C T)

include h

theorem decode_aux_str : (RdbDecode.decode_aux_str E).Follows T :=
  .bind h.chains (h.decode {}) fun _ =>
    .ite (.pure h.chains _) (.bind h.chains (h.consume _) fun _ => .pure h.chains _)

/-- So does an opcode, if the relation is one of their calls. -/
theorem decode_meta_op (hC : ∀ c, c.of_opcode = true → C c = true) (op : RdbMeta) :
    (RdbDecode.decode_meta_op E op).Follows T := by
  cases op with
  | RDB_MODULE_AUX | RDB_EOF => exact .ret h.chains _
  | RDB_IDLE | RDB_DBSELECT => exact .bind h.chains h.decode_plain fun _ => h.call (hC _ rfl)
  | RDB_FREQ | RDB_EXPIRED_MS | RDB_EXPIRED_SEC =>
    exact .bind h.chains (h.incr _) fun _ => h.call (hC _ rfl)
  | RDB_AUX =>
    exact .bind h.chains h.decode_aux_str fun _ => .bind h.chains h.decode_aux_str fun _ => h.call (hC _ rfl)
  | RDB_DBRESIZE =>
    exact .bind h.chains h.decode_plain fun _ => .bind h.chains h.decode_plain fun _ => h.call (hC _ rfl)

/-- So do all opcodes in front of a key. -/
theorem decode_meta_loop (hC : ∀ c, c.of_opcode = true → C c = true) (fuel : Nat) :
    (RdbDecode.decode_meta_loop E fuel).Follows T := by
  induction fuel with
  | zero => exact .pure h.chains ()
  | succ fuel ih =>
    refine .read_bind h.chains fun s => .ite (.pure h.chains ()) ?_
    split
    · exact .pure h.chains ()
    · exact .bind h.chains (h.skip 1) fun _ => .bind h.chains (h.decode_meta_op hC _) fun _ => ih

theorem stream_text : (RdbDecode.stream_text E).Follows T :=
  .bind h.chains (h.decode {}) fun _ => .bind h.chains (h.consume _) fun _ => .pure h.chains _

theorem stream_name : (RdbDecode.stream_name E).Follows T := .recode _ h.stream_text

section Elements

variable (hC : ∀ c, c.of_elem = true → C c = true)

include hC

theorem decode_quicklist_node (num : Nat) : (RdbDecode.decode_quicklist_node E num).Follows T := by
  refine .bind h.chains (h.decode {}) fun llen => .bind h.chains (h.consume _) fun b => ?_
  split
  · exact .ret h.chains _
  · exact .ite (h.list_loop hC _ _ _ _ _ _) (.pure h.chains _)

theorem decode_quicklist_2_node (num : Nat) :
    (RdbDecode.decode_quicklist_2_node E num).Follows T := by
  refine .bind h.chains (h.decode {}) fun container => .bind h.chains (h.decode {}) fun llen => ?_
  refine .bind h.chains (h.consume _) fun b => .ite ?_ (.ret h.chains _)
  split
  · exact .ret h.chains _
  · exact .ite (h.list_loop hC _ _ _ _ _ _) (.pure h.chains _)

end Elements

theorem stream_lp : (RdbDecode.stream_lp E).Follows T :=
  .bind h.chains (h.decode {}) fun _ => .bind h.chains (h.consume _) fun _ => .bind h.chains (h.decode {}) fun _ =>
    .bind h.chains (h.consume _) fun _ => .pure h.chains _

/-- So does a node of a stream. -/
theorem stream_node (hC : ∀ c, c.of_value = true → C c = true) (e : RdbStreamEntry) :
    (RdbDecode.stream_node E e).Follows T := by
  refine .bind h.chains (.recode _ h.stream_lp) fun r => ?_
  unfold RdbDecode.stream_block
  split
  · exact .pure h.chains _
  · split
    · exact .ret h.chains _
    · exact .ret h.chains _
    · exact h.stream_entries hC _ _ _ _

section Parts

variable (hC : ∀ c, c.of_part = true → C c = true)

include hC

theorem stream_cons (cnt num : Nat) : (RdbDecode.stream_cons E cnt num).Follows T := by
  refine .bind h.chains h.stream_name fun _ => .bind h.chains (h.incr _) fun _ => ?_
  refine .bind h.chains (h.decode {}) fun _ => .bind h.chains (h.call (hC _ rfl)) fun _ => ?_
  exact .bind h.chains (h.stream_list hC _ _ fun _ => h.stream_cons_pend hC _ _) fun _ => h.call (hC _ rfl)

/-- A group follows a relation that its steps follow. -/
theorem stream_group (type : RdbType) (cnt : Nat) (b : Nat × RdbLength) :
    (RdbDecode.stream_group E type cnt b).Follows T := by
  obtain ⟨num, group_off⟩ := b
  refine .bind h.chains h.stream_name fun gname => .bind h.chains (h.decode {}) fun last_ms => ?_
  refine .bind h.chains (h.decode {}) fun last_ser => ?_
  have hrest : ∀ group_off : RdbLength, Proc.Follows T (do
      let pend_cnt ← DecodeProc.decode {}
      DecodeProc.call (.d_stream_group num cnt gname pend_cnt.len ⟨last_ms.len, last_ser.len⟩)
      RdbDecode.stream_list .STREAM_PENDING_LIST pend_cnt.len (RdbDecode.stream_pend pend_cnt.len)
      let cons_cnt ← DecodeProc.decode {}
      RdbDecode.stream_list .STREAM_CONSUMER_LIST cons_cnt.len (RdbDecode.stream_cons E cons_cnt.len)
      DecodeProc.call (.d_stream_end .STREAM_GROUP)
      pure (num + 1, group_off) : DecodeProc (Nat × RdbLength)) := fun _ =>
    .bind h.chains (h.decode {}) fun _ => .bind h.chains (h.call (hC _ rfl)) fun _ =>
    .bind h.chains (h.stream_list hC _ _ fun _ => h.stream_pend hC _ _) fun _ =>
    .bind h.chains (h.decode {}) fun _ =>
    .bind h.chains (h.stream_list hC _ _ fun _ => h.stream_cons hC _ _) fun _ =>
    .bind h.chains (h.call (hC _ rfl)) fun _ => .pure h.chains _
  exact .ite (.bind h.chains (h.decode _) hrest) (.bind h.chains (.pure h.chains _) hrest)

/-- So does what is stored behind the nodes. -/
theorem stream_trailer (type : RdbType) (entry_cnt : Nat) : (RdbDecode.stream_trailer E type entry_cnt).Follows T := by
  have hgroups : ∀ n : Nat, Proc.Follows T (do
      let _ ← Proc.times n (RdbDecode.stream_group E type n) (0, {})
      if n ≠ 0 then DecodeProc.call (.d_stream_end .STREAM_GROUP_LIST) : DecodeProc Unit) := fun n =>
    .bind h.chains (.times h.chains (h.stream_group hC _ _) _ _) fun _ => .ite (h.call (hC _ rfl)) (.pure h.chains ())
  have hinfo : Proc.Follows T (do
      let r ← RdbDecode.stream_info type
      DecodeProc.call (.d_stream_info r.2.1 r.1 r.2.2 entry_cnt)
      if r.2.2 ≠ 0 then DecodeProc.call (.d_stream_start .STREAM_GROUP_LIST)
      let _ ← Proc.times r.2.2 (RdbDecode.stream_group E type r.2.2) (0, {})
      if r.2.2 ≠ 0 then DecodeProc.call (.d_stream_end .STREAM_GROUP_LIST) : DecodeProc Unit) :=
    .bind h.chains (h.stream_info _) fun _ => .bind h.chains (h.call (hC _ rfl)) fun _ =>
      .ite (.bind h.chains (h.call (hC _ rfl)) fun _ => hgroups _) (hgroups _)
  exact .ite (.bind h.chains (h.call (hC _ rfl)) fun _ => hinfo) hinfo

end Parts

end ReadSteps

namespace HdrSteps

variable (h : HdrSteps E C T)

include h

/-- So does the length at the head of a value. -/
theorem decode_hdr_len : DecodeProc.decode_hdr_len.Follows T := by
  intro s
  have hdecode := h.decode {} s
  unfold DecodeProc.decode at hdecode
  unfold DecodeProc.decode_hdr_len
  obtain ⟨err, l, b, hrun⟩ : ∃ err l b, ({} : RdbLength).decode s.bptr = (err, l, b) := ⟨_, _, _, rfl⟩
  rw [hrun] at hdecode ⊢
  have hset := h.header { s with bptr := b } s.dec.type s.dec.key l
  cases err <;> exact h.chains.trans hdecode hset

theorem decode_key : (RdbDecode.decode_key E).Follows T := by
  refine .read_bind h.chains fun s => .ite (fun t => ?_) ?_
  · exact h.header t _ _ _
  · exact .bind h.chains (h.consume _) fun _ t => h.header t _ _ _

theorem decode_type_key : (RdbDecode.decode_type_key E).Follows T := by
  refine .read_bind h.chains fun s => .ite (.ret h.chains _) ?_
  refine .bind h.chains (fun t => h.header t _ _ _) fun _ => .ite (.ret h.chains _) ?_
  refine .bind h.chains (h.start_type _) fun _ => .bind h.chains (h.skip _) fun _ => ?_
  refine .bind h.chains h.decode_hdr_len fun _ => .ite ?_ (.pure h.chains _)
  exact .bind h.chains h.decode_key fun _ => h.decode_hdr_len

end HdrSteps

namespace DecodeSteps

variable (h : DecodeSteps E C T)

include h

theorem decode_unzip : (RdbDecode.decode_unzip E).Follows T :=
  .read_bind h.chains fun _ => .ite (h.decompress _) (.pure h.chains _)

theorem decode_rlen (str : RdbString) : (RdbDecode.decode_rlen E str).Follows T :=
  .bind h.chains (h.decode {}) fun _ =>
    .ite (.bind h.chains (h.decompress _) fun _ => h.decode_str _ _) (h.decode_str _ _)

section Elements

variable (hC : ∀ c, c.of_elem = true → C c = true)

include hC

theorem decode_list_elem (cnt num : Nat) : (RdbDecode.decode_list_elem E cnt num).Follows T :=
  .bind h.chains (h.decode_rlen _) fun _ => h.call (hC _ rfl)

theorem decode_set_elem (cnt num : Nat) : (RdbDecode.decode_set_elem E cnt num).Follows T :=
  .bind h.chains (h.decode_rlen _) fun _ => h.call (hC _ rfl)

theorem decode_hash_elem (cnt num : Nat) : (RdbDecode.decode_hash_elem E cnt num).Follows T :=
  .bind h.chains (h.decode_rlen _) fun _ => .bind h.chains (h.decode_rlen _) fun _ => h.call (hC _ rfl)

theorem decode_zset_elem (type : RdbType) (cnt num : Nat) :
    (RdbDecode.decode_zset_elem E type cnt num).Follows T :=
  .bind h.chains (h.decode_rlen _) fun _ => .bind h.chains (h.decode_score _) fun _ => h.call (hC _ rfl)

end Elements

end DecodeSteps

/-- `decode_hdr` once there is an output. -/
theorem HdrSteps.decode_hdr_rest (h : HdrSteps E C T) (h' : DecodeSteps E C T)
    (hC : ∀ c, c.of_opcode = true → C c = true) (htrailer : (decode_trailer E).Follows T) (s : St) :
    Proc.Follows T (ε := RdbErrCode) (do
      if s.dec.ver = 0 then RdbDecode.decode_trailer E
      let s ← Proc.read
      if s.dec.is_rdb_file then RdbDecode.decode_meta_loop E (s.bptr.avail + s.bptr.sav_avail)
      RdbDecode.decode_type_key E
      RdbDecode.decode_unzip E) := by
  have hrecord : Proc.Follows T (ε := RdbErrCode) (do
      RdbDecode.decode_type_key E
      RdbDecode.decode_unzip E) := .bind h.chains h.decode_type_key fun _ => h'.decode_unzip
  have hlast : Proc.Follows T (ε := RdbErrCode) (do
      let s ← Proc.read
      if s.dec.is_rdb_file then RdbDecode.decode_meta_loop E (s.bptr.avail + s.bptr.sav_avail)
      RdbDecode.decode_type_key E
      RdbDecode.decode_unzip E) :=
    .read_bind h.chains fun s => .ite (.bind h.chains (h.decode_meta_loop hC _) fun _ => hrecord) hrecord
  exact .ite (.bind h.chains htrailer fun _ => hlast) hlast

namespace BodySteps

variable (h : BodySteps E C T) (hC : ∀ c, c.of_value = true → C c = true)
  (hend : ∀ type, C (.d_end_key type) = true)

include h hC hend

omit hC in
theorem end_key : RdbDecode.end_key.Follows T :=
  .read_bind h.chains fun _ => h.call (hend _)

/-- So does the scope of the entry: destroying it puts out nothing. -/
theorem stream_scope : (RdbDecode.stream_scope E).Follows T := by
  have hpart : ∀ c : Callback, c.of_part = true → C c = true := fun c hc => hC c (Callback.of_part_value hc)
  have hnodes : (RdbDecode.stream_nodes E).Follows T :=
    .bind h.chains h.start_key fun _ => .read_bind h.chains fun _ => .times h.chains (h.stream_node hC) _ _
  have hparts : (RdbDecode.stream_parts E).Follows T := by
    refine .bind h.chains hnodes fun e => .read_bind h.chains fun s =>
      .bind h.chains (.recode _ ?_) fun _ => .pure h.chains e
    exact .bind h.chains (h.stream_trailer hpart _ _) fun _ => h.end_key hend
  exact .bind h.chains hparts fun _ => .ite (.pure h.chains ()) (.ret h.chains _)

/-- So does the decoder of every type. -/
theorem decode_type (type : RdbType) : (RdbDecode.decode_type E type).Follows T := by
  have helem : ∀ c : Callback, c.of_elem = true → C c = true := fun c hc => hC c (Callback.of_elem_value hc)
  have hpair : ∀ cnt n x y, (Callback.d_zset n cnt x y).of_elem = true := fun _ _ _ _ => rfl
  have hhash : ∀ cnt n x y, (Callback.d_hash n cnt x y).of_elem = true := fun _ _ _ _ => rfl
  have hendk := h.end_key hend
  cases type with
  | RDB_BAD_TYPE => exact .ret h.chains _
  | RDB_STREAM_LISTPACK | RDB_STREAM_LISTPACKS_2 => exact .accept _ (h.stream_scope hC hend)
  | RDB_STRING =>
    exact .bind h.chains h.start_key fun _ => .read_bind h.chains fun s =>
      .bind h.chains (h.decode_str _ _) fun _ => .bind h.chains (h.call (hC _ rfl)) fun _ => hendk
  | RDB_LIST =>
    exact .bind h.chains h.start_key fun _ => .read_bind h.chains fun s =>
      .bind h.chains (.count h.chains (h.decode_list_elem helem _) _ _) fun _ => hendk
  | RDB_SET =>
    exact .bind h.chains h.start_key fun _ => .read_bind h.chains fun s =>
      .bind h.chains (.count h.chains (h.decode_set_elem helem _) _ _) fun _ => hendk
  | RDB_HASH =>
    exact .bind h.chains h.start_key fun _ => .read_bind h.chains fun s =>
      .bind h.chains (.count h.chains (h.decode_hash_elem helem _) _ _) fun _ => hendk
  | RDB_ZSET | RDB_ZSET_2 =>
    exact .bind h.chains h.start_key fun _ => .read_bind h.chains fun s =>
      .bind h.chains (.count h.chains (h.decode_zset_elem helem _ _) _ _) fun _ => hendk
  | RDB_MODULE | RDB_MODULE_2 =>
    refine .read_bind h.chains fun s => .ite (.ret h.chains _) (.bind h.chains h.start_key fun _ => ?_)
    exact .bind h.chains (h.call (hC _ rfl)) fun _ => .bind h.chains hendk fun _ => h.scan
  | RDB_HASH_ZIPMAP =>
    refine .bind h.chains h.start_key fun _ => .read_bind h.chains fun s => .bind h.chains (h.incr _) fun b => ?_
    dsimp only
    split <;> exact .bind h.chains (h.zipmap_loop helem _ _ _ _) fun _ => hendk
  | RDB_SET_INTSET =>
    refine .bind h.chains h.start_key fun _ => .bind h.chains (h.incr _) fun b => .ite (.ret h.chains _) ?_
    refine .bind h.chains (h.incr _) fun b' => ?_
    exact .bind h.chains (.count h.chains (fun _ => h.call (hC _ rfl)) _ _) fun _ => hendk
  | RDB_LIST_ZIPLIST | RDB_ZSET_ZIPLIST | RDB_HASH_ZIPLIST =>
    refine .bind h.chains h.start_key fun _ => .read_bind h.chains fun s => .bind h.chains (h.incr _) fun b => ?_
    split
    · exact .ret h.chains _
    · refine .ite ?_ hendk
      split
      · exact .bind h.chains (h.pair_loop helem _ _ (hpair _) _ _ _) fun _ => hendk
      · exact .bind h.chains (h.list_loop helem _ _ _ _ _ _) fun _ => hendk
      · exact .bind h.chains (h.pair_loop helem _ _ (hhash _) _ _ _) fun _ => hendk
  | RDB_LIST_QUICKLIST =>
    exact .bind h.chains h.start_key fun _ => .read_bind h.chains fun s =>
      .bind h.chains (.times h.chains (h.decode_quicklist_node helem) _ _) fun _ => hendk
  | RDB_LIST_QUICKLIST_2 =>
    exact .bind h.chains h.start_key fun _ => .read_bind h.chains fun s =>
      .bind h.chains (.times h.chains (h.decode_quicklist_2_node helem) _ _) fun _ => hendk
  | RDB_HASH_LISTPACK | RDB_ZSET_LISTPACK =>
    refine .bind h.chains h.start_key fun _ => .read_bind h.chains fun s => .bind h.chains (h.incr _) fun b => ?_
    split
    · exact .ret h.chains _
    · dsimp only
      split
      · exact .ite (.bind h.chains (h.pair_loop helem _ _ (hhash _) _ _ _) fun _ => hendk) hendk
      · exact .ite (.bind h.chains (h.pair_loop helem _ _ (hpair _) _ _ _) fun _ => hendk) hendk
      · exact .ret h.chains _

theorem decode_body : (RdbDecode.decode_body E).Follows T :=
  .read_bind h.chains fun _ => h.decode_type hC hend _

end BodySteps

end rdbparser
