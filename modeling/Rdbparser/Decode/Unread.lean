import Rdbparser.Decode.Codes
import Rdbparser.Decode.Framed
import Rdbparser.Decode.Record
import Rdbparser.Proc.Echoes

/-! Where the name of a group or consumer of a stream is cut off. The layout of what is stored is read here once
more, without the callbacks and without the entries of the listpacks. -/

namespace rdbparser

open RdbDecode

namespace RdbDecode

open DecodeProc

variable (E : Env)

/-- A pending entry of a group. -/
def stored_pend : DecodeProc Unit := do
  let _ ← incr (128 / 8)
  let _ ← incr 8
  let _ ← decode {}

/-- A consumer and its pending entries. -/
def stored_cons : DecodeProc Unit := do
  let _ ← stream_text E
  let _ ← incr 8
  let cpend ← decode {}
  Proc.count (fun _ => do let _ ← incr (128 / 8)) 0 cpend.len

/-- A group up to its consumers, with the count of these. The length that is read for the offset of the group
is that of the group before. -/
def group_front (type : RdbType) (group_off : RdbLength) : DecodeProc (RdbLength × Nat) := do
  let _ ← stream_text E
  let _ ← decode {}
  let _ ← decode {}
  let group_off ← if type = .RDB_STREAM_LISTPACKS_2 then decode group_off else pure group_off
  let pend_cnt ← decode {}
  Proc.count (fun _ => stored_pend) 0 pend_cnt.len
  let cons_cnt ← decode {}
  pure (group_off, cons_cnt.len)

def stored_group (type : RdbType) (group_off : RdbLength) : DecodeProc RdbLength := do
  let r ← group_front E type group_off
  Proc.count (fun _ => stored_cons E) 0 r.2
  pure r.1

/-- The nodes, whatever their listpacks hold, and the info about the stream, with the count of groups. -/
def stream_front : DecodeProc Nat := do
  let s ← Proc.read
  Proc.count (fun _ => do let _ ← stream_lp E) 0 s.dec.rlen.len
  let info ← stream_info s.dec.type
  pure info.2.2

end RdbDecode

/-- The bytes that are next are not the text of a name. -/
def St.Cut (E : Env) (s : St) : Prop := ∃ e, e ≠ .undefined ∧ (stream_text E s).res = .error e

/-- The name of a group is cut, or that of one of its consumers is. -/
def St.GroupCut (E : Env) (type : RdbType) (group_off : RdbLength) (s : St) : Prop :=
  s.Cut E ∨ ∃ r t, (group_front E type group_off).Leads s r t ∧
    ∃ i < r.2, ∃ u, (Proc.count (fun _ => stored_cons E) 0 i).Leads t () u ∧ u.Cut E

/-- A stream is stored up to the name of a group or consumer, and that name is cut. (`start_key` chooses the
output, of which the reading does not depend.) -/
def St.NameUnread (E : Env) (s : St) : Prop :=
  (s.dec.type = .RDB_STREAM_LISTPACK ∨ s.dec.type = .RDB_STREAM_LISTPACKS_2) ∧
    ∃ cnt t, (stream_front E).Leads (start_key s).st cnt t ∧
      ∃ i < cnt, ∃ off u, (Proc.times i (stored_group E s.dec.type) {}).Leads t off u ∧ u.GroupCut E s.dec.type off

variable {E : Env}

namespace RdbDecode

/-! The decoder goes through where the reading does. -/

section Echoes

open Proc

theorem call_echo (c : Callback) : (DecodeProc.call c).Echoes id (pure ()) := .emit

/-- A list goes through the same states as its elements alone. -/
theorem stream_list_echo {part : StreamPart} {cnt : Nat} {elem elem' : Nat → DecodeProc Unit}
    (helem : ∀ i, (elem i).Echoes id (elem' i)) : (stream_list part cnt elem).Echoes id (Proc.count elem' 0 cnt) := by
  have hlast : (if cnt ≠ 0 then DecodeProc.call (.d_stream_end part) else pure ()).Echoes id (pure ()) := by
    split
    · exact call_echo _
    · exact .refl _
  have hrest := Echoes.after hlast (Echoes.count helem 0 cnt)
  exact .ite_before (call_echo _) hrest

theorem stream_pend_echo (cnt num : Nat) : (stream_pend cnt num).Echoes id stored_pend :=
  (Echoes.refl _).bind fun _ => (Echoes.refl _).bind fun _ => (Echoes.refl _).bind fun _ => call_echo _

theorem stream_name_echo : (stream_name E).Echoes id (stream_text E) := (Echoes.refl _).recode _

theorem stream_cons_echo (cnt num : Nat) : (stream_cons E cnt num).Echoes id (stored_cons E) := by
  refine stream_name_echo.bind fun _ => (Echoes.refl _).bind fun _ => (Echoes.refl _).bind fun cpend => ?_
  refine (call_echo _).before (.after (call_echo _) (stream_list_echo fun _ => ?_))
  exact (Echoes.refl _).bind fun _ => call_echo _

/-- A group as it is decoded, up to its consumers. -/
def group_head (E : Env) (type : RdbType) (cnt : Nat) (b : Nat × RdbLength) : DecodeProc (RdbLength × Nat) := do
  let gname ← stream_name E
  let last_ms ← DecodeProc.decode {}
  let last_ser ← DecodeProc.decode {}
  let group_off ← if type = .RDB_STREAM_LISTPACKS_2 then DecodeProc.decode b.2 else pure b.2
  let pend_cnt ← DecodeProc.decode {}
  DecodeProc.call (.d_stream_group b.1 cnt gname pend_cnt.len ⟨last_ms.len, last_ser.len⟩)
  stream_list .STREAM_PENDING_LIST pend_cnt.len (stream_pend pend_cnt.len)
  let cons_cnt ← DecodeProc.decode {}
  pure (group_off, cons_cnt.len)

theorem stream_group_eq (type : RdbType) (cnt : Nat) (b : Nat × RdbLength) : stream_group E type cnt b = (do
    let r ← group_head E type cnt b
    stream_list .STREAM_CONSUMER_LIST r.2 (stream_cons E r.2)
    DecodeProc.call (.d_stream_end .STREAM_GROUP)
    pure (b.1 + 1, r.1)) := by
  obtain ⟨num, group_off⟩ := b
  simp only [stream_group, group_head, Proc.bind_assoc, Proc.bind_ite, Proc.pure_bind]

/-- The front of a group goes through the states that the reading of what is stored goes through. -/
theorem group_head_echo (type : RdbType) (cnt : Nat) (b : Nat × RdbLength) :
    (group_head E type cnt b).Echoes id (group_front E type b.2) := by
  refine stream_name_echo.bind fun _ => (Echoes.refl _).bind fun _ => (Echoes.refl _).bind fun _ => ?_
  have hrest : ∀ (last_ms last_ser group_off : RdbLength) (gname : RdbVal), Echoes (do
      let pend_cnt ← DecodeProc.decode {}
      DecodeProc.call (.d_stream_group b.1 cnt gname pend_cnt.len ⟨last_ms.len, last_ser.len⟩)
      stream_list .STREAM_PENDING_LIST pend_cnt.len (stream_pend pend_cnt.len)
      let cons_cnt ← DecodeProc.decode {}
      pure (group_off, cons_cnt.len)) id (do
      let pend_cnt ← DecodeProc.decode {}
      Proc.count (fun _ => stored_pend) 0 pend_cnt.len
      let cons_cnt ← DecodeProc.decode {}
      pure (group_off, cons_cnt.len)) := by
    intro last_ms last_ser group_off gname
    refine (Echoes.refl _).bind fun pend_cnt => (call_echo _).before ?_
    exact (stream_list_echo fun _ => stream_pend_echo _ _).bind fun _ => .refl _
  exact .ite (fun _ => (Echoes.refl _).bind fun _ => hrest _ _ _ _) fun _ =>
    (Echoes.refl _).bind fun _ => hrest _ _ _ _

theorem stream_group_echo (type : RdbType) (cnt : Nat) (b : Nat × RdbLength) :
    (stream_group E type cnt b).Echoes Prod.snd (stored_group E type b.2) := by
  rw [stream_group_eq]
  refine (group_head_echo type cnt b).bind fun r => (stream_list_echo fun _ => stream_cons_echo _ _).bind fun _ => ?_
  exact (call_echo _).before (.pure rfl)

end Echoes

/-! It returns `RDB_OK` early where a name is cut, and nowhere else. -/

/-- A code that is not taken for a success. -/
abbrev Fails (e : RdbErrCode) : Prop := e ≠ .RDB_OK

theorem not_ok {α : Type} {x : DecodeProc α} (hx : x.Codes Fails) (s : St) : (x s).res ≠ .error .RDB_OK :=
  fun h => hx s .RDB_OK h rfl

theorem fails_closed (E : Env) : DecodeClosed E Fails fun {α} (x : DecodeProc α) => x.Codes Fails := by
  refine codes_closed fun e h he => ?_
  rw [he] at h
  rcases h with h | h | h | h <;> cases h

/-- The steps in front of something else. -/
theorem bind_ok_left {α β : Type} {x : DecodeProc α} {f : α → DecodeProc β} (hx : x.Codes Fails) {s : St} :
    ((x >>= f) s).res = .error .RDB_OK ↔ ∃ a t, x.Leads s a t ∧ (f a t).res = .error .RDB_OK := by
  rw [Proc.bind_error_iff]
  exact or_iff_right (not_ok hx s)

/-- The steps behind something else. -/
theorem bind_ok_right {α β : Type} {x : DecodeProc α} {f : α → DecodeProc β} (hf : ∀ a, (f a).Codes Fails) {s : St} :
    ((x >>= f) s).res = .error .RDB_OK ↔ (x s).res = .error .RDB_OK := by
  rw [Proc.bind_error_iff]
  refine or_iff_left ?_
  rintro ⟨a, t, -, h⟩
  exact not_ok (hf a) t h

/-- A call does not return, so what is behind it decides. -/
theorem call_bind_ok {α : Type} {c : Callback} {x : DecodeProc α} {s : St} :
    ((DecodeProc.call c >>= fun _ => x) s).res = .error .RDB_OK ↔ (x s).res = .error .RDB_OK := by
  rw [bind_ok_left (.of_ok fun _ => ⟨(), rfl⟩)]
  constructor
  · rintro ⟨⟨⟩, t, ⟨o, hcall⟩, hrest⟩
    obtain ⟨-, rfl, -⟩ := Run.mk.inj hcall
    exact hrest
  · exact fun h => ⟨(), s, ⟨_, rfl⟩, h⟩

theorem ite_call_ok {α : Type} {p : Prop} [Decidable p] {c : Callback} {x : DecodeProc α} {s : St} :
    ((if p then DecodeProc.call c >>= fun _ => x else x) s).res = .error .RDB_OK ↔ (x s).res = .error .RDB_OK := by
  split
  · exact call_bind_ok
  · rfl

/-- The early return, with the code of success, is where a name is cut off. -/
theorem stream_name_ok {s : St} : (stream_name E s).res = .error .RDB_OK ↔ s.Cut E := by
  rw [stream_name, Proc.recode_run]
  constructor
  · intro h
    rcases hres : (stream_text E s).res with e | v
    · rw [hres] at h
      refine ⟨e, fun he => ?_, hres⟩
      rw [he] at h
      cases h
    · rw [hres] at h
      cases h
  · rintro ⟨e, he, hres⟩
    rw [hres]
    exact congrArg Except.error (if_neg he)

/-- A list is left with the code of success only in one of its elements, behind others that are read. -/
theorem stream_list_ok {part : StreamPart} {cnt : Nat} {elem : Nat → DecodeProc Unit} {s : St} :
    (stream_list part cnt elem s).res = .error .RDB_OK ↔
      ∃ i < cnt, ∃ t, (Proc.count elem 0 i).Leads s () t ∧ (elem i t).res = .error .RDB_OK := by
  have hlast : (if cnt ≠ 0 then DecodeProc.call (.d_stream_end part) else pure () : DecodeProc Unit).Codes Fails := by
    split <;> exact .of_ok fun _ => ⟨(), rfl⟩
  have hloop : ((Proc.count elem 0 cnt >>= fun _ =>
      if cnt ≠ 0 then DecodeProc.call (.d_stream_end part) else pure ()) s).res = .error .RDB_OK ↔
        ∃ i < cnt, ∃ t, (Proc.count elem 0 i).Leads s () t ∧ (elem i t).res = .error .RDB_OK := by
    rw [bind_ok_right fun _ => hlast, Proc.count_error_iff]
    simp only [Nat.zero_add]
  exact ite_call_ok.trans hloop

theorem stream_cons_ok {cnt num : Nat} {s : St} : (stream_cons E cnt num s).res = .error .RDB_OK ↔ s.Cut E := by
  have hclosed := fails_closed E
  rw [stream_cons, bind_ok_right, stream_name_ok]
  refine fun _ => hclosed.bind (hclosed.incr _) fun _ => hclosed.bind (hclosed.decode {}) fun _ => ?_
  refine hclosed.bind (hclosed.call _) fun _ => hclosed.bind (hclosed.stream_list _ _ fun _ => ?_) fun _ =>
    hclosed.call _
  exact hclosed.stream_cons_pend _ _

/-- The front of a group is left with the code of success only where its name is cut off. -/
theorem group_head_ok {type : RdbType} {cnt : Nat} {b : Nat × RdbLength} {s : St} :
    (group_head E type cnt b s).res = .error .RDB_OK ↔ s.Cut E := by
  have hclosed := fails_closed E
  rw [group_head, bind_ok_right, stream_name_ok]
  intro gname
  refine hclosed.bind (hclosed.decode {}) fun last_ms => hclosed.bind (hclosed.decode {}) fun last_ser => ?_
  have hrest : ∀ group_off : RdbLength, Proc.Codes Fails (do
      let pend_cnt ← DecodeProc.decode {}
      DecodeProc.call (.d_stream_group b.1 cnt gname pend_cnt.len ⟨last_ms.len, last_ser.len⟩)
      stream_list .STREAM_PENDING_LIST pend_cnt.len (stream_pend pend_cnt.len)
      let cons_cnt ← DecodeProc.decode {}
      pure (group_off, cons_cnt.len)) := fun _ =>
    hclosed.bind (hclosed.decode {}) fun _ => hclosed.bind (hclosed.call _) fun _ =>
    hclosed.bind (hclosed.stream_list _ _ fun _ => hclosed.stream_pend _ _) fun _ =>
    hclosed.bind (hclosed.decode {}) fun _ => hclosed.pure _
  exact hclosed.ite (hclosed.bind (hclosed.decode _) hrest) (hclosed.bind (hclosed.pure _) hrest)

/-- A group is left so only where its own name is cut off, or the one of a consumer behind others that are read. -/
theorem stream_group_ok {type : RdbType} {cnt : Nat} {b : Nat × RdbLength} {s : St} :
    (stream_group E type cnt b s).res = .error .RDB_OK ↔ s.GroupCut E type b.2 := by
  have hclosed := fails_closed E
  have hcons : ∀ (n i : Nat) (t u : St), (Proc.count (fun _ => stored_cons E) 0 i).Leads t () u ↔
      (Proc.count (stream_cons E n) 0 i).Leads t () u := by
    intro n i t u
    rw [Proc.Echoes.count (fun _ => stream_cons_echo n _) 0 i t () u]
    exact ⟨fun ⟨_, h, _⟩ => h, fun h => ⟨(), h, rfl⟩⟩
  have hfront : ∀ r t, (group_front E type b.2).Leads s r t ↔ (group_head E type cnt b).Leads s r t := by
    intro r t
    rw [group_head_echo type cnt b s r t]
    exact ⟨fun ⟨_, h, hr⟩ => hr ▸ h, fun h => ⟨r, h, rfl⟩⟩
  rw [stream_group_eq, Proc.bind_error_iff, group_head_ok, St.GroupCut]
  refine or_congr_right (exists_congr fun r => exists_congr fun t => and_congr (hfront r t).symm ?_)
  rw [bind_ok_right fun _ => hclosed.bind (hclosed.call _) fun _ => hclosed.pure _, stream_list_ok]
  simp only [stream_cons_ok, hcons r.2]

/-- What is stored behind the nodes is left so only in one of the groups, behind others that are read. -/
theorem stream_trailer_ok {type : RdbType} {entry_cnt : Nat} {s : St} :
    (stream_trailer E type entry_cnt s).res = .error .RDB_OK ↔ ∃ info t, (stream_info type).Leads s info t ∧
      ∃ i < info.2.2, ∃ off u, (Proc.times i (stored_group E type) {}).Leads t off u ∧ u.GroupCut E type off := by
  have hclosed := fails_closed E
  have hgroups : ∀ (n i : Nat) (off : RdbLength) (t u : St), (Proc.times i (stored_group E type) {}).Leads t off u ↔
      ∃ c, (Proc.times i (stream_group E type n) (0, {})).Leads t c u ∧ c.2 = off := fun n i off t u =>
    Proc.Echoes.times (fun b => stream_group_echo type n b) i (0, {}) t off u
  refine ite_call_ok.trans ?_
  rw [bind_ok_left (hclosed.stream_info type)]
  refine exists_congr fun info => exists_congr fun t => and_congr_right fun _ => ?_
  refine call_bind_ok.trans (ite_call_ok.trans ?_)
  rw [bind_ok_right fun _ => hclosed.ite (hclosed.call _) (hclosed.pure ()), Proc.times_error_iff]
  refine exists_congr fun i => and_congr_right fun _ => ?_
  simp only [hgroups info.2.2, stream_group_ok]
  constructor
  · rintro ⟨c, u, hlead, hcut⟩
    exact ⟨c.2, u, ⟨c, hlead, rfl⟩, hcut⟩
  · rintro ⟨_, u, ⟨c, hlead, rfl⟩, hcut⟩
    exact ⟨c, u, hlead, hcut⟩

/-- What is in the listpack of a node is not read from the buffer. -/
theorem stream_block_st (e : RdbStreamEntry) (r : RdbStreamRecId × Ptr × Nat) :
    (stream_block e r).Follows fun s _ t => t = s := by
  have hT : Proc.Chains fun (s : St) (_ : List Event) t => t = s := ⟨fun _ => rfl, fun h h' => h'.trans h⟩
  have hcall : ∀ c, (DecodeProc.call c).Follows fun s _ t => t = s := fun _ _ => rfl
  have hentry : ∀ e base, (stream_entry e base).Follows fun s _ t => t = s := by
    intro e base
    unfold stream_entry
    cases e.pairs base with
    | none => exact .ite (.bind hT (hcall _) fun _ => .ret hT _) (.ret hT _)
    | some pairs => exact .ite (.bind hT (hcall _) fun _ => hcall _) (hcall _)
  have hentries : ∀ list n e lval, (stream_entries list n e lval).Follows fun s _ t => t = s := by
    intro list n
    induction n with
    | zero => exact fun _ _ => .pure hT _
    | succ n ih =>
      intro e lval
      unfold stream_entries
      split
      · exact .ret hT _
      · exact .ret hT _
      · exact .ite (.bind hT (hentry _ _) fun _ => ih _ _) (ih _ _)
  unfold stream_block
  split
  · exact .pure hT _
  · split
    · exact .ret hT _
    · exact .ret hT _
    · exact hentries _ _ _ _

/-- The reading goes through where the nodes are decoded. -/
theorem stream_nodes_lead {n i : Nat} {e e' : RdbStreamEntry} {s t : St}
    (h : (Proc.times n (stream_node E) e).Leads s e' t) :
    (Proc.count (fun _ => do let _ ← stream_lp E) i n).Leads s () t := by
  induction n generalizing i e s with
  | zero =>
    obtain ⟨-, rfl⟩ := Proc.leads_pure_iff.mp h
    exact Proc.leads_pure_iff.mpr ⟨rfl, rfl⟩
  | succ n ih =>
    obtain ⟨e₁, u, hnode, hrest⟩ := Proc.leads_bind_iff.mp h
    obtain ⟨r, v, hlp, o, hblock⟩ := Proc.leads_bind_iff.mp hnode
    obtain rfl : u = v := by
      have hst := stream_block_st e r v
      rwa [hblock] at hst
    refine Proc.leads_bind_iff.mpr ⟨(), u, Proc.leads_bind_iff.mpr ⟨r, u, Proc.leads_recode_iff.mp hlp, ?_⟩, ih hrest⟩
    exact Proc.leads_pure_iff.mpr ⟨rfl, rfl⟩

theorem stream_nodes_codes : (stream_nodes E).Codes Fails := by
  have hclosed := fails_closed E
  have hrecord : ∀ e : RdbErrCode, e.of_record = true → Fails e := by
    rintro e h rfl
    cases h
  exact hclosed.bind (hclosed.bind (hclosed.update fun _ => rfl) fun _ => hclosed.read_bind (fun _ => rfl) fun _ =>
    hclosed.call _) fun _ => hclosed.read_bind (fun _ => rfl) fun _ => hclosed.times (hclosed.stream_node hrecord) _ _

/-- A stream is left with `RDB_OK` early if and only if its nodes are decoded and a name is cut behind them, where
the entry can be destroyed. -/
theorem stream_parts_ok {s : St} : (stream_parts E s).res = .error .RDB_OK ↔ ∃ e t, (stream_nodes E).Leads s e t ∧
    e.destroy.isSome = true ∧ (stream_trailer E t.dec.type e.num t).res = .error .RDB_OK := by
  rw [stream_parts, bind_ok_left stream_nodes_codes]
  refine exists_congr fun e => exists_congr fun t => and_congr_right fun _ => ?_
  have hend : ((stream_trailer E t.dec.type e.num >>= fun _ => end_key) t).res = .error .RDB_OK ↔
      (stream_trailer E t.dec.type e.num t).res = .error .RDB_OK :=
    bind_ok_right fun _ => (fails_closed E).end_key
  rw [Proc.read_bind_run, bind_ok_right fun _ => (fails_closed E).pure e, ← hend, Proc.recode_run]
  rcases ((stream_trailer E t.dec.type e.num >>= fun _ => end_key) t).res with err | ⟨⟨⟩⟩
  · rw [Except.mapError, Except.error.injEq, Except.error.injEq, RdbStreamEntry.leave]
    cases e.destroy.isSome with
    | true => rw [if_pos rfl, and_iff_right rfl]
    | false =>
      rw [if_neg Bool.false_ne_true]
      exact iff_of_false (fun h => by cases h) fun h => Bool.false_ne_true h.1
  · exact iff_of_false (fun h => by cases h) fun h => by cases h.2

/-- What comes behind the parts that are decoded is what is read of them. -/
theorem stream_front_iff {s t : St} {e : RdbStreamEntry} (h : (stream_nodes E).Leads s e t) {cnt : Nat} {u : St} :
    (stream_front E).Leads (start_key s).st cnt u ↔
      ∃ info, (stream_info s.dec.type).Leads t info u ∧ info.2.2 = cnt := by
  have hnodes : (Proc.count (fun _ => do let _ ← stream_lp E) 0 s.dec.rlen.len).Leads (start_key s).st () t := by
    obtain ⟨⟨⟩, v, ⟨o, hstart⟩, o', hrest⟩ := Proc.leads_bind_iff.mp h
    rw [start_key_run] at hstart ⊢
    obtain ⟨-, rfl, -⟩ := Run.mk.inj hstart
    rw [Proc.read_bind_run] at hrest
    exact stream_nodes_lead ⟨o', hrest⟩
  have htype : (start_key s).st.dec.type = s.dec.type ∧ (start_key s).st.dec.rlen = s.dec.rlen := by
    rw [start_key_run]
    exact ⟨rfl, rfl⟩
  have hread : (stream_front E).Leads (start_key s).st cnt u ↔
      (Proc.count (fun _ => do let _ ← stream_lp E) 0 s.dec.rlen.len >>= fun _ =>
        stream_info s.dec.type >>= fun info => pure info.2.2).Leads (start_key s).st cnt u := by
    rw [Proc.Leads, Proc.Leads, stream_front, Proc.read_bind_run, htype.1, htype.2]
  rw [hread, Proc.leads_bind_iff]
  constructor
  · rintro ⟨⟨⟩, v, hcount, hinfo⟩
    obtain ⟨-, rfl⟩ := hcount.unique hnodes
    obtain ⟨info, w, hlead, hcnt⟩ := Proc.leads_bind_iff.mp hinfo
    obtain ⟨rfl, rfl⟩ := Proc.leads_pure_iff.mp hcnt
    exact ⟨info, hlead, rfl⟩
  · rintro ⟨info, hinfo, rfl⟩
    exact ⟨(), t, hnodes, Proc.leads_bind_iff.mpr ⟨info, u, hinfo, Proc.leads_pure_iff.mpr ⟨rfl, rfl⟩⟩⟩

/-- The nodes leave the decoder as it is but for the output. -/
theorem stream_nodes_type {s t : St} {e : RdbStreamEntry} (h : (stream_nodes E).Leads s e t) :
    t.dec.type = s.dec.type := by
  obtain ⟨⟨⟩, u, ⟨o, hstart⟩, o', hrest⟩ := Proc.leads_bind_iff.mp h
  rw [start_key_run] at hstart
  obtain ⟨-, rfl, -⟩ := Run.mk.inj hstart
  have hdec := (Proc.Follows.read_bind Sends.chains fun s : St => .times Sends.chains
    (fun e => Sends.steps.stream_node (E := E) (C := fun _ => true) (fun _ _ => rfl) e) s.dec.rlen.len {})
    { s with dec.out := some s.dec.dest }
  rw [hrest] at hdec
  rw [hdec.1]

/-- A stream is taken for decoded where its end is reached and the entry can be destroyed, and where a part of it
returns `RDB_OK` early. -/
theorem decode_stream_cases {s t : St} {o : List Event} (hrun : decode_stream E s = ⟨.ok (), t, o⟩) :
    stream_parts E s = ⟨.error .RDB_OK, t, o⟩ ∨
      ∃ e, stream_parts E s = ⟨.ok e, t, o⟩ ∧ e.destroy.isSome = true := by
  rw [decode_stream, Proc.accept] at hrun
  rcases hparts : stream_parts E s with ⟨err | e, u, o'⟩
  · have hscope : stream_scope E s = ⟨.error err, u, o'⟩ := Proc.bind_error hparts
    rw [hscope] at hrun
    dsimp only at hrun
    split at hrun
    · next herr =>
      obtain ⟨-, rfl, rfl⟩ := Run.mk.inj hrun
      exact .inl (by rw [herr])
    · cases hrun
  · rw [stream_scope_run hparts] at hrun
    cases hdestroy : e.destroy.isSome with
    | true =>
      rw [hdestroy, if_pos rfl] at hrun
      obtain ⟨-, rfl, rfl⟩ := Run.mk.inj hrun
      exact .inr ⟨e, rfl, hdestroy⟩
    | false =>
      rw [hdestroy, if_neg Bool.false_ne_true] at hrun
      cases hrun

/-- Where a stream is taken for decoded, a name is cut if and only if the decoder has left at one. -/
theorem name_unread_iff {s t : St} {o : List Event} (hrun : decode_stream E s = ⟨.ok (), t, o⟩)
    (htype : s.dec.type = .RDB_STREAM_LISTPACK ∨ s.dec.type = .RDB_STREAM_LISTPACKS_2) :
    s.NameUnread E ↔ (stream_parts E s).res = .error .RDB_OK := by
  have hres : (stream_parts E s).res = .error .RDB_OK ∨ ∃ e, (stream_parts E s).res = .ok e := by
    rcases decode_stream_cases hrun with hparts | ⟨e, hparts, -⟩
    · exact .inl (by rw [hparts])
    · exact .inr ⟨e, by rw [hparts]⟩
  -- the nodes are decoded, for they do not return `RDB_OK`
  obtain ⟨e, u, hnodes⟩ : ∃ e u, (stream_nodes E).Leads s e u := by
    rcases hrun' : stream_nodes E s with ⟨err | e, u, o'⟩
    · have hparts : stream_parts E s = ⟨.error err, u, o'⟩ := Proc.bind_error hrun'
      rw [hparts] at hres
      rcases hres with herr | ⟨e, hok⟩
      · exact absurd (Except.error.inj herr) (stream_nodes_codes s err (by rw [hrun']))
      · cases hok
    · exact ⟨e, u, o', hrun'⟩
  have hunread : s.NameUnread E ↔ (stream_trailer E u.dec.type e.num u).res = .error .RDB_OK := by
    rw [St.NameUnread, and_iff_right htype, stream_trailer_ok, stream_nodes_type hnodes]
    simp only [stream_front_iff hnodes]
    constructor
    · rintro ⟨_, v, ⟨info, hinfo, rfl⟩, hgroups⟩
      exact ⟨info, v, hinfo, hgroups⟩
    · rintro ⟨info, v, hinfo, hgroups⟩
      exact ⟨_, v, ⟨info, hinfo, rfl⟩, hgroups⟩
  rw [hunread, stream_parts_ok]
  constructor
  · intro htrailer
    refine ⟨e, u, hnodes, ?_, htrailer⟩
    -- where the entry could not be destroyed, the stream was not taken for decoded
    by_contra hdestroy
    have hend : ((stream_trailer E u.dec.type e.num >>= fun _ => end_key) u).res = .error .RDB_OK :=
      Proc.bind_error_iff.mpr (.inl htrailer)
    have hleave : (Proc.recode e.leave (stream_trailer E u.dec.type e.num >>= fun _ => end_key) u).res =
        .error .undefined := by
      rw [Proc.recode_run, hend]
      exact congrArg Except.error (if_neg hdestroy)
    have hundefined : (stream_parts E s).res = .error .undefined := by
      refine Proc.bind_error_iff.mpr (.inr ⟨e, u, hnodes, ?_⟩)
      rw [Proc.read_bind_run]
      exact Proc.bind_error_iff.mpr (.inl hleave)
    rw [hundefined] at hres
    rcases hres with h | ⟨_, h⟩ <;> cases h
  · rintro ⟨e', u', hnodes', -, htrailer⟩
    obtain ⟨rfl, rfl⟩ := hnodes.unique hnodes'
    exact htrailer

end RdbDecode

end rdbparser
