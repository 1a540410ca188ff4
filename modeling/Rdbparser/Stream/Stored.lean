import Rdbparser.Decode.Passable
import Rdbparser.Stream.Repacked

/-! Streams as they are stored, whether the decoder gets to their end or not. -/

namespace rdbparser

open format RdbDecode RdbStreamEntry

variable {E : Env}

/-- Entries behind `k` others: in front of the first of all their list is started. -/
def entry_list (k : Nat) (calls : List Callback) : List Callback :=
  if k = 0 ∧ calls ≠ [] then .d_stream_start .STREAM_ENTRY_LIST :: calls else calls

theorem entry_list_succ (k : Nat) (calls : List Callback) : entry_list (k + 1) calls = calls :=
  if_neg fun h => absurd h.1 (Nat.succ_ne_zero k)

@[simp] theorem entry_list_nil (k : Nat) : entry_list k [] = [] := if_neg fun h => h.2 rfl

/-- The list is started by the first of the entries alone. -/
theorem entry_list_cons (k : Nat) (c : Callback) (calls : List Callback) :
    entry_list k (c :: calls) = (if k = 0 then [.d_stream_start .STREAM_ENTRY_LIST, c] else [c]) ++ calls := by
  rw [entry_list]
  split
  · next h =>
    rw [if_pos h.1]
    rfl
  · next h =>
    rw [if_neg fun hk => h ⟨hk, List.cons_ne_nil c calls⟩]
    rfl

theorem entry_list_append (k : Nat) (xs ys : List Callback) :
    entry_list k (xs ++ ys) = entry_list k xs ++ entry_list (k + xs.length) ys := by
  cases xs with
  | nil => rw [entry_list_nil]; rfl
  | cons x xs =>
    rw [List.cons_append, entry_list_cons, entry_list_cons, List.length_cons, ← Nat.add_assoc, entry_list_succ,
      List.append_assoc]

theorem forall_entry_list {P : Callback → Prop} {k : Nat} {calls : List Callback}
    (hstart : P (.d_stream_start .STREAM_ENTRY_LIST))
    (h : ∀ c ∈ calls, P c) : ∀ c ∈ entry_list k calls, P c := by
  rw [entry_list]
  split
  · exact List.forall_mem_cons.mpr ⟨hstart, h⟩
  · exact h

/-- The entries that were handed out, and nothing else. -/
structure EntriesOut (e : RdbStreamEntry) (d : Dest) (e' : RdbStreamEntry) (o : List Event) : Prop where
  sent : o.map Event.sent = (entry_list e.num (entry_calls o)).map (d, ·)
  num : e'.num = e.num + (entry_calls o).length

theorem EntriesOut.nil {e e' : RdbStreamEntry} {d : Dest} (h : e'.num = e.num) : EntriesOut e d e' [] :=
  ⟨congrArg (List.map (d, ·)) (entry_list_nil e.num).symm, h⟩

theorem EntriesOut.append {e₁ e₂ e₃ : RdbStreamEntry} {d : Dest} {o o' : List Event} (h : EntriesOut e₁ d e₂ o)
    (h' : EntriesOut e₂ d e₃ o') : EntriesOut e₁ d e₃ (o ++ o') where
  sent := by
    rw [List.map_append, h.sent, h'.sent, h.num, entry_calls_append, entry_list_append, List.map_append]
  num := by
    rw [h'.num, h.num, entry_calls_append, List.length_append, Nat.add_assoc]

theorem head_num {e e' : RdbStreamEntry} (h : e'.head = e.head) : e'.num = e.num := (Prod.mk.inj h).1

namespace RdbDecode

/-- An entry sends the start of the list if it is the first, and itself. -/
theorem stream_entry_out {e : RdbStreamEntry} {base : Ptr} {s t : St} {o : List Event} {d : Dest}
    (hout : s.dec.out = some d) (hrun : stream_entry e base s = ⟨.ok (), t, o⟩) :
    t = s ∧ EntriesOut e d { e with num := e.num + 1 } o := by
  have hcall : ∀ k, DecodeProc.call k s = ⟨.ok (), s, [⟨d, k, s.bptr.offset⟩]⟩ := fun k => by
    simp only [DecodeProc.call, Proc.emit_run, hout]
  rw [stream_entry] at hrun
  cases hpairs : e.pairs base with
  | none =>
    simp only [hpairs] at hrun
    by_cases hnum : e.num = 0
    · rw [if_pos hnum, Proc.bind_ok (hcall _) rfl] at hrun
      cases hrun
    · rw [if_neg hnum] at hrun
      cases hrun
  | some pairs =>
    simp only [hpairs] at hrun
    by_cases hnum : e.num = 0
    · rw [if_pos hnum, Proc.bind_ok (hcall _) (hcall _)] at hrun
      obtain ⟨-, rfl, rfl⟩ := Run.mk.inj hrun
      refine ⟨rfl, ?_, rfl⟩
      rw [hnum]
      rfl
    · have hone := hcall (.d_stream_entry e.num e.cnt e.id e.diff e.flags pairs)
      rw [if_neg hnum] at hrun
      obtain ⟨-, rfl, rfl⟩ := Run.mk.inj (hone.symm.trans hrun)
      obtain ⟨k, hk⟩ := Nat.exists_eq_succ_of_ne_zero hnum
      refine ⟨rfl, ?_, rfl⟩
      rw [hk]
      rfl

/-- The entries of a listpack send one call each, with the numbers in a row. -/
theorem stream_entries_out {list : RdbListPack} {n : Nat} {e e' : RdbStreamEntry} {lval : RdbListValue} {s t : St}
    {o : List Event} {d : Dest} (hout : s.dec.out = some d) (hrun : stream_entries list n e lval s = ⟨.ok e', t, o⟩) :
    t = s ∧ EntriesOut e d e' o := by
  induction n generalizing e lval t o with
  | zero =>
    obtain ⟨he, rfl, rfl⟩ := Run.mk.inj hrun
    exact ⟨rfl, .nil (congrArg RdbStreamEntry.num (Except.ok.inj he).symm)⟩
  | succ n ih =>
    rw [stream_entries] at hrun
    rcases hread : e.read_entry list lval with _ | ⟨_ | _, e₁, lval₁⟩
    · rw [hread] at hrun
      cases hrun
    · rw [hread] at hrun
      cases hrun
    · have hnum := head_num (read_entry_head hread)
      simp only [hread] at hrun
      by_cases hlive : e₁.flags &&& RDB_STREAM_ENTRY_DELETED = 0
      · rw [if_pos hlive] at hrun
        obtain ⟨⟨⟩, u, o₁, o₂, hentry, hrest, rfl⟩ := Proc.bind_ok_run hrun
        obtain ⟨rfl, hone⟩ := stream_entry_out hout hentry
        obtain ⟨rfl, hall⟩ := ih hrest
        refine ⟨rfl, EntriesOut.append ⟨?_, hone.num.trans (hnum ▸ rfl)⟩ hall⟩
        rw [hone.sent, hnum]
      · rw [if_neg hlive] at hrun
        obtain ⟨rfl, hrest⟩ := ih hrun
        exact ⟨rfl, hnum ▸ hrest.sent, hnum ▸ hrest.num⟩

/-- So do those of a node, from the number that the one before has left. -/
theorem stream_block_out {e e' : RdbStreamEntry} {r : RdbStreamRecId × Ptr × Nat} {s t : St} {o : List Event} {d : Dest}
    (hout : s.dec.out = some d) (hrun : stream_block e r s = ⟨.ok e', t, o⟩) : t = s ∧ EntriesOut e d e' o := by
  rw [stream_block] at hrun
  cases hinit : RdbListPack.init r.2.1 r.2.2 with
  | none =>
    rw [hinit] at hrun
    obtain ⟨he, rfl, rfl⟩ := Run.mk.inj hrun
    exact ⟨rfl, .nil (Except.ok.inj he ▸ rfl)⟩
  | some list =>
    simp only [hinit] at hrun
    rcases hheader : RdbStreamEntry.read_header { e with id := r.1 } list with _ | ⟨_ | _, e₁, lval⟩
    · rw [hheader] at hrun
      cases hrun
    · rw [hheader] at hrun
      cases hrun
    · have hnum := head_num (read_header_head hheader)
      simp only [hheader] at hrun
      obtain ⟨rfl, hall⟩ := stream_entries_out hout hrun
      exact ⟨rfl, hnum ▸ hall.sent, hnum ▸ hall.num⟩

/-- Nodes that are gone through leave the buffer behind them. -/
theorem stream_nodes_out (nodes : List (StreamNode E)) {e e' : RdbStreamEntry} {s t : St} {o : List Event} {d : Dest}
    {c : Place} {rest : List UInt8} (hat : s.bptr.At c) (hv : c.Views (nodes.flatMap StreamNode.bytes ++ rest))
    (hout : s.dec.out = some d) (hrun : Proc.times nodes.length (stream_node E) e s = ⟨.ok e', t, o⟩) :
    ∃ b, t = { s with bptr := b } ∧ b.At (c.adv (nodes.flatMap StreamNode.bytes).length) ∧ EntriesOut e d e' o := by
  induction nodes generalizing e s c o with
  | nil =>
    obtain ⟨he, rfl, rfl⟩ := Run.mk.inj hrun
    exact ⟨s.bptr, rfl, hat, .nil (congrArg RdbStreamEntry.num (Except.ok.inj he).symm)⟩
  | cons n ns ih =>
    rw [List.flatMap_cons, List.append_assoc] at hv
    rw [List.length_cons, Proc.times] at hrun
    obtain ⟨e₁, u, o₁, o₂, hnode, hrest, rfl⟩ := Proc.bind_ok_run hrun
    obtain ⟨r, b, o₃, hread, ⟨hat', -⟩, ho₃⟩ := Reads.node n.chunk s c d _ hat hv hout
    obtain rfl : o₃ = [] := List.map_eq_nil_iff.mp ho₃
    rw [stream_node_found hread] at hnode
    obtain ⟨rfl, hone⟩ := stream_block_out (s := { s with bptr := b }) hout hnode
    obtain ⟨b', rfl, hat'', hall⟩ := ih (s := { s with bptr := b }) hat' hv.adv hout hrest
    refine ⟨b', rfl, ?_, hone.append hall⟩
    rw [Place.adv_adv, ← List.length_append] at hat''
    exact hat''

end RdbDecode

namespace format

section Parts

variable {P : Callback → Prop}

/-- What is so of the start, the end and the calls between is so of a list. -/
theorem forall_listed (hstart : ∀ part, P (.d_stream_start part))
    (hend : ∀ part, P (.d_stream_end part)) {part : StreamPart}
    {cnt : Nat} {calls : List Callback} (h : ∀ c ∈ calls, P c) : ∀ c ∈ listed part cnt calls, P c := by
  rw [listed]
  split
  · exact fun c hc => absurd hc List.not_mem_nil
  · rw [List.forall_mem_cons, List.forall_mem_append, List.forall_mem_singleton]
    exact ⟨hstart part, h, hend part⟩

theorem forall_mapIdx {α β : Type} {Q : β → Prop} {f : Nat → α → β} {xs : List α} (h : ∀ i, ∀ x ∈ xs, Q (f i x)) :
    ∀ b ∈ xs.mapIdx f, Q b := by
  intro b hb
  obtain ⟨i, hi, rfl⟩ := List.mem_mapIdx.mp hb
  exact h i _ (List.getElem_mem hi)

theorem forall_flatten {calls : List (List Callback)} (h : ∀ cs ∈ calls, ∀ c ∈ cs, P c) : ∀ c ∈ calls.flatten, P c := by
  intro c hc
  obtain ⟨cs, hcs, hmem⟩ := List.mem_flatten.mp hc
  exact h cs hcs c hmem

/-- What holds of all callbacks but those with a name, and of those with the names of the groups and consumers, holds of
all behind the nodes. -/
theorem StreamTrailer.forall_parts (hstart : ∀ part, P (.d_stream_start part)) (hend : ∀ part, P (.d_stream_end part))
    (hinfo : ∀ last num_elems num_cgroups entry_cnt, P (.d_stream_info last num_elems num_cgroups entry_cnt))
    (hpend : ∀ num cnt id last_delivery delivery_cnt, P (.d_stream_pend num cnt id last_delivery delivery_cnt))
    (hcons_pend : ∀ num cnt id, P (.d_stream_cons_pend num cnt id)) (x : StreamTrailer E)
    (hgroup : ∀ g ∈ x.groups, ∀ num cnt pending_cnt last, P (.d_stream_group num cnt g.name.str.val pending_cnt last))
    (hcons : ∀ g ∈ x.groups, ∀ c ∈ g.consumers, ∀ num cnt pend_cnt last_seen,
      P (.d_stream_cons num cnt c.name.str.val pend_cnt last_seen)) (entry_cnt num_elems : Nat) :
    ∀ c ∈ x.parts_of entry_cnt num_elems, P c := by
  rw [StreamTrailer.parts_of, List.forall_mem_append, List.forall_mem_cons]
  refine ⟨?_, hinfo _ _ _ _, forall_listed hstart hend (forall_flatten (forall_mapIdx fun i g hg => ?_))⟩
  · split
    · exact List.forall_mem_singleton.mpr (hend _)
    · exact fun c hc => absurd hc List.not_mem_nil
  · rw [StreamGroup.calls, List.forall_mem_cons, List.forall_mem_append, List.forall_mem_append,
      List.forall_mem_singleton]
    refine ⟨hgroup g hg _ _ _ _, forall_listed hstart hend (forall_mapIdx fun _ _ _ => hpend _ _ _ _ _),
      forall_listed hstart hend (forall_flatten (forall_mapIdx fun j c hc => ?_)), hend _⟩
    rw [StreamCons.calls, List.forall_mem_cons, List.forall_mem_append, List.forall_mem_singleton]
    exact ⟨hcons g hg c hc _ _ _ _, forall_listed hstart hend (forall_mapIdx fun _ _ _ => hcons_pend _ _ _), hend _⟩

end Parts

/-- A stream as it is stored. Nothing is assumed of it but that its listpacks count their entries right. -/
structure StoredStream (E : Env) where
  n : StoredLen
  nodes : List (StreamNode E)
  trailer : StreamTrailer E
  hn : n.val = nodes.length
  counted : ∀ x ∈ nodes, x.block.Counted

def StreamTrailer.type_byte (x : StreamTrailer E) : UInt8 :=
  match x.more with
  | none => 15
  | some _ => 19

/-- The entries that the decoder hands out, in a list if there are any, and what it says of the stream behind them. -/
def StoredStream.calls (v : StoredStream E) : List Callback :=
  entry_list 0 (calls_from 0 (visits ⟨true, true⟩ v.nodes).1) ++ v.trailer.parts (visits ⟨true, true⟩ v.nodes).1.length

theorem StreamTrailer.of_value_parts_of (x : StreamTrailer E) (entry_cnt num_elems : Nat) :
    ∀ c ∈ x.parts_of entry_cnt num_elems, c.of_value = true :=
  x.forall_parts (fun _ => rfl) (fun _ => rfl) (fun _ _ _ _ => rfl) (fun _ _ _ _ _ => rfl) (fun _ _ _ => rfl)
    (fun _ _ _ _ _ _ => rfl) (fun _ _ _ _ _ _ _ _ => rfl) entry_cnt num_elems

instance : Encoding E (StoredStream E) where
  type v := v.trailer.type
  type_byte v := v.trailer.type_byte
  head v := .len v.n
  plain v := v.nodes.flatMap StreamNode.bytes ++ v.trailer.bytes
  calls := StoredStream.calls
  get_rdb_type_byte v := by
    rw [StreamTrailer.type_byte, StreamTrailer.type]
    cases v.trailer.more <;> rfl
  type_ne_bad v := by
    rw [StreamTrailer.type]
    cases v.trailer.more <;> exact RdbType.noConfusion
  get_rdb_meta_byte v := by
    rw [StreamTrailer.type_byte]
    cases v.trailer.more <;> rfl
  of_value v := by
    rw [StoredStream.calls, List.forall_mem_append]
    exact ⟨forall_entry_list rfl (forall_mapIdx fun _ _ _ => rfl), v.trailer.of_value_parts_of _ _⟩

end format

open format

theorem format.StreamTrailer.decode_body_eq (x : StreamTrailer E) {s : St} (htype : s.dec.type = x.type) :
    decode_body E s = decode_stream E s := by
  rw [decode_body, Proc.read_bind_run, htype, StreamTrailer.type]
  cases x.more <;> rfl

/-- The nodes of a stream are gone through, and the entry that is left can be destroyed, if they are tidy. -/
theorem stream_nodes_tidy (nodes : List (StreamNode E)) (hcounted : ∀ n ∈ nodes, n.block.Counted) (htidy : Tidy nodes)
    {s : St} {c : Place} {rest : List UInt8} (hn : s.dec.rlen.len = nodes.length) (hat : s.bptr.At c)
    (hv : c.Views (nodes.flatMap StreamNode.bytes ++ rest)) :
    ∃ e b o, stream_nodes E s = ⟨.ok e, ⟨{ s.dec with out := some s.dec.dest }, b⟩, o⟩ ∧ e.destroy.isSome = true ∧
      b.At (c.adv (nodes.flatMap StreamNode.bytes).length) ∧ e.num = (visits ⟨true, true⟩ nodes).1.length ∧
      o.map Event.sent = (s.dec.dest, .d_start_key s.dec.type s.dec.key.val) ::
        (entry_list 0 (calls_from 0 (visits ⟨true, true⟩ nodes).1)).map (s.dec.dest, ·) := by
  obtain ⟨h, hlast, hrel, hmaster⟩ := (visits_through (h := ⟨true, true⟩)).mpr ⟨rfl, fun _ => rfl, htidy⟩
  obtain ⟨r, t, o, hrun, hnodes, ho, hend⟩ := stream_nodes_visit nodes hcounted hn hat hv
  rw [hlast] at hend
  obtain ⟨e, rfl, hs, hh, hnum, -⟩ := hend
  obtain ⟨b, rfl, hat', hout⟩ := stream_nodes_out (s := { s with dec.out := some s.dec.dest }) nodes hat hv rfl hnodes
  have hsent := hout.sent
  rw [ho] at hsent
  refine ⟨e, b, _, hrun, (hh.destroy hs).mpr ⟨hrel, hmaster⟩, hat', hnum, ?_⟩
  rw [List.map_cons, hsent]
  rfl

/-- If they are not tidy, the decoder stops in them or cannot destroy what is left. -/
theorem stream_nodes_untidy (nodes : List (StreamNode E)) (hcounted : ∀ n ∈ nodes, n.block.Counted)
    (htidy : ¬ Tidy nodes)
    {s : St} {c : Place} {rest : List UInt8} (hn : s.dec.rlen.len = nodes.length) (hat : s.bptr.At c)
    (hv : c.Views (nodes.flatMap StreamNode.bytes ++ rest)) :
    (∃ t o, stream_nodes E s = ⟨.error .undefined, t, o⟩) ∨
      ∃ e t o, stream_nodes E s = ⟨.ok e, t, o⟩ ∧ e.destroy.isSome = false := by
  obtain ⟨r, t, o, hrun, -, -, hend⟩ := stream_nodes_visit nodes hcounted hn hat hv
  cases hlast : (visits ⟨true, true⟩ nodes).2 with
  | none =>
    rw [hlast] at hend
    obtain rfl : r = .error .undefined := hend
    exact .inl ⟨t, _, hrun⟩
  | some h =>
    rw [hlast] at hend
    obtain ⟨e, rfl, hs, hh, -, -⟩ := hend
    refine .inr ⟨e, t, _, hrun, ?_⟩
    rw [← Bool.not_eq_true, hh.destroy hs]
    exact fun hkept => htidy (visits_through.mp ⟨h, hlast, hkept⟩).2.2

/-- A stream is decoded if its nodes are tidy and no consumer has a compressed name. -/
instance : Passable E (StoredStream E) where
  passable v := Tidy v.nodes ∧ ∀ x ∈ v.trailer.consumer_names, x.is_lzf = false
  decoded {v} h s c rest htype hrlen hs hv := by
    have hn : s.dec.rlen.len = v.nodes.length := by
      rw [hrlen]
      exact v.hn
    have hbody : decode_body E s = decode_stream E s := v.trailer.decode_body_eq htype
    have hv' : c.Views (v.nodes.flatMap StreamNode.bytes ++ (v.trailer.bytes ++ rest)) := by
      rw [← List.append_assoc]
      exact hv
    obtain ⟨e, b, o, hnodes, hdestroy, hat, hnum, ho⟩ := stream_nodes_tidy v.nodes v.counted h.1 hn (.main hs) hv'
    obtain ⟨_, b', o', htrailer, hon, ho'⟩ := (Goes.stream_trailer v.trailer e.num).reads h.2
      ⟨{ s.dec with out := some s.dec.dest }, b⟩ _ s.dec.dest rest hat hv'.adv rfl
    have hend : end_key ⟨{ s.dec with out := some s.dec.dest }, b'⟩ = _ := end_key_run rfl
    refine ⟨b', o ++ (o' ++ [⟨s.dec.dest, .d_end_key s.dec.type, b'.offset⟩]), ?_, ?_, ?_⟩
    · have htype' : s.dec.type = v.trailer.type := htype
      have hrest := Proc.bind_ok (f := fun _ => end_key) htrailer hend
      rw [← htype'] at hrest
      rw [hbody, decode_stream_run (stream_parts_run hnodes hrest), if_pos hdestroy]
    · rw [Place.adv_adv, ← List.length_append] at hon
      exact .main hon
    · rw [List.map_append, ho, List.map_append, ho', hnum]
      simp only [List.map_append, List.cons_append, List.append_assoc, Encoding.calls, StoredStream.calls]
      rfl
  refused {v} h s c rest htype hrlen hs hv := by
    have hn : s.dec.rlen.len = v.nodes.length := by
      rw [hrlen]
      exact v.hn
    have hbody : decode_body E s = decode_stream E s := v.trailer.decode_body_eq htype
    have hv' : c.Views (v.nodes.flatMap StreamNode.bytes ++ (v.trailer.bytes ++ rest)) := by
      rw [← List.append_assoc]
      exact hv
    rw [hbody]
    by_cases htidy : Tidy v.nodes
    · have hlzf : ¬ ∀ x ∈ v.trailer.consumer_names, x.is_lzf = false := fun hall => h ⟨htidy, hall⟩
      obtain ⟨e, b, o, hnodes, -, hat, -, -⟩ := stream_nodes_tidy v.nodes v.counted htidy hn (.main hs) hv'
      obtain ⟨t, o', htrailer, -⟩ :=
        stream_trailer_run (s := ⟨{ s.dec with out := some s.dec.dest }, b⟩) v.trailer e.num
        htype rfl hat hv'.adv
      have hclear : clear v.trailer.consumer_names ≠ v.trailer.consumer_names.length := by
        push Not at hlzf
        obtain ⟨x, hx, hlzf⟩ := hlzf
        exact Nat.ne_of_lt (clear_lt ⟨x, hx, by simpa using hlzf⟩)
      rw [if_neg hclear] at htrailer
      have hparts : stream_parts E s = ⟨.error (e.leave .RDB_ERR_TRUNC), t, o ++ o'⟩ := by
        refine Proc.bind_ok hnodes ?_
        rw [Proc.read_bind_run]
        exact Proc.bind_error (Proc.recode_error htrailer)
      exact ⟨_, decode_stream_error hparts (e.leave_of (B := (· ≠ .RDB_OK)) (by decide) (by decide))⟩
    · rcases stream_nodes_untidy v.nodes v.counted htidy hn (.main hs) hv' with ⟨t, o, hrun⟩ | ⟨e, t, o, hrun, hdestroy⟩
      · exact ⟨_, decode_stream_error (Proc.bind_error hrun) (by decide)⟩
      · exact ⟨_, decode_stream_undestroyed hrun hdestroy⟩

end rdbparser
