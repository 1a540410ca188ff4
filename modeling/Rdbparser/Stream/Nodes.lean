import Rdbparser.Decode.Sends
import Rdbparser.Stream.Block
import Rdbparser.Stream.Entry
import Rdbparser.Stream.Trailer
import Rdbparser.Stream.Visit

namespace rdbparser

open format RdbStreamEntry

variable {E : Env}

/-- The entries that have been handed out. -/
def entry_calls (o : List Event) : List Callback := (o.map Event.call).filter Callback.of_entry

@[simp] theorem entry_calls_append (o o' : List Event) :
    entry_calls (o ++ o') = entry_calls o ++ entry_calls o' := by
  rw [entry_calls, List.map_append, List.filter_append]
  rfl

/-- The callbacks that hand out entries, numbered from `k`. -/
def calls_from (k : Nat) (ys : List (StreamNode E × StreamItem)) : List Callback :=
  ys.mapIdx fun i y => StreamNode.call (k + i) y

theorem calls_from_cons (k : Nat) (y : StreamNode E × StreamItem) (ys : List (StreamNode E × StreamItem)) :
    calls_from k (y :: ys) = StreamNode.call k y :: calls_from (k + 1) ys := by
  rw [calls_from, List.mapIdx_cons]
  simp only [Nat.add_zero, calls_from, ← Nat.add_assoc, Nat.add_right_comm k _ 1]

theorem calls_from_append (k : Nat) (xs ys : List (StreamNode E × StreamItem)) :
    calls_from k (xs ++ ys) = calls_from k xs ++ calls_from (k + xs.length) ys := by
  rw [calls_from, List.mapIdx_append]
  simp only [calls_from, Nat.add_comm _ xs.length, ← Nat.add_assoc]

/-- What `h` says of the entry before is so. -/
structure Hold.Of (h : Hold) (e : RdbStreamEntry) : Prop where
  rel : h.rel = true ↔ e.Releasable
  master : h.master = true ↔ e.Live ∧ ¬ e.Shared
  frees : e.Frees e.master ↔ e.Live

theorem Hold.Of.start : Hold.Of ⟨true, true⟩ {} where
  rel := iff_of_true rfl ⟨trivial, trivial⟩
  master := iff_of_true rfl ⟨fun _ hid => absurd hid List.not_mem_nil, fun ⟨_, hid, _⟩ => absurd hid List.not_mem_nil⟩
  frees := iff_of_true trivial fun _ hid => absurd hid List.not_mem_nil

/-- Where the entry before can be released and the master fields will then still be there, an entry can be destroyed. -/
theorem Hold.Of.destroy {h : Hold} {e : RdbStreamEntry} (hh : h.Of e) (hs : e.Sound) :
    e.destroy.isSome = true ↔ h.rel = true ∧ h.master = true := by
  rw [destroy_iff hs, hh.frees, hh.rel, hh.master, ← and_assoc]
  exact And.comm

/-- What is said of the entry before is still so behind one that has been read. -/
theorem Hold.Of.next {h : Hold} {e e' : RdbStreamEntry} {list : RdbListPack} {master : List ListPackElem}
    {x : StreamItem} (hh : h.Of e) (hdel : e.Delivered e' list master x) :
    (h.next master.length x).Of e' := by
  have hlive : e'.Live ↔ h.master = true := hdel.live.trans hh.master.symm
  constructor
  · have hbare : (!bare master.length x) = true ↔ ¬ (master.length = TMP_SIZE ∧ x.fields = .own []) := by
      rw [bare, Bool.not_eq_true', decide_eq_false_iff_not]
    rw [hdel.releasable, hlive, Hold.next, Bool.and_eq_true, hbare]
    cases x.fields.is_same <;> simp
  · rw [hdel.shared, hlive, Hold.next]
    cases x.fields.is_same <;> simp
  · exact hdel.ready.laid.frees

/-- What a visit to entries or nodes ends with, after `num` entries have been handed out: the decoder has gone
through them or has failed. -/
def VisitEnd (last : Option Hold) (num : Nat) (r : Except RdbErrCode RdbStreamEntry) : Prop :=
  match last with
  | some h => ∃ e, r = .ok e ∧ e.Sound ∧ h.Of e ∧ e.num = num ∧ e.cnt = 0
  | none => r = .error .undefined

/-- The bytes of an id. -/
theorem RdbDecode.rec_id_starts {b : Ptr} {text : List UInt8} (hb : b.mem.Starts text)
    (hlen : 128 / 8 ≤ text.length) :
    rec_id b = ⟨be_nat (text.take 8), be_nat ((text.drop 8).take 8)⟩ := by
  have hlo : b.mem.take 8 = text.take 8 := hb.take_le (by omega)
  have hdrop : 8 ≤ (text.drop 8).length := by
    rw [List.length_drop]
    omega
  have hhi : (b.mem.add 8).take 8 = (text.drop 8).take 8 := (hb.drop (by omega)).take_le hdrop
  rw [rec_id, hlo, hhi]

/-- A blob is handed out with its size. -/
theorem Reads.blob (x : Blob E) :
    Reads RdbBufptr.At (do
      let l ← DecodeProc.decode {}
      let b ← DecodeProc.consume E l
      pure (b, l.len) : DecodeProc (Ptr × Nat)) x.str.bytes []
      fun r b c => b.Closed x.str c ∧ r.1.mem.Starts x.str.text ∧ r.2 = x.str.text.length := by
  refine (decode x.str.hdr).bind_read fun l => of_fact fun hl => ?_
  subst hl
  intro s c d rest hs hv hd
  obtain ⟨p, b, hcons, hclosed, -, hstarts, hlen⟩ := consume_run x.str x.not_int hs hv
  exact ⟨_, b, [], Proc.bind_quiet hcons, ⟨hclosed, hstarts, hlen⟩, rfl⟩

/-- The id and the listpack of a node. -/
theorem Reads.node (n : StreamChunk E) :
    Reads RdbBufptr.At (RdbDecode.stream_lp E) n.bytes []
      fun r b c => b.At c ∧ r.1 = n.id ∧ r.2.1.mem.Starts n.lp.str.text ∧ r.2.2 = n.lp.str.text.length := by
  have h : Reads RdbBufptr.At (do
      let key ← (do let l ← DecodeProc.decode {}
                    let b ← DecodeProc.consume E l
                    pure (b, l.len) : DecodeProc (Ptr × Nat))
      let lp ← (do let l ← DecodeProc.decode {}
                   let b ← DecodeProc.consume E l
                   pure (b, l.len) : DecodeProc (Ptr × Nat))
      pure (RdbDecode.rec_id key.1, lp.1, lp.2) : DecodeProc (RdbStreamRecId × Ptr × Nat)) n.bytes []
      fun r b c => b.At c ∧ r.1 = n.id ∧ r.2.1.mem.Starts n.lp.str.text ∧ r.2.2 = n.lp.str.text.length := by
    refine ((blob n.key).mono (fun _ _ h => h) fun _ _ _ h => ⟨h.1.at, h.2⟩).bind_read
      fun key => of_fact fun hkey => ?_
    refine (blob n.lp).bind_call fun lp => of_fact fun hlp => value fun b c h => ⟨h.at, ?_, hlp⟩
    exact RdbDecode.rec_id_starts hkey.1 n.hkey
  simpa only [RdbDecode.stream_lp, Proc.bind_assoc, Proc.pure_bind] using h

/-- A node once its listpack is found. -/
theorem RdbDecode.stream_node_found {e : RdbStreamEntry} {r : RdbStreamRecId × Ptr × Nat} {s t : St}
    (h : stream_lp E s = ⟨.ok r, t, []⟩) : stream_node E e s = stream_block e r t := by
  rw [stream_node, Proc.bind_quiet (Proc.recode_ok h)]

namespace RdbDecode

/-- An entry whose pairs can be loaded is handed out with them. -/
theorem stream_entry_run {e : RdbStreamEntry} {base : Ptr} {pairs : List (RdbVal × RdbVal)} {s : St} {d : Dest}
    (hout : s.dec.out = some d) (hpairs : e.pairs base = some pairs) :
    ∃ o, stream_entry e base s = ⟨.ok (), s, o⟩ ∧
      entry_calls o = [.d_stream_entry e.num e.cnt e.id e.diff e.flags pairs] := by
  have hcall : ∀ k, DecodeProc.call k s = ⟨.ok (), s, [⟨d, k, s.bptr.offset⟩]⟩ := fun k => by
    simp only [DecodeProc.call, Proc.emit_run, hout]
  by_cases hnum : e.num = 0
  · simp only [stream_entry, hnum, if_true, hpairs]
    exact ⟨_, Proc.bind_ok (hcall _) (hcall _), rfl⟩
  · simp only [stream_entry, hnum, if_false, hpairs]
    exact ⟨_, hcall _, rfl⟩

/-- One whose pairs are gone is not: the load is of memory that has been freed. -/
theorem stream_entry_none {e : RdbStreamEntry} {base : Ptr} {s : St} {d : Dest}
    (hout : s.dec.out = some d) (hpairs : e.pairs base = none) :
    ∃ o, stream_entry e base s = ⟨.error .undefined, s, o⟩ ∧ entry_calls o = [] := by
  have hcall : ∀ k, DecodeProc.call k s = ⟨.ok (), s, [⟨d, k, s.bptr.offset⟩]⟩ := fun k => by
    simp only [DecodeProc.call, Proc.emit_run, hout]
  by_cases hnum : e.num = 0
  · simp only [stream_entry, hnum, if_true, hpairs]
    exact ⟨_, Proc.bind_ok (hcall _) rfl, rfl⟩
  · simp only [stream_entry, hnum, if_false, hpairs]
    exact ⟨_, rfl, rfl⟩

/-- The entries of a listpack from wherever the one before has left it, by induction on them: those that are handed
out are those of `visit`, and the decoder stops where it does. -/
theorem stream_entries_run {n : StreamNode E} {list : RdbListPack} (xs : List StreamItem)
    {rest : List ListPackElem} {h : Hold} {e : RdbStreamEntry} {lval : RdbListValue} {s : St} {d : Dest}
    (he : RdbStreamEntry.Ready e list n.block.master) (hh : h.Of e) (hcnt : e.cnt = 0) (hid : e.id = n.id)
    (hfits : ∀ x ∈ xs, x.fields.Fits n.block.master.length) (hm : n.block.master.length < 2 ^ 32)
    (hlen : (xs.flatMap (StreamItem.elems n.block.master.length)).length < 2 ^ 32)
    (hahead : list.Ahead lval (xs.flatMap (StreamItem.elems n.block.master.length) ++ rest))
    (hout : s.dec.out = some d) :
    ∃ r o, stream_entries list xs.length e lval s = ⟨r, s, o⟩ ∧
      entry_calls o = calls_from e.num ((visit n.block.master.length h xs).1.map (n, ·)) ∧
      VisitEnd (visit n.block.master.length h xs).2
        (e.num + (visit n.block.master.length h xs).1.length) r := by
  induction xs generalizing h e lval with
  | nil => exact ⟨.ok e, [], rfl, rfl, e, rfl, he.sound, hh, rfl, hcnt⟩
  | cons x xs ih =>
    rw [List.flatMap_cons, List.length_append] at hlen
    rw [List.flatMap_cons, List.append_assoc] at hahead
    have hfit := hfits x (List.mem_cons_self ..)
    have hcount := StreamFields.count_le hfit
    have helems : (x.elems n.block.master.length).length = 3 + (x.fields.elems n.block.master.length).length := by
      rw [StreamItem.elems, List.length_cons, List.length_cons, List.length_cons]
      omega
    unfold visit
    cases hrel : h.rel with
    | false =>
      have hread := read_entry_none (e := e) (fun hr => Bool.false_ne_true (hrel ▸ hh.rel.mpr hr)) hahead
      rw [if_neg Bool.false_ne_true]
      refine ⟨.error .undefined, [], ?_, rfl, rfl⟩
      simp only [List.length_cons, stream_entries, hread, Proc.ret_run]
    | true =>
      obtain ⟨e', lval', hread, hahead', hdel⟩ := read_entry_run he (hh.rel.mp hrel) hfit hm (by omega) hahead
      have hhead := read_entry_head hread
      obtain ⟨hnum', hcnt', hid'⟩ : e'.num = e.num ∧ e'.cnt = e.cnt ∧ e'.id = e.id := by
        rw [head, head, Prod.mk.injEq, Prod.mk.injEq] at hhead
        exact hhead
      have hfits' : ∀ y ∈ xs, y.fields.Fits n.block.master.length := fun y hy =>
        hfits y (List.mem_cons_of_mem x hy)
      have hmaster : e'.Live ↔ h.master = true := hdel.live.trans hh.master.symm
      have hflags : x.live = true ↔ e'.flags &&& RDB_STREAM_ENTRY_DELETED = 0 := by
        rw [StreamItem.live, decide_eq_true_iff, hdel.flags]
      rw [if_pos rfl]
      by_cases hlive : x.live = true
      · have hstep : stream_entries list (x :: xs).length e lval s = (stream_entry e' list.base >>= fun _ =>
            stream_entries list xs.length { e' with num := e'.num + 1 } lval') s := by
          simp only [List.length_cons, stream_entries, hread, hflags.mp hlive, if_true]
        rw [if_pos hlive, hstep]
        by_cases hgone : (x.fields.is_same && !h.master) = true
        · obtain ⟨hsame, hnot⟩ := Bool.and_eq_true_iff.mp hgone
          have hdead : ¬ e'.Live := fun hl => by
            rw [hmaster.mp hl] at hnot
            cases hnot
          obtain ⟨o, hentry, ho⟩ := stream_entry_none hout (hdel.pairs_none hsame hdead)
          rw [if_pos hgone]
          exact ⟨_, o, Proc.bind_error hentry, ho, rfl⟩
        · have hthere : x.fields.is_same = true → e'.Live := fun hsame => by
            rw [hsame, Bool.true_and, Bool.not_eq_true', Bool.not_eq_false] at hgone
            exact hmaster.mpr hgone
          obtain ⟨o, hentry, ho⟩ := stream_entry_run hout (hdel.pairs hthere)
          have he' : RdbStreamEntry.Ready { e' with num := e'.num + 1 } list n.block.master :=
            ⟨⟨hdel.ready.sound.freed, hdel.ready.sound.master, hdel.ready.sound.fields, hdel.ready.sound.values⟩,
              hdel.ready.laid, hdel.ready.count, hdel.ready.has⟩
          have hh' : (h.next n.block.master.length x).Of { e' with num := e'.num + 1 } :=
            ⟨(hh.next hdel).rel, (hh.next hdel).master, (hh.next hdel).frees⟩
          obtain ⟨r, o', hrun, ho', hend⟩ := ih he' hh' (hcnt'.trans hcnt) (hid'.trans hid) hfits' (by omega) hahead'
          rw [if_neg hgone]
          refine ⟨r, o ++ o', Proc.bind_ok hentry hrun, ?_, ?_⟩
          · rw [entry_calls_append, ho, ho', List.map_cons, calls_from_cons, hnum', hcnt', hid', hcnt, hid, hdel.flags,
              hdel.diff]
            rfl
          · rw [List.length_cons, ← Nat.add_assoc, Nat.add_right_comm, ← hnum']
            exact hend
      · have hstep : stream_entries list (x :: xs).length e lval s =
            stream_entries list xs.length e' lval' s := by
          simp only [List.length_cons, stream_entries, hread, if_neg fun h0 => hlive (hflags.mpr h0)]
        rw [if_neg hlive, hstep, ← hnum']
        exact ih hdel.ready (hh.next hdel) (hcnt'.trans hcnt) (hid'.trans hid) hfits' (by omega) hahead'

/-- A node, from its header to the last entry that it counts. -/
theorem stream_block_run {n : StreamNode E} {e : RdbStreamEntry} {b : Ptr} {h : Hold} {s : St} {d : Dest}
    (hn : n.block.Counted) (hs : e.Sound) (hh : h.Of e) (hcnt : e.cnt = 0)
    (hb : b.mem.Starts n.lp.str.text) (hout : s.dec.out = some d) :
    ∃ r o, stream_block e (n.id, b, n.lp.str.text.length) s = ⟨r, s, o⟩ ∧
      entry_calls o = calls_from e.num
        ((visit n.block.master.length ⟨h.rel, true⟩ n.block.visited).1.map (n, ·)) ∧
      VisitEnd (visit n.block.master.length ⟨h.rel, true⟩ n.block.visited).2
        (e.num + (visit n.block.master.length ⟨h.rel, true⟩ n.block.visited).1.length) r := by
  obtain ⟨l, hl, hlp, hahead⟩ := n.hlp
  have hlit : (Ptr.lit n.lp.str.text).mem.Starts n.lp.str.text :=
    Mem.ofList_starts n.lp.str.text fun _ => 0
  obtain ⟨list, hinit, hsame, -⟩ := RdbListPack.init_same hl hlit hb hlp
  have hstart : list.start = l.start := by
    rw [RdbListPack.start, RdbListPack.start, hsame.data]
  have hahead : list.Ahead list.start (n.block.elems ++ []) := by
    rw [List.append_nil, hstart]
    exact hsame.ahead hahead
  obtain ⟨hmaster, hitems⟩ := block_small hinit hahead
  have hs' : Sound { e with id := n.id } := ⟨hs.freed, hs.master, hs.fields, hs.values⟩
  obtain ⟨e', lval, hheader, hahead', hready, hlive, hshared, hrel', hcount⟩ := read_header_run hs'
    (by rw [LIST_VALUE_SIZE]; omega) hahead
  have hhead := read_header_head hheader
  obtain ⟨hnum', hcnt', hid'⟩ : e'.num = e.num ∧ e'.cnt = e.cnt ∧ e'.id = n.id := by
    rw [head, head, Prod.mk.injEq, Prod.mk.injEq] at hhead
    exact hhead
  have hh : Hold.Of ⟨h.rel, true⟩ e' :=
    ⟨hh.rel.trans (hrel'.trans Iff.rfl).symm, iff_of_true rfl ⟨hlive, hshared⟩, hready.laid.frees⟩
  have hlength : n.block.visited.length = e'.items_count := by
    rw [visited_length hn, hcount, hn.1]
  have hsplit : n.block.items = n.block.visited ++ n.block.items.drop n.block.items_count :=
    (List.take_append_drop _ _).symm
  rw [hsplit, List.flatMap_append, List.length_append] at hitems
  rw [hsplit, List.flatMap_append, List.append_assoc] at hahead'
  obtain ⟨r, o, hrun, ho, hend⟩ := stream_entries_run (s := s) n.block.visited hready hh (hcnt'.trans hcnt) hid'
    (fun x hx => n.block.fits x (List.mem_of_mem_take hx)) hmaster (by omega) hahead' hout
  rw [hnum'] at ho hend
  refine ⟨r, o, ?_, ho, hend⟩
  simp only [stream_block, hinit, hheader]
  rw [← hlength]
  exact hrun

/-- The same with its bytes in front of the decoder, compressed or not. -/
theorem stream_node_run {n : StreamNode E} {e : RdbStreamEntry} {h : Hold} {s : St} {d : Dest} {c : Place}
    {rest : List UInt8} (hn : n.block.Counted) (hs : e.Sound) (hh : h.Of e)
    (hcnt : e.cnt = 0) (hat : s.bptr.At c) (hv : c.Views (n.bytes ++ rest)) (hout : s.dec.out = some d) :
    ∃ r b o, stream_node E e s = ⟨r, { s with bptr := b }, o⟩ ∧ b.At (c.adv n.bytes.length) ∧
      entry_calls o = calls_from e.num
        ((visit n.block.master.length ⟨h.rel, true⟩ n.block.visited).1.map (n, ·)) ∧
      VisitEnd (visit n.block.master.length ⟨h.rel, true⟩ n.block.visited).2
        (e.num + (visit n.block.master.length ⟨h.rel, true⟩ n.block.visited).1.length) r := by
  obtain ⟨⟨id, p, sz⟩, b, o, hnode, ⟨hat', rfl, hstarts, rfl⟩, ho⟩ := Reads.node n.chunk s c d rest hat hv hout
  obtain rfl : o = [] := List.map_eq_nil_iff.mp ho
  obtain ⟨r, o, hblock, hcalls, hend⟩ := stream_block_run (s := { s with bptr := b }) hn hs hh hcnt hstarts hout
  refine ⟨r, b, o, ?_, hat', hcalls, hend⟩
  rw [stream_node_found hnode]
  exact hblock

/-- All nodes, one behind the other, by induction: the entries that are handed out are those of `visits`. -/
theorem stream_nodes_run (nodes : List (StreamNode E)) {e : RdbStreamEntry} {h : Hold} {s : St} {d : Dest}
    {c : Place} {rest : List UInt8} (hcounted : ∀ n ∈ nodes, n.block.Counted) (hs : e.Sound)
    (hh : h.Of e) (hcnt : e.cnt = 0) (hat : s.bptr.At c)
    (hv : c.Views (nodes.flatMap StreamNode.bytes ++ rest)) (hout : s.dec.out = some d) :
    ∃ r t o, Proc.times nodes.length (stream_node E) e s = ⟨r, t, o⟩ ∧
      entry_calls o = calls_from e.num (visits h nodes).1 ∧
      VisitEnd (visits h nodes).2 (e.num + (visits h nodes).1.length) r := by
  induction nodes generalizing e h s c with
  | nil => exact ⟨.ok e, s, [], rfl, rfl, e, rfl, hs, hh, rfl, hcnt⟩
  | cons n ns ih =>
    rw [List.flatMap_cons, List.append_assoc] at hv
    obtain ⟨r, b, o, hnode, hat', ho, hend⟩ := stream_node_run (hcounted n (List.mem_cons_self ..)) hs hh hcnt
      hat hv hout
    cases hvisit : visit n.block.master.length ⟨h.rel, true⟩ n.block.visited with
    | mk xs last =>
      rw [hvisit] at ho hend
      cases last with
      | none =>
        obtain rfl : r = .error .undefined := hend
        simp only [visits, hvisit]
        exact ⟨_, _, o, Proc.bind_error hnode, ho, rfl⟩
      | some h' =>
        obtain ⟨e', rfl, hs', hh', hnum', hcnt'⟩ := hend
        obtain ⟨r, t, o', hrest, ho', hend⟩ := ih (s := { s with bptr := b })
          (fun n' hn' => hcounted n' (List.mem_cons_of_mem n hn')) hs' hh' hcnt' hat' hv.adv hout
        simp only [visits, hvisit]
        refine ⟨r, t, o ++ o', Proc.bind_ok hnode hrest, ?_, ?_⟩
        · rw [entry_calls_append, ho, ho', calls_from_append, List.length_map, hnum']
        · rw [List.length_append, List.length_map, ← Nat.add_assoc, ← hnum']
          exact hend

end RdbDecode

/-- What goes out besides entries. -/
theorem Sends.no_entries {s t : St} {o : List Event} (h : Sends (fun c => !c.of_entry) s o t) :
    entry_calls o = [] := by
  apply List.filter_eq_nil_iff.mpr
  intro c hc
  obtain ⟨ev, hev, rfl⟩ := List.mem_map.mp hc
  simpa using (h.2 ev hev).2

open RdbDecode

/-- No entry is handed out behind the nodes. -/
theorem stream_parts_entries {s t : St} {e : RdbStreamEntry} {o : List Event} (h : stream_nodes E s = ⟨.ok e, t, o⟩) :
    entry_calls (stream_parts E s).out = entry_calls o := by
  have hC : ∀ c : Callback, c.of_part = true → (!c.of_entry) = true := fun c hc => by
    rw [Callback.of_part_entry hc]
    rfl
  have htrailer : ∀ s : St, (stream_trailer E s.dec.type e.num >>= fun _ => end_key).Follows
      (Sends fun c => !c.of_entry) := fun s =>
    .bind Sends.chains (Sends.steps.stream_trailer hC _ _) fun _ => .read_bind Sends.chains fun s => Sends.call rfl
  have hrest : (do
      let s ← Proc.read
      Proc.recode e.leave do
        stream_trailer E s.dec.type e.num
        end_key
      pure e : DecodeProc RdbStreamEntry).Follows (Sends fun c => !c.of_entry) :=
    .read_bind Sends.chains fun s => .bind Sends.chains (.recode _ (htrailer s)) fun _ => .pure Sends.chains e
  rw [stream_parts, Proc.bind_out h, entry_calls_append, (hrest t).no_entries, List.append_nil]

/-- The decoder of the nodes goes on a visit to them. -/
theorem stream_nodes_visit (nodes : List (StreamNode E)) (hcounted : ∀ n ∈ nodes, n.block.Counted) {s : St}
    {c : Place} {rest : List UInt8} (hn : s.dec.rlen.len = nodes.length) (hat : s.bptr.At c)
    (hv : c.Views (nodes.flatMap StreamNode.bytes ++ rest)) :
    ∃ r t o, stream_nodes E s = ⟨r, t, ⟨s.dec.dest, .d_start_key s.dec.type s.dec.key.val, s.bptr.offset⟩ :: o⟩ ∧
      Proc.times nodes.length (stream_node E) {} { s with dec.out := some s.dec.dest } = ⟨r, t, o⟩ ∧
      entry_calls o = calls_from 0 (visits ⟨true, true⟩ nodes).1 ∧
      VisitEnd (visits ⟨true, true⟩ nodes).2 (visits ⟨true, true⟩ nodes).1.length r := by
  have hs : Sound ({} : RdbStreamEntry) := by
    refine ⟨?_, ?_, ?_, ?_⟩ <;> intro id hid <;> cases hid
  obtain ⟨r, t, o, hnodes, ho, hend⟩ := stream_nodes_run (s := { s with dec.out := some s.dec.dest }) nodes
    hcounted hs .start rfl hat hv rfl
  rw [Nat.zero_add] at hend
  refine ⟨r, t, o, Proc.bind_ok (start_key_run s) ?_, hnodes, ho, hend⟩
  rw [Proc.read_bind_run]
  dsimp only
  rw [hn]
  exact hnodes

/-- The entries that a stream hands out are those of the visit to its nodes. -/
theorem decode_stream_entries (nodes : List (StreamNode E)) (hcounted : ∀ n ∈ nodes, n.block.Counted) {s : St}
    {c : Place} {rest : List UInt8} (hn : s.dec.rlen.len = nodes.length) (hat : s.bptr.At c)
    (hv : c.Views (nodes.flatMap StreamNode.bytes ++ rest)) :
    entry_calls (decode_stream E s).out = calls_from 0 (visits ⟨true, true⟩ nodes).1 := by
  obtain ⟨r, t, o, hrun, -, ho, -⟩ := stream_nodes_visit nodes hcounted hn hat hv
  rw [decode_stream_out]
  cases r with
  | error code =>
    rw [stream_parts, Proc.bind_error hrun]
    exact ho
  | ok e =>
    rw [stream_parts_entries hrun]
    exact ho

/-- Every entry that is not deleted is handed out, once and in order, and no other is, if and only if the
deleted ones of each listpack are behind those that are not, and what the decoder reads the fields into is
where it can be released. -/
theorem decode_stream_entries_iff (nodes : List (StreamNode E)) (hcounted : ∀ n ∈ nodes, n.block.Counted)
    {s : St} {c : Place} {rest : List UInt8} (hn : s.dec.rlen.len = nodes.length) (hat : s.bptr.At c)
    (hv : c.Views (nodes.flatMap StreamNode.bytes ++ rest)) :
    entry_calls (decode_stream E s).out = (StreamNode.live_items nodes).mapIdx StreamNode.call ↔
      Deliverable nodes := by
  have hcalls : (StreamNode.live_items nodes).mapIdx StreamNode.call =
      calls_from 0 (StreamNode.live_items nodes) := by
    simp only [calls_from, Nat.zero_add]
  have hiff : (visits ⟨true, true⟩ nodes).1 = StreamNode.live_items nodes ↔ Deliverable nodes := by
    rw [visits_iff hcounted, and_iff_right fun _ => rfl]
  rw [decode_stream_entries nodes hcounted hn hat hv, hcalls, ← hiff]
  constructor
  · intro heq
    have hlen := congrArg List.length heq
    rw [calls_from, calls_from, List.length_mapIdx, List.length_mapIdx] at hlen
    exact (visits_sublist _ nodes).eq_of_length hlen
  · intro heq
    rw [heq]

/-- The id 5-0. -/
def format.Blob.id_five : Blob Env.literal := ⟨.raw (.short 16) (be_bytes 8 5 ++ be_bytes 8 0) rfl, rfl⟩

/-- One live entry. -/
def format.StreamBlock.one : StreamBlock where
  items_count := 1
  deleted_count := 0
  master := [.int 7]
  term := .int 0
  items := [.of_same 0 0 [.int 9]]
  fits := by simp [StreamFields.Fits, StreamItem.of_same]

theorem format.StreamBlock.one_packed :
    Packs (RdbListPack.uints [1, 0, 1, 7, 0, 2, 0, 0, 9, 4, 4, 4, 4]) StreamBlock.one.elems :=
  ⟨.of_uints [1, 0, 1, 7, 0, 2, 0, 0, 9, 4, 4, 4, 4], (Option.some_get _).symm, by decide +kernel,
    by decide +kernel⟩

/-- A node with one entry. -/
def format.StreamNode.one : StreamNode Env.literal where
  key := .id_five
  lp := ⟨.raw (.short 33) (RdbListPack.uints [1, 0, 1, 7, 0, 2, 0, 0, 9, 4, 4, 4, 4]) rfl, rfl⟩
  block := .one
  hkey := rfl
  hlp := StreamBlock.one_packed

/-- The decoder in front of the nodes of a stream. -/
def St.of_nodes (nodes : List (StreamNode E)) : St :=
  ⟨{ data_out := true, type := .RDB_STREAM_LISTPACK, rlen := { len := nodes.length } },
    RdbBufptr.init ⟨.input, Mem.ofList (nodes.flatMap StreamNode.bytes) 0, 0⟩
      (nodes.flatMap StreamNode.bytes).length⟩

/-- An entry with the master field, one with a field of its own, and a deleted one behind them. -/
def format.StreamBlock.deleted_last : StreamBlock where
  items_count := 2
  deleted_count := 1
  master := [.int 7]
  term := .int 0
  items := [.of_same 0 1 [.int 9], .of_own 5 1 [(.int 8, .int 6)], .of_deleted 0 2 [.int 9]]
  fits := by simp [StreamFields.Fits, StreamItem.of_same, StreamItem.of_own, StreamItem.of_deleted]

/-- A node of these. -/
def format.StreamNode.deleted_last : StreamNode Env.literal where
  key := .id_five
  lp := ⟨.raw (.short 51)
    (RdbListPack.uints [2, 1, 1, 7, 0, 2, 0, 1, 9, 4, 0, 5, 1, 1, 8, 6, 6, 3, 0, 2, 9, 4]) rfl, rfl⟩
  block := .deleted_last
  hkey := rfl
  hlp := ⟨.of_uints [2, 1, 1, 7, 0, 2, 0, 1, 9, 4, 0, 5, 1, 1, 8, 6, 6, 3, 0, 2, 9, 4], (Option.some_get _).symm,
    by decide +kernel, by decide +kernel⟩

/-- Three entries of two nodes are handed out. -/
theorem decode_stream_entries_three :
    entry_calls (decode_stream Env.literal (St.of_nodes [StreamNode.one, .deleted_last])).out =
      (StreamNode.live_items [StreamNode.one, .deleted_last]).mapIdx StreamNode.call := by
  have hcounted : ∀ n ∈ [StreamNode.one, .deleted_last], n.block.Counted :=
    List.forall_mem_cons.mpr ⟨⟨rfl, rfl⟩, List.forall_mem_singleton.mpr ⟨rfl, rfl⟩⟩
  exact (decode_stream_entries_iff [StreamNode.one, .deleted_last] hcounted rfl (.main ⟨rfl, rfl⟩)
    (Place.ofList_views_end _ _ _)).mpr ⟨by decide, by decide, by decide⟩

/-- A node with one entry, and one that is deleted in front of it. -/
def format.StreamNode.deleted_first : StreamNode Env.literal where
  key := .id_five
  lp := ⟨.raw (.short 41)
    (RdbListPack.uints [1, 1, 1, 7, 0, 3, 0, 0, 9, 4, 2, 0, 1, 9, 4, 4, 4]) rfl, rfl⟩
  block :=
    { items_count := 1
      deleted_count := 1
      master := [.int 7]
      term := .int 0
      items := [.of_deleted 0 0 [.int 9], .of_same 0 1 [.int 9]]
      fits := by simp [StreamFields.Fits, StreamItem.of_same, StreamItem.of_deleted] }
  hkey := rfl
  hlp := ⟨.of_uints [1, 1, 1, 7, 0, 3, 0, 0, 9, 4, 2, 0, 1, 9, 4, 4, 4], (Option.some_get _).symm,
    by decide +kernel, by decide +kernel⟩

/-- The entry behind the deleted one is not handed out. -/
theorem deleted_entry_hides : ¬ ∀ (E : Env) (nodes : List (StreamNode E)) (s : St) (c : Place)
    (rest : List UInt8), (∀ n ∈ nodes, n.block.Counted) → s.dec.rlen.len = nodes.length → s.bptr.At c →
      c.Views (nodes.flatMap StreamNode.bytes ++ rest) →
        entry_calls (decode_stream E s).out = (StreamNode.live_items nodes).mapIdx StreamNode.call := by
  intro h
  have hcalls := h _ [StreamNode.deleted_first] (St.of_nodes [StreamNode.deleted_first]) _ []
    (List.forall_mem_singleton.mpr ⟨rfl, rfl⟩) rfl (.main ⟨rfl, rfl⟩) (Place.ofList_views_end _ _ _)
  have hnone : entry_calls (decode_stream Env.literal (St.of_nodes [StreamNode.deleted_first])).out = [] := by
    decide +kernel
  rw [hnone] at hcalls
  cases hcalls

end rdbparser
