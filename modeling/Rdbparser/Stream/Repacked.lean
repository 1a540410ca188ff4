import Rdbparser.Format.StreamBody
import Rdbparser.Stream.Alike
import Rdbparser.Stream.Nodes

namespace rdbparser

open format RdbDecode

variable {E : Env} {α β : Type}

/-- From every state the computation ends in `r`, changes nothing and sends `calls`. -/
def Steady (x : DecodeProc α) (r : Except RdbErrCode α) (calls : List Callback) : Prop :=
  ∀ (s : St) (d : Dest), s.dec.out = some d → x s = ⟨r, s, calls.map fun k => ⟨d, k, s.bptr.offset⟩⟩

namespace Steady

theorem call (k : Callback) : Steady (DecodeProc.call k) (.ok ()) [k] := by
  intro s d hd
  simp only [DecodeProc.call, Proc.emit_run, hd]
  rfl

theorem bind {x : DecodeProc α} {f : α → DecodeProc β} {a : α} {r : Except RdbErrCode β}
    {calls calls' : List Callback} (hx : Steady x (.ok a) calls) (hf : Steady (f a) r calls') :
    Steady (x >>= f) r (calls ++ calls') := by
  intro s d hd
  rw [Proc.bind_ok (hx s d hd) (hf s d hd), List.map_append]

theorem bind_error {x : DecodeProc α} {e : RdbErrCode} {calls : List Callback} (hx : Steady x (.error e) calls)
    (f : α → DecodeProc β) : Steady (x >>= f) (.error e) calls := by
  intro s d hd
  rw [Proc.bind_error (hx s d hd)]

end Steady

namespace RdbDecode

open RdbStreamEntry

/-- The entry that is left behind `n` entries of a listpack; none if one of them can not be read. -/
def last_entry (list : RdbListPack) : Nat → RdbStreamEntry → RdbListValue → Option RdbStreamEntry
  | 0, e, _ => some e
  | n + 1, e, lval =>
    match e.read_entry list lval with
    | some (true, e, lval) =>
      if e.flags &&& RDB_STREAM_ENTRY_DELETED ≠ 0 then last_entry list n e lval
      else if (e.pairs list.base).isSome then last_entry list n { e with num := e.num + 1 } lval
      else none
    | _ => none

/-- The entry that is left behind a node with the bytes `text` for its listpack. -/
def last_of_block (e : RdbStreamEntry) (x : RdbStreamRecId × List UInt8) : Option RdbStreamEntry :=
  match RdbListPack.init (.lit x.2) x.2.length with
  | none => some { e with id := x.1 }
  | some list =>
    match RdbStreamEntry.read_header { e with id := x.1 } list with
    | some (true, e, lval) => last_entry list e.items_count e lval
    | _ => none

/-- An entry is handed out if its fields and values are there. -/
theorem stream_entry_steady (e : RdbStreamEntry) (base : Ptr) : ∃ r calls, Steady (stream_entry e base) r calls ∧
    (r.toOption.isSome ↔ (e.pairs base).isSome) := by
  have hret : Steady (Proc.ret .undefined : DecodeProc Unit) (.error .undefined) [] := fun s d _ => rfl
  unfold stream_entry
  cases e.pairs base with
  | none =>
    by_cases hnum : e.num = 0
    · rw [if_pos hnum]
      exact ⟨_, _, Steady.bind (.call _) hret, Iff.rfl⟩
    · rw [if_neg hnum]
      exact ⟨_, _, hret, Iff.rfl⟩
  | some pairs =>
    by_cases hnum : e.num = 0
    · rw [if_pos hnum]
      exact ⟨_, _, Steady.bind (.call _) (.call _), Iff.rfl⟩
    · rw [if_neg hnum]
      exact ⟨_, _, .call _, Iff.rfl⟩

/-- The entries of a list do not depend on the decoder: from every state they send the same calls and end the same
way. -/
theorem stream_entries_steady (list : RdbListPack) (n : Nat) (e : RdbStreamEntry) (lval : RdbListValue) :
    ∃ r calls, Steady (stream_entries list n e lval) r calls ∧ r.toOption = last_entry list n e lval := by
  induction n generalizing e lval with
  | zero => exact ⟨.ok e, [], fun s d _ => rfl, rfl⟩
  | succ n ih =>
    unfold stream_entries last_entry
    cases e.read_entry list lval with
    | none => exact ⟨.error .undefined, [], fun s d _ => rfl, rfl⟩
    | some r =>
      obtain ⟨b, e', lval'⟩ := r
      cases b with
      | false => exact ⟨.error (e'.leave .RDB_ERR_TRUNC), [], fun s d _ => rfl, rfl⟩
      | true =>
        dsimp only
        by_cases hlive : e'.flags &&& RDB_STREAM_ENTRY_DELETED = 0
        · rw [if_pos hlive, if_neg (not_not.mpr hlive)]
          obtain ⟨r, calls, hentry, hr⟩ := stream_entry_steady e' list.base
          cases r with
          | error c =>
            have hnone : ¬ (e'.pairs list.base).isSome = true := fun h => Bool.false_ne_true (hr.mpr h)
            rw [if_neg hnone]
            exact ⟨.error c, calls, hentry.bind_error _, rfl⟩
          | ok u =>
            obtain ⟨r, calls', hrest, hlast⟩ := ih { e' with num := e'.num + 1 } lval'
            rw [if_pos (hr.mp rfl)]
            exact ⟨r, calls ++ calls', hentry.bind hrest, hlast⟩
        · rw [if_neg hlive, if_pos hlive]
          exact ih e' lval'

/-- Nor do those of a node. -/
theorem stream_block_steady (e : RdbStreamEntry) (x : RdbStreamRecId × List UInt8) :
    ∃ r calls, Steady (stream_block e (x.1, .lit x.2, x.2.length)) r calls ∧ r.toOption = last_of_block e x := by
  unfold stream_block last_of_block
  dsimp only
  cases RdbListPack.init (.lit x.2) x.2.length with
  | none => exact ⟨.ok { e with id := x.1 }, [], fun s d _ => rfl, rfl⟩
  | some list =>
    dsimp only
    cases RdbStreamEntry.read_header { e with id := x.1 } list with
    | none => exact ⟨.error .undefined, [], fun s d _ => rfl, rfl⟩
    | some r =>
      obtain ⟨b, e', lval⟩ := r
      cases b with
      | false => exact ⟨.error (e'.leave .RDB_ERR_HDR), [], fun s d _ => rfl, rfl⟩
      | true => exact stream_entries_steady list e'.items_count e' lval

end RdbDecode

/-- The id of a node and the bytes of its listpack. -/
def format.StreamChunk.content (n : StreamChunk E) : RdbStreamRecId × List UInt8 := (n.id, n.lp.str.text)

theorem format.StreamChunk.Packed.content {x y : StreamChunk E} (h : x.Packed y) : y.content = x.content := by
  rw [StreamChunk.content, StreamChunk.content, StreamChunk.id, StreamChunk.id, h.key, h.lp.text]

/-- All nodes can be decoded. -/
def format.StreamBody.Readable (x : StreamBody E) : Prop :=
  ((x.nodes.map StreamChunk.content).foldlM last_of_block {}).isSome = true

/-- What nodes are decoded to depends on their ids and the bytes of their listpacks only. -/
theorem stream_nodes_steady (ts : List (RdbStreamRecId × List UInt8)) (e : RdbStreamEntry) :
    ∃ (r : Except RdbErrCode RdbStreamEntry) (calls : List Callback), r.toOption = ts.foldlM last_of_block e ∧
      ∀ xs : List (StreamChunk E), xs.map StreamChunk.content = ts →
        ∀ (s : St) (d : Dest) (c : Place) (rest : List UInt8), s.dec.out = some d → s.bptr.At c →
          c.Views (xs.flatMap StreamChunk.bytes ++ rest) →
            ∃ b o, Proc.times ts.length (stream_node E) e s = ⟨r, { s with bptr := b }, o⟩ ∧
              o.map Event.sent = calls.map (d, ·) ∧
                (r.toOption.isSome = true → b.At (c.adv (xs.flatMap StreamChunk.bytes).length)) := by
  induction ts generalizing e with
  | nil =>
    refine ⟨.ok e, [], rfl, fun xs hxs s d c rest hd hat hv => ?_⟩
    obtain rfl := List.map_eq_nil_iff.mp hxs
    exact ⟨s.bptr, [], rfl, rfl, fun _ => hat⟩
  | cons t ts ih =>
    obtain ⟨r, calls, hblock, hr⟩ := stream_block_steady e t
    -- one node, whatever it is
    have hnode : ∀ x : StreamChunk E, x.content = t → ∀ (s : St) (d : Dest) (c : Place) (rest : List UInt8),
        s.dec.out = some d → s.bptr.At c → c.Views (x.bytes ++ rest) →
          ∃ b o, stream_node E e s = ⟨r, { s with bptr := b }, o⟩ ∧ o.map Event.sent = calls.map (d, ·) ∧
            b.At (c.adv x.bytes.length) := by
      intro x hx s d c rest hd hat hv
      obtain ⟨⟨id, p, sz⟩, b, o, hrun, ⟨hat', rfl, hp, rfl⟩, ho⟩ := Reads.node x s c d rest hat hv hd
      obtain rfl : o = [] := List.map_eq_nil_iff.mp ho
      obtain rfl := hx
      refine ⟨b, calls.map fun k => ⟨d, k, b.offset⟩, ?_, ?_, hat'⟩
      · rw [stream_node_found hrun, stream_block_same hp x.hlp]
        exact hblock { s with bptr := b } d hd
      · rw [List.map_map]
        rfl
    cases r with
    | error code =>
      refine ⟨.error code, calls, ?_, fun xs hxs s d c rest hd hat hv => ?_⟩
      · rw [List.foldlM_cons, ← hr]
        rfl
      · obtain ⟨x, xs, rfl, hx, -⟩ := List.map_eq_cons_iff.mp hxs
        rw [List.flatMap_cons, List.append_assoc] at hv
        obtain ⟨b, o, hrun, ho, -⟩ := hnode x hx s d c _ hd hat hv
        exact ⟨b, o, Proc.bind_error hrun, ho, fun h => by cases h⟩
    | ok e' =>
      obtain ⟨r, calls', hlast, hrest⟩ := ih e'
      refine ⟨r, calls ++ calls', ?_, fun xs hxs s d c rest hd hat hv => ?_⟩
      · rw [List.foldlM_cons, ← hr]
        exact hlast
      · obtain ⟨x, xs, rfl, hx, htail⟩ := List.map_eq_cons_iff.mp hxs
        rw [List.flatMap_cons, List.append_assoc] at hv
        obtain ⟨b, o, hrun, ho, hat'⟩ := hnode x hx s d c _ hd hat hv
        obtain ⟨b', o', hrun', ho', hend⟩ := hrest xs htail { s with bptr := b } d _ rest hd hat' hv.adv
        refine ⟨b', o ++ o', Proc.bind_ok hrun hrun', ?_, fun h => ?_⟩
        · rw [List.map_append, List.map_append, ho, ho']
        · rw [List.flatMap_cons, List.length_append, ← Place.adv_adv]
          exact hend h

/-- One call is sent for each name of a consumer. -/
theorem format.StreamTrailer.countP_parts (x : StreamTrailer E) (entry_cnt : Nat) :
    (x.parts entry_cnt).countP Callback.of_cons = x.consumer_names.length := by
  have hgroups := countP_listed .STREAM_GROUP_LIST x.hgroups fun num g _ => g.countP_calls x.group_cnt.val num
  have hend : (if entry_cnt ≠ 0 then [Callback.d_stream_end .STREAM_ENTRY_LIST] else []).countP
      Callback.of_cons = 0 := by
    split <;> rfl
  rw [StreamTrailer.parts, StreamTrailer.parts_of, List.countP_append, List.countP_cons, hend, hgroups, Nat.zero_add]
  rfl

theorem format.StreamTrailer.Packed.parts {x y : StreamTrailer E} (h : x.Packed y) (entry_cnt : Nat) :
    y.parts entry_cnt = x.parts entry_cnt := by
  rw [StreamTrailer.parts, StreamTrailer.parts, StreamTrailer.parts_of, StreamTrailer.parts_of, h.last_ms,
    h.last_ser, h.last_count, h.group_cnt,
    mapIdx_congr h.groups fun num g g' hg => hg.calls x.group_cnt.val num]

/-- What goes out behind the nodes of a stream if there are `n` consumers whose names can be read. -/
def format.StreamTrailer.sent (x : StreamTrailer E) (entry_cnt n : Nat) : List Callback :=
  upto n (x.parts entry_cnt) ++ if n = x.consumer_names.length then [.d_end_key x.type] else []

/-- A trailer with a compressed consumer name is decoded up to the first of these. -/
theorem stream_trailer_run (x : StreamTrailer E) (entry_cnt : Nat) {s : St} {d : Dest} {c : Place}
    {rest : List UInt8} (htype : s.dec.type = x.type) (hd : s.dec.out = some d) (hat : s.bptr.At c)
    (hv : c.Views (x.bytes ++ rest)) :
    ∃ t o, (stream_trailer E s.dec.type entry_cnt >>= fun _ => end_key) s =
        ⟨if clear x.consumer_names = x.consumer_names.length then .ok () else .error .RDB_ERR_TRUNC, t, o⟩ ∧
      o.map Event.sent = (x.sent entry_cnt (clear x.consumer_names)).map (d, ·) := by
  rw [htype, StreamTrailer.sent, List.map_append]
  by_cases hlzf : ∃ n ∈ x.consumer_names, n.is_lzf = true
  · obtain ⟨t, o, hrun, ho⟩ := (Goes.stream_trailer x entry_cnt).stops hlzf s c d rest hat hv hd
    rw [if_neg (Nat.ne_of_lt (clear_lt hlzf)), if_neg (Nat.ne_of_lt (clear_lt hlzf))]
    exact ⟨t, o, Proc.bind_error hrun, by rw [ho, List.map_nil, List.append_nil]⟩
  · have hall : ∀ n ∈ x.consumer_names, n.is_lzf = false := fun n hn => by
      rw [← Bool.not_eq_true]
      exact fun h => hlzf ⟨n, hn, h⟩
    obtain ⟨_, b, o, hrun, -, ho⟩ := (Goes.stream_trailer x entry_cnt).reads hall s c d rest hat hv hd
    have hend : end_key { s with bptr := b } =
        ⟨.ok (), { s with bptr := b }, [⟨d, .d_end_key s.dec.type, b.offset⟩]⟩ := end_key_run hd
    rw [if_pos (clear_all hall), if_pos (clear_all hall), clear_all hall, ← x.countP_parts entry_cnt, upto_count]
    refine ⟨_, _, Proc.bind_ok hrun hend, ?_⟩
    rw [List.map_append, ho, htype]
    rfl

/-- So many consumers are handed out. -/
theorem format.StreamTrailer.countP_sent (x : StreamTrailer E) (entry_cnt : Nat) :
    (x.sent entry_cnt (clear x.consumer_names)).countP Callback.of_cons = clear x.consumer_names := by
  have hend : (if clear x.consumer_names = x.consumer_names.length then [Callback.d_end_key x.type] else []).countP
      Callback.of_cons = 0 := by
    split <;> rfl
  have hle : clear x.consumer_names ≤ (x.parts entry_cnt).countP Callback.of_cons := by
    rw [x.countP_parts]
    exact clear_le _
  rw [StreamTrailer.sent, List.countP_append, hend, Nat.add_zero, countP_upto hle]

/-- A stream whose nodes end in `r` and send `calls`. -/
theorem stream_parts_body {x : StreamBody E} {r : Except RdbErrCode RdbStreamEntry} {calls : List Callback} {s : St}
    {c : Place} {rest : List UInt8} (htype : s.dec.type = x.trailer.type)
    (hv : c.Views (x.bytes ++ rest))
    (hnodes : ∃ b o, Proc.times s.dec.rlen.len (stream_node E) {} { s with dec.out := some s.dec.dest } =
        ⟨r, ⟨{ s.dec with out := some s.dec.dest }, b⟩, o⟩ ∧ o.map Event.sent = calls.map (s.dec.dest, ·) ∧
      (r.toOption.isSome = true → b.At (c.adv (x.nodes.flatMap StreamChunk.bytes).length))) :
    (∀ code, r = .error code → ∃ t o, stream_parts E s = ⟨.error code, t, o⟩ ∧
      o.map Event.sent = (s.dec.dest, .d_start_key s.dec.type s.dec.key.val) :: calls.map (s.dec.dest, ·)) ∧
    ∀ e, r = .ok e → ∃ t o, stream_parts E s =
        ⟨if clear x.trailer.consumer_names = x.trailer.consumer_names.length then .ok e
          else .error (e.leave .RDB_ERR_TRUNC), t, o⟩ ∧
      o.map Event.sent = (s.dec.dest, .d_start_key s.dec.type s.dec.key.val) ::
        (calls ++ x.trailer.sent e.num (clear x.trailer.consumer_names)).map (s.dec.dest, ·) := by
  obtain ⟨b, o, hrun, ho, hat⟩ := hnodes
  have hstream : stream_nodes E s = ⟨r, ⟨{ s.dec with out := some s.dec.dest }, b⟩,
      ⟨s.dec.dest, .d_start_key s.dec.type s.dec.key.val, s.bptr.offset⟩ :: o⟩ := by
    refine Proc.bind_ok (start_key_run s) ?_
    rw [Proc.read_bind_run]
    exact hrun
  constructor
  · rintro code rfl
    refine ⟨_, _, Proc.bind_error hstream, ?_⟩
    rw [List.map_cons, ho]
    rfl
  · rintro e rfl
    rw [StreamBody.bytes, List.append_assoc] at hv
    obtain ⟨t, o', hrest, ho'⟩ := stream_trailer_run (s := ⟨{ s.dec with out := some s.dec.dest }, b⟩) x.trailer e.num
      htype rfl (hat rfl) hv.adv
    have hlast : (do
        let s ← Proc.read
        Proc.recode e.leave do
          stream_trailer E s.dec.type e.num
          end_key
        pure e : DecodeProc RdbStreamEntry) ⟨{ s.dec with out := some s.dec.dest }, b⟩ =
          ⟨if clear x.trailer.consumer_names = x.trailer.consumer_names.length then .ok e
            else .error (e.leave .RDB_ERR_TRUNC), t, o'⟩ := by
      rw [Proc.read_bind_run]
      split
      · next hclear =>
        rw [if_pos hclear] at hrest
        rw [Proc.bind_ok (Proc.recode_ok hrest) rfl, List.append_nil]
      · next hclear =>
        rw [if_neg hclear] at hrest
        exact Proc.bind_error (Proc.recode_error hrest)
    refine ⟨t, _, Proc.bind_ok hstream hlast, ?_⟩
    rw [List.cons_append, List.map_cons, List.map_append, List.map_append, ho, ho']
    rfl

/-- A stream is decoded to the same result, and handed out by the same callbacks, when some of its listpacks
and names are compressed, if and only if as many consumers as before are in front of the first one with a
compressed name; the time it was seen is looked for in the decompression buffer. -/
theorem decode_stream_packed_iff {x y : StreamBody E} (h : x.Packed y) {s s' : St} {c c' : Place}
    {rest rest' : List UInt8} (hdec : s'.dec = s.dec) (htype : s.dec.type = x.trailer.type)
    (hlen : s.dec.rlen.len = x.nodes.length) (hat : s.bptr.At c) (hat' : s'.bptr.At c')
    (hv : c.Views (x.bytes ++ rest)) (hv' : c'.Views (y.bytes ++ rest')) :
    ((decode_stream E s').res = (decode_stream E s).res ∧
      (decode_stream E s').out.map Event.sent = (decode_stream E s).out.map Event.sent) ↔
      (x.Readable → clear y.trailer.consumer_names = clear x.trailer.consumer_names) := by
  obtain ⟨dec, bptr⟩ := s
  obtain ⟨dec', bptr'⟩ := s'
  obtain rfl : dec' = dec := hdec
  have hcontent : y.nodes.map StreamChunk.content = x.nodes.map StreamChunk.content := by
    have hnodes := h.nodes
    generalize x.nodes = xs, y.nodes = ys at hnodes
    induction hnodes with
    | nil => rfl
    | cons hxy _ ih => rw [List.map_cons, List.map_cons, hxy.content, ih]
  have hlen' : dec'.rlen.len = (x.nodes.map StreamChunk.content).length := by rw [List.length_map]; exact hlen
  obtain ⟨r, calls, hlast, hnodes⟩ := stream_nodes_steady (E := E) (x.nodes.map StreamChunk.content) {}
  rw [← hlen'] at hnodes
  have hx := stream_parts_body htype hv (hnodes x.nodes rfl _ dec'.dest c (x.trailer.bytes ++ rest) rfl hat
    (by rwa [StreamBody.bytes, List.append_assoc] at hv))
  have hy := stream_parts_body (s := ⟨dec', bptr'⟩) (htype.trans h.trailer.type.symm) hv' (hnodes y.nodes hcontent _
    dec'.dest c' (y.trailer.bytes ++ rest') rfl hat' (by rwa [StreamBody.bytes, List.append_assoc] at hv'))
  rw [decode_stream_out, decode_stream_out, StreamBody.Readable, ← hlast]
  cases r with
  | error code =>
    obtain ⟨t, o, hrun, ho⟩ := hx.1 code rfl
    obtain ⟨t', o', hrun', ho'⟩ := hy.1 code rfl
    refine iff_of_true ⟨decode_stream_res_congr ?_, ?_⟩ fun h => by cases h
    · rw [hrun, hrun']
    · rw [hrun, hrun', ho, ho']
  | ok e =>
    obtain ⟨t, o, hrun, ho⟩ := hx.2 e rfl
    obtain ⟨t', o', hrun', ho'⟩ := hy.2 e rfl
    constructor
    · rintro ⟨-, hout⟩ -
      rw [hrun, hrun', ho, ho', List.cons.injEq, List.map_append, List.map_append,
        List.append_cancel_left_eq] at hout
      have hsent := List.map_injective_iff.mpr (Prod.mk_right_injective dec'.dest) hout.2
      rw [← y.trailer.countP_sent e.num, hsent, x.trailer.countP_sent]
    · intro hclear
      have hclear := hclear rfl
      have hsent : y.trailer.sent e.num (clear y.trailer.consumer_names) =
          x.trailer.sent e.num (clear x.trailer.consumer_names) := by
        rw [StreamTrailer.sent, StreamTrailer.sent, hclear, h.trailer.parts, h.trailer.names_length, h.trailer.type]
      refine ⟨decode_stream_res_congr ?_, ?_⟩
      · rw [hrun, hrun', hclear, h.trailer.names_length]
      · rw [hrun, hrun', ho, ho', hsent]

/-- A string of less than 33 bytes, and the same one compressed. -/
def format.Blob.short (text : List UInt8) (h : text.length < 2 ^ 6 := by decide) : Blob Env.literal :=
  ⟨.raw ⟨.len6, text.length, h⟩ text rfl, rfl⟩

theorem format.Blob.zipped_fits {n : Nat} (h : n ≤ 32) : n + 1 < 2 ^ 6 := by omega

def format.Blob.zipped (text : List UInt8) (hne : text ≠ [] := by decide) (h : text.length ≤ 32 := by decide) :
    Blob Env.literal :=
  ⟨.lzf ⟨.len6, text.length + 1, zipped_fits h⟩ ⟨.len6, text.length, Nat.lt_of_succ_lt (zipped_fits h)⟩
    (UInt8.ofNat (text.length - 1) :: text) text rfl rfl (Env.literal_expands hne h), rfl⟩

/-- A listpack with one entry. -/
def RdbListPack.one : List UInt8 := RdbListPack.uints [1, 0, 1, 7, 0, 2, 0, 0, 9, 4]

/-- A stream with one entry, which the consumer "c" of the group "g" has pending: its listpack and these two
names are as they are given. -/
def format.StreamBody.one (lp group consumer : Blob Env.literal) (h : Bounded lp.str.text := by decide +kernel) :
    StreamBody Env.literal where
  nodes := [⟨StreamNode.one.key, lp, by decide, h⟩]
  trailer := { StreamTrailer.pending with
    groups := StreamTrailer.pending.groups.map fun g => { g with
      name := group
      consumers := g.consumers.map fun c => { c with name := consumer }
      hcons := by rw [List.length_map]; exact g.hcons }
    hgroups := by rw [List.length_map]; rfl }

/-- The decoder in front of a stream, with an end marker behind. -/
def St.of_body (x : StreamBody E) : St :=
  ⟨{ data_out := true, type := x.trailer.type, rlen := { len := x.nodes.length } },
    RdbBufptr.init ⟨.input, Mem.ofList (x.bytes ++ [0xff]) 0, 0⟩ (x.bytes ++ [0xff]).length⟩

theorem format.StreamBody.one_packed {lp lp' group group' consumer consumer' : Blob Env.literal}
    (hlp : lp.Packed lp') (hgroup : group.Packed group') (hconsumer : consumer.Packed consumer')
    (h : Bounded lp.str.text) (h' : Bounded lp'.str.text) :
    (StreamBody.one lp group consumer h).Packed (StreamBody.one lp' group' consumer' h') where
  nodes := .cons ⟨rfl, hlp⟩ .nil
  trailer := ⟨rfl, rfl, rfl, rfl, rfl, .cons ⟨hgroup, rfl, rfl, rfl, rfl, rfl, rfl,
    .cons ⟨hconsumer, rfl, rfl, rfl⟩ .nil⟩ .nil⟩

theorem format.Blob.short_packed (text : List UInt8) {h : text.length < 2 ^ 6} {hne : text ≠ []}
    {h' : text.length ≤ 32} : (Blob.short text h).Packed (Blob.zipped text hne h') :=
  .inr ⟨rfl, rfl, rfl⟩

/-- Nothing is compressed, the listpack and the name of the group are, or the name of the consumer is. -/
def format.StreamBody.plain : StreamBody Env.literal :=
  .one (.short RdbListPack.one) (.short [0x67]) (.short [0x63])

def format.StreamBody.packed : StreamBody Env.literal :=
  .one (.zipped RdbListPack.one) (.zipped [0x67]) (.short [0x63])

def format.StreamBody.packed_consumer : StreamBody Env.literal :=
  .one (.short RdbListPack.one) (.short [0x67]) (.zipped [0x63])

/-- A stream with compressed parts, and the same one with none compressed. -/
theorem decode_stream_packed_one :
    (decode_stream Env.literal (St.of_body StreamBody.packed)).res =
        (decode_stream Env.literal (St.of_body StreamBody.plain)).res ∧
      (decode_stream Env.literal (St.of_body StreamBody.packed)).out.map Event.sent =
        (decode_stream Env.literal (St.of_body StreamBody.plain)).out.map Event.sent :=
  (@decode_stream_packed_iff _ StreamBody.plain _
    (StreamBody.one_packed (Blob.short_packed _) (Blob.short_packed _) (.inl rfl) _ _)
    (St.of_body StreamBody.plain) (St.of_body StreamBody.packed) _ _ _ _ rfl rfl rfl (.main ⟨rfl, rfl⟩)
    (.main ⟨rfl, rfl⟩) (Place.ofList_views _ _ _) (Place.ofList_views _ _ _)).mpr fun _ => rfl

/-- The name of a consumer may not be compressed. -/
theorem packed_consumer_trunc : ¬ ∀ (E : Env) (x y : StreamBody E), x.Packed y → ∀ (s s' : St) (c c' : Place)
    (rest rest' : List UInt8), s'.dec = s.dec → s.dec.type = .RDB_STREAM_LISTPACK → s.dec.type = x.trailer.type →
      s.dec.rlen.len = x.nodes.length → s.bptr.At c → s'.bptr.At c' → c.Views (x.bytes ++ rest) →
        c'.Views (y.bytes ++ rest') → rest ≠ [] → rest' ≠ [] →
          (decode_stream E s').res = (decode_stream E s).res ∧
            (decode_stream E s').out.map Event.sent = (decode_stream E s).out.map Event.sent := by
  intro h
  have hres := (h Env.literal StreamBody.plain StreamBody.packed_consumer
    (StreamBody.one_packed (.inl rfl) (.inl rfl) (Blob.short_packed _) _ _) (St.of_body StreamBody.plain)
    (St.of_body StreamBody.packed_consumer) _ _ [0xff] [0xff] rfl rfl rfl rfl (.main ⟨rfl, rfl⟩)
    (.main ⟨rfl, rfl⟩) (Place.ofList_views _ _ _) (Place.ofList_views _ _ _) (by decide) (by decide)).1
  have hplain : (decode_stream Env.literal (St.of_body StreamBody.plain)).res = .ok () := by decide +kernel
  have hpacked : (decode_stream Env.literal (St.of_body StreamBody.packed_consumer)).res =
      .error .RDB_ERR_TRUNC := by decide +kernel
  exact absurd (hpacked.symm.trans (hres.trans hplain)) (by decide)

end rdbparser
