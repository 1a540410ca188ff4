import Rdbparser.Nesting
import Rdbparser.Decode.Unread
import Rdbparser.Proc.Moves
import Rdbparser.Stream.Entry

namespace rdbparser

open RdbDecode

/-- A list part is opened by `d_stream_start`, a group and a consumer by the callback that hands them
out; `d_stream_end` closes all of them. -/
def Callback.nesting : Callback → Nesting StreamPart
  | .d_stream_start c => .opening c
  | .d_stream_group .. => .opening .STREAM_GROUP
  | .d_stream_cons .. => .opening .STREAM_CONSUMER
  | .d_stream_end c => .closing c
  | _ => .flat

/-- The start or the end of a key. -/
def Callback.of_key : Callback → Bool
  | .d_start_key .. | .d_end_key _ => true
  | _ => false

/-- The callbacks of one value: `d_start_key` first and `d_end_key` last, once each, and in between all
that is opened is closed. -/
def BalancedTrace (calls : List Callback) : Prop :=
  ∃ type key mid type', calls = .d_start_key type key :: (mid ++ [.d_end_key type']) ∧
    (∀ c ∈ mid, c.of_key = false) ∧ Nesting.Balanced Callback.nesting mid

/-- `x` goes through the stream parts that are open. -/
abbrev Parts {α : Type} (x : DecodeProc α) (g : List StreamPart) (Q : α → List StreamPart) : Prop :=
  x.Moves (fun s => s.dec.out.isSome = true) (fun g e => Nesting.step Callback.nesting g e.call) g Q

namespace Parts

variable {α : Type} {E : Env} {g : List StreamPart}

/-- A computation that neither opens nor closes anything leaves what is open as it is. -/
theorem of_flat {C : Callback → Bool} {x : DecodeProc α} (hx : x.Follows (Sends C))
    (hC : ∀ c, C c = true → c.nesting = .flat) : Parts x g fun _ => g := by
  intro s a t o hs hrun
  have h := hx s
  rw [hrun] at h
  have hdec : t.dec = s.dec := h.1
  refine ⟨?_, ?_⟩
  · change t.dec.out.isSome = true
    rw [hdec]
    exact hs
  · have hflat : ∀ c ∈ o.map Event.call, Callback.nesting c = .flat := by
      intro c hc
      obtain ⟨e, he, rfl⟩ := List.mem_map.mp hc
      exact hC _ (h.2 e he).2
    rw [← List.foldlM_map, Nesting.foldlM_flat hflat]

theorem of_quiet {x : DecodeProc α} (hx : x.Follows (Sends fun _ => false)) : Parts x g fun _ => g :=
  of_flat hx fun _ h => absurd h Bool.false_ne_true

/-- A call opens or closes what it does. -/
theorem call {c : Callback} {g' : List StreamPart}
    (h : Nesting.step Callback.nesting g c = some g') : Parts (DecodeProc.call c) g fun _ => g' := by
  intro s a t o hs hrun
  obtain ⟨d, hd⟩ := Option.isSome_iff_exists.mp hs
  rw [DecodeProc.call, Proc.emit_run, hd] at hrun
  obtain ⟨-, rfl, rfl⟩ := Run.mk.inj hrun
  refine ⟨hs, ?_⟩
  rw [List.foldlM_cons, h]
  rfl

theorem decode (l : RdbLength) : Parts (DecodeProc.decode l) g fun _ => g := of_quiet (Sends.decode l)

theorem incr (n : Nat) : Parts (DecodeProc.incr n) g fun _ => g := of_quiet (Sends.incr n)

/-- The list of entries is open from the first one on. -/
def entries (num : Nat) (g : List StreamPart) : List StreamPart :=
  if num = 0 then g else .STREAM_ENTRY_LIST :: g

/-- The first entry opens the list of entries, the others stay in it. -/
theorem stream_entry (e : RdbStreamEntry) (base : Ptr) :
    Parts (RdbDecode.stream_entry e base) (entries e.num g) fun _ => entries (e.num + 1) g := by
  unfold RdbDecode.stream_entry
  cases e.pairs base with
  | none =>
    refine .ite (fun _ => ?_) fun _ => .ret _
    exact .bind (call rfl) fun _ => .ret _
  | some pairs =>
    refine .ite (fun hnum => ?_) fun hnum => ?_
    · rw [entries, if_pos hnum]
      exact .bind (call rfl) fun _ => call rfl
    · rw [entries, if_neg hnum]
      exact call rfl

/-- The same for the entries of one listpack. -/
theorem stream_entries (list : RdbListPack) (n : Nat) (e : RdbStreamEntry) (lval : RdbListValue) :
    Parts (RdbDecode.stream_entries list n e lval) (entries e.num g) fun e => entries e.num g := by
  induction n generalizing e lval with
  | zero => exact .pure rfl
  | succ n ih =>
    unfold RdbDecode.stream_entries
    split
    · exact .ret _
    · exact .ret _
    · next hentry =>
      have hnum := congrArg Prod.fst (RdbStreamEntry.read_entry_head hentry)
      change _ = e.num at hnum
      rw [← hnum]
      exact .ite (fun _ => .bind (stream_entry _ _) fun _ => ih _ _) fun _ => ih _ _

/-- The same for a node, header and entries. -/
theorem stream_block (e : RdbStreamEntry) (r : RdbStreamRecId × Ptr × Nat) :
    Parts (RdbDecode.stream_block e r) (entries e.num g) fun e => entries e.num g := by
  unfold RdbDecode.stream_block
  split
  · exact .pure rfl
  · split
    · exact .ret _
    · exact .ret _
    · next hheader =>
      have hnum := congrArg Prod.fst (RdbStreamEntry.read_header_head hheader)
      change _ = e.num at hnum
      rw [← hnum]
      exact stream_entries _ _ _ _

theorem stream_node (e : RdbStreamEntry) :
    Parts (RdbDecode.stream_node E e) (entries e.num g) fun e => entries e.num g :=
  .bind (.recode _ (of_quiet Sends.steps.stream_lp)) fun r => stream_block e r

/-- A list of parts closes what it opens, if its elements do. -/
theorem stream_list (part : StreamPart) (cnt : Nat) {elem : Nat → DecodeProc Unit}
    (helem : ∀ g i, Parts (elem i) g fun _ => g) :
    Parts (RdbDecode.stream_list part cnt elem) g fun _ => g := by
  refine .ite (fun hcnt => ?_) fun hcnt => ?_
  · refine .bind (call (Nesting.step_opening rfl)) fun _ => .bind (.count (helem _) 0 cnt) fun _ => ?_
    rw [if_pos hcnt]
    exact call (Nesting.step_closing rfl)
  · refine .bind (.count (helem _) 0 cnt) fun _ => ?_
    rw [if_neg hcnt]
    exact .pure rfl

theorem stream_pend (cnt num : Nat) : Parts (RdbDecode.stream_pend cnt num) g fun _ => g :=
  .bind (incr _) fun _ => .bind (incr _) fun _ => .bind (decode {}) fun _ => call rfl

theorem stream_cons_pend (cnt num : Nat) : Parts (RdbDecode.stream_cons_pend cnt num) g fun _ => g :=
  .bind (incr _) fun _ => call rfl

theorem stream_cons (cnt num : Nat) : Parts (RdbDecode.stream_cons E cnt num) g fun _ => g := by
  refine .bind (of_quiet Sends.steps.stream_name) fun _ => .bind (incr _) fun _ => .bind (decode {}) fun _ => ?_
  refine .bind (call (Nesting.step_opening rfl)) fun _ => ?_
  exact .bind (stream_list _ _ fun _ => stream_cons_pend _) fun _ => call (Nesting.step_closing rfl)

/-- A group closes what it opens, if it gets to its end. -/
theorem stream_group (type : RdbType) (cnt : Nat) (b : Nat × RdbLength) :
    Parts (RdbDecode.stream_group E type cnt b) g fun _ => g := by
  obtain ⟨num, group_off⟩ := b
  refine .bind (of_quiet Sends.steps.stream_name) fun gname => .bind (decode {}) fun last_ms => ?_
  refine .bind (decode {}) fun last_ser => ?_
  have hrest : ∀ group_off : RdbLength, Parts (do
      let pend_cnt ← DecodeProc.decode {}
      DecodeProc.call (.d_stream_group num cnt gname pend_cnt.len ⟨last_ms.len, last_ser.len⟩)
      RdbDecode.stream_list .STREAM_PENDING_LIST pend_cnt.len (RdbDecode.stream_pend pend_cnt.len)
      let cons_cnt ← DecodeProc.decode {}
      RdbDecode.stream_list .STREAM_CONSUMER_LIST cons_cnt.len (RdbDecode.stream_cons E cons_cnt.len)
      DecodeProc.call (.d_stream_end .STREAM_GROUP)
      pure (num + 1, group_off)) g fun _ => g := fun _ =>
    .bind (decode {}) fun _ => .bind (call (Nesting.step_opening rfl)) fun _ =>
    .bind (stream_list _ _ fun _ => stream_pend _) fun _ => .bind (decode {}) fun _ =>
    .bind (stream_list _ _ fun _ => stream_cons _) fun _ =>
    .bind (call (Nesting.step_closing rfl)) fun _ => .pure rfl
  exact .ite (fun _ => .bind (decode _) hrest) fun _ => .bind (.pure rfl) hrest

theorem start_key : Parts RdbDecode.start_key g fun _ => g := by
  rintro s a t o - hrun
  rw [start_key_run] at hrun
  obtain ⟨-, rfl, rfl⟩ := Run.mk.inj hrun
  exact ⟨rfl, rfl⟩

theorem end_key : Parts RdbDecode.end_key g fun _ => g :=
  .bind .read fun _ => call rfl

/-- What is stored behind the nodes closes the list of entries first, if there is one. -/
theorem stream_trailer (type : RdbType) (num : Nat) :
    Parts (RdbDecode.stream_trailer E type num) (entries num []) fun _ => [] := by
  have hgroups : ∀ (n : Nat) (g : List StreamPart),
      (n ≠ 0 → g = [.STREAM_GROUP_LIST]) → (¬ n ≠ 0 → g = []) → Parts (do
        let _ ← Proc.times n (RdbDecode.stream_group E type n) (0, {})
        if n ≠ 0 then DecodeProc.call (.d_stream_end .STREAM_GROUP_LIST)) g fun _ => [] := by
    intro n g hopen hnone
    refine .bind (.times (Q := fun _ => g) (fun b => stream_group _ _ b) _ _) fun _ =>
      .ite (fun hn => ?_) fun hn => ?_
    · rw [hopen hn]
      exact call rfl
    · exact .pure (hnone hn)
  have hinfo : Parts (do
      let r ← RdbDecode.stream_info type
      DecodeProc.call (.d_stream_info r.2.1 r.1 r.2.2 num)
      if r.2.2 ≠ 0 then DecodeProc.call (.d_stream_start .STREAM_GROUP_LIST)
      let _ ← Proc.times r.2.2 (RdbDecode.stream_group E type r.2.2) (0, {})
      if r.2.2 ≠ 0 then DecodeProc.call (.d_stream_end .STREAM_GROUP_LIST)) [] fun _ => [] := by
    refine .bind (of_quiet (Sends.buf.stream_info _)) fun r => .bind (call rfl) fun _ => ?_
    exact .ite (fun hn => .bind (call rfl) fun _ => hgroups r.2.2 _ (fun _ => rfl) fun h => absurd hn h)
      fun hn => hgroups r.2.2 _ (fun h => absurd h hn) fun _ => rfl
  refine .ite (fun hnum => ?_) fun hnum => ?_
  · rw [entries, if_neg hnum]
    exact .bind (call rfl) fun _ => hinfo
  · rw [entries, if_pos (not_not.mp hnum)]
    exact hinfo

theorem stream_parts : Parts (RdbDecode.stream_parts E) [] fun _ => [] := by
  have hnodes : Parts (RdbDecode.stream_nodes E) [] fun e => entries e.num [] :=
    .bind start_key fun _ => .bind .read fun _ =>
      .times (Q := fun e : RdbStreamEntry => entries e.num []) stream_node _ {}
  refine .bind hnodes fun e => .bind .read fun s => ?_
  exact .bind (.recode _ (.bind (stream_trailer _ _) fun _ => end_key)) fun _ => .pure rfl

end Parts

variable {E : Env} {C : Callback → Bool}

/-- What a decoder that starts with `start_key` has delivered when it goes through, and when it does not. -/
theorem Framed.run {α : Type} {x : DecodeProc α} (h : Framed C x) (s : St) :
    (∃ e, x s = ⟨.error e, s, []⟩) ∨ ∃ o t, (∀ e ∈ o, C e.call = true) ∧
      ((∃ e start, x s = ⟨.error e, t, start :: o⟩ ∧
          start.call = .d_start_key s.dec.type s.dec.key.val) ∨
        ∃ a start last, x s = ⟨.ok a, t, start :: (o ++ [last])⟩ ∧
          start.call = .d_start_key s.dec.type s.dec.key.val ∧ last.call = .d_end_key s.dec.type) := by
  rcases h s with hfail | ⟨f, hf, hrun⟩
  · exact .inl hfail
  · refine .inr ?_
    rw [hrun]
    rcases hf { s with dec.out := some s.dec.dest } s.dec.dest rfl with
      ⟨e, t, o, hrest, hsent⟩ | ⟨a, t, o, n, hrest, hsent⟩
    · exact ⟨o, t, fun e he => (hsent.2 e he).2, .inl ⟨e, _, Proc.bind_ok (start_key_run s) hrest, rfl⟩⟩
    · exact ⟨o, t, fun e he => (hsent.2 e he).2,
        .inr ⟨a, _, _, Proc.bind_ok (start_key_run s) hrest, rfl, rfl⟩⟩

theorem Callback.of_value_of_key {c : Callback} (h : c.of_value = true) : c.of_key = false := by
  cases c <;> first | rfl | cases h

theorem Callback.of_elem_of_value {c : Callback} (h : c.of_elem = true) :
    c.of_value = true ∧ c.nesting = .flat := by
  cases c <;> first | exact ⟨rfl, rfl⟩ | cases h

/-- What is balanced between the start of a key and its end is a balanced trace. -/
theorem balancedTrace_framed {o : List Event} {start last : Event} {type type' : RdbType} {key : RdbVal}
    (hstart : start.call = .d_start_key type key) (hlast : last.call = .d_end_key type')
    (ho : ∀ e ∈ o, e.call.of_value = true) (hmid : Nesting.Balanced Callback.nesting (o.map Event.call)) :
    BalancedTrace ((start :: (o ++ [last])).map Event.call) := by
  refine ⟨type, key, o.map Event.call, type', ?_, ?_, hmid⟩
  · simp only [List.map_cons, List.map_append, List.map_nil, hstart, hlast]
  · intro c hc
    obtain ⟨e, he, rfl⟩ := List.mem_map.mp hc
    exact Callback.of_value_of_key (ho e he)

/-- Without `d_end_key` a trace is not balanced. -/
theorem not_balancedTrace {o : List Event} {start : Event} (ho : ∀ e ∈ o, e.call.of_value = true) :
    ¬ BalancedTrace ((start :: o).map Event.call) := by
  rintro ⟨type, key, mid, type', heq, -, -⟩
  have hmem : Callback.d_end_key type' ∈ o.map Event.call := by
    rw [List.map_cons, List.cons.injEq] at heq
    rw [heq.2]
    exact List.mem_append_right _ (List.mem_singleton_self _)
  obtain ⟨e, he, hcall⟩ := List.mem_map.mp hmem
  have := ho e he
  rw [hcall] at this
  cases this

/-- The parts of a stream are balanced between the start of the key and its end. -/
theorem stream_parts_balanced {s t : St} {e : RdbStreamEntry} {o : List Event} {start last : Event}
    {type type' : RdbType} {key : RdbVal} (h : stream_parts E s = ⟨.ok e, t, start :: (o ++ [last])⟩)
    (hstart : start.call = .d_start_key type key) (hlast : last.call = .d_end_key type') :
    Nesting.Balanced Callback.nesting (o.map Event.call) := by
  have hstep : ∀ (e : Event) (g : List StreamPart), e.call.nesting = .flat →
      Nesting.step Callback.nesting g e.call = some g := fun _ _ => Nesting.step_flat
  -- `start_key` sets the output, whatever it was
  have hout : stream_parts E { s with dec.out := some .data_out } = stream_parts E s :=
    Proc.bind_congr_run (Proc.bind_congr_run (start_key_run s) _) _
  obtain ⟨-, hparts⟩ := Parts.stream_parts _ e t _ rfl (hout.trans h)
  rw [List.foldlM_cons, hstep _ _ (by rw [hstart]; rfl), Option.bind_eq_bind, Option.bind_some,
    List.foldlM_append, Option.bind_eq_bind, Option.bind_eq_some_iff] at hparts
  obtain ⟨g, hg, hend⟩ := hparts
  rw [List.foldlM_cons, hstep _ _ (by rw [hlast]; rfl)] at hend
  obtain rfl : g = [] := Option.some.inj hend
  rwa [Nesting.Balanced, List.foldlM_map]

/-- A stream that is taken for decoded is balanced if and only if its parts were not left early with that code. -/
theorem decode_stream_balanced_iff {s t : St} {o : List Event} (h : decode_stream E s = ⟨.ok (), t, o⟩) :
    BalancedTrace (o.map Event.call) ↔ (stream_parts E s).res ≠ .error .RDB_OK := by
  have hframed := (stream_parts_framed (E := E) (C := Callback.of_value) fun _ h => h).run s
  rcases decode_stream_cases h with hparts | ⟨e, hparts, -⟩
  · rw [hparts] at hframed ⊢
    refine iff_of_false ?_ fun hne => hne rfl
    rcases hframed with ⟨e, hrun⟩ | ⟨o', t', ho, ⟨_, start, hrun, -⟩ | ⟨_, _, _, hrun, -, -⟩⟩
    · obtain ⟨-, -, rfl⟩ := Run.mk.inj hrun
      rintro ⟨_, _, _, _, heq, -⟩
      cases heq
    · obtain ⟨-, -, rfl⟩ := Run.mk.inj hrun
      exact not_balancedTrace ho
    · cases hrun
  · rw [hparts] at hframed ⊢
    have hne : (Except.ok e : Except RdbErrCode RdbStreamEntry) ≠ .error .RDB_OK := by rintro ⟨⟩
    refine iff_of_true ?_ hne
    rcases hframed with ⟨_, hrun⟩ | ⟨o', t', ho, ⟨_, _, hrun, -⟩ | ⟨_, start, last, hrun, hstart, hlast⟩⟩
    · cases hrun
    · cases hrun
    · obtain ⟨-, -, rfl⟩ := Run.mk.inj hrun
      exact balancedTrace_framed hstart hlast ho (stream_parts_balanced hparts hstart hlast)

/-- A decoder of a stream of so many nodes, at the given bytes. -/
def St.stream (nodes : Nat) (bytes : List UInt8) : St :=
  ⟨{ type := .RDB_STREAM_LISTPACK, rlen := { len := nodes } },
    RdbBufptr.init ⟨.input, Mem.ofList bytes 0, 0⟩ bytes.length⟩

/-- A node with one entry, and behind it a group with a pending entry, which one of its two consumers has. -/
def St.consumed : St := St.stream 1 <|
  16 :: List.replicate 15 0 ++ [1] ++
  29 :: [29, 0, 0, 0, 10, 0, 1, 1, 0, 1, 1, 1, 0x81, 0x66, 2, 0, 1, 2, 1, 0, 1, 0, 1, 0x81, 0x76, 2, 4, 1, 0xff] ++
  [1, 0, 1, 1] ++ [1, 0x67, 0, 1, 1] ++ List.replicate 15 0 ++ [1] ++ List.replicate 8 0 ++ [1] ++
  2 :: [1, 0x63] ++ List.replicate 8 0 ++ 1 :: List.replicate 15 0 ++ [1] ++
  [1, 0x64] ++ List.replicate 8 0 ++ [0]

theorem decode_body_stream {s : St} (htype : s.dec.type = .RDB_STREAM_LISTPACK) :
    decode_body E s = decode_stream E s := by
  rw [decode_body, Proc.read_bind_run, htype, decode_type]

end rdbparser
