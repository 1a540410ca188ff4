import Rdbparser.Decode.Record
import Rdbparser.ZipList.Walk

/-! The elements of a list that is walked as they are handed out. -/

namespace rdbparser

open RdbDecode DecodeProc

theorem DecodeProc.call_run {s : St} {d : Dest} (hout : s.dec.out = some d) (c : Callback) :
    call c s = ⟨.ok (), s, [⟨d, c, s.bptr.offset⟩]⟩ := by
  rw [call, Proc.emit_run, hout]

theorem DecodeProc.incr_run {n : Nat} {s : St} (h : n ≤ s.bptr.avail) :
    ∃ b, incr n s = ⟨.ok s.bptr.buf.ptr, { s with bptr := b }, []⟩ := by
  refine ⟨{ s.bptr with buf := s.bptr.buf.add n, avail := s.bptr.avail - n, offset := s.bptr.offset + n }, ?_⟩
  unfold incr
  rw [RdbBufptr.incr_some h]

variable {w : Walk RdbListValue ListPackElem} {stop : Nat → Prop} {base : Ptr} {lval : RdbListValue}

section loops

variable {s : St} {d : Dest} (hout : s.dec.out = some d) {next : RdbListValue → Bool × RdbListValue} {t : RdbListValue}

include hout

theorem list_loop_last (hnext : (next lval).1 = false) (cnt fuel num : Nat) :
    list_loop next base cnt (fuel + 1) num lval s =
      ⟨.ok num, s, [⟨d, .d_list num cnt (decode_lval base lval).val, s.bptr.offset⟩]⟩ := by
  rw [list_loop]
  simp only [hnext, Bool.false_eq_true, if_false]
  exact Proc.bind_ok (call_run hout _) (Proc.pure_run num s)

/-- A turn of the loop that finds an entry sends it and goes on behind it. -/
theorem list_loop_more (hnext : next lval = (true, t)) (cnt fuel num : Nat) :
    list_loop next base cnt (fuel + 1) num lval s =
      ⟨(list_loop next base cnt fuel (num + 1) t s).res, (list_loop next base cnt fuel (num + 1) t s).st,
        ⟨d, .d_list num cnt (decode_lval base lval).val, s.bptr.offset⟩ ::
          (list_loop next base cnt fuel (num + 1) t s).out⟩ := by
  rw [list_loop]
  simp only [hnext, if_true]
  exact Proc.bind_ok (call_run hout _) rfl

end loops

/-- From the element that is found on, each one is handed out with its number; the loop ends with that of the last. -/
theorem list_loop_run (hval : ∀ lval, (decode_lval base lval).val = (w.found lval).val) (cnt : Nat)
    {vs : List ListPackElem} (h : w.Finds stop lval vs) {fuel : Nat} (hfuel : vs.length < fuel)
    (num : Nat) {s : St} {d : Dest}
    (hout : s.dec.out = some d) :
    ∃ o, list_loop w.next base cnt fuel num lval s = ⟨.ok (num + vs.length), s, o⟩ ∧
      o.map Event.sent = ((w.found lval :: vs).mapIdx fun i x => (d, .d_list (num + i) cnt x.val)) := by
  induction vs generalizing lval fuel num with
  | nil =>
    obtain ⟨k, rfl⟩ : ∃ k, fuel = k + 1 := ⟨fuel - 1, by omega⟩
    refine ⟨_, list_loop_last hout h.nil cnt k num, ?_⟩
    rw [hval]
    rfl
  | cons v vs ih =>
    obtain ⟨k, rfl⟩ : ∃ k, fuel = k + 1 := ⟨fuel - 1, by omega⟩
    obtain ⟨t, hnext, rfl, hrest⟩ := h.cons
    obtain ⟨o, hrun, ho⟩ := ih hrest (Nat.lt_of_succ_lt_succ hfuel) (num + 1)
    refine ⟨_, by rw [list_loop_more hout hnext, hrun, List.length_cons, Nat.add_right_comm num 1, Nat.add_assoc], ?_⟩
    rw [List.map_cons, ho, List.mapIdx_cons (l := w.found t :: vs), hval]
    simp only [Nat.add_assoc, Nat.add_comm 1]
    rfl

/-- The elements are handed out in pairs, each with its number. -/
theorem pair_loop_run (hval : ∀ lval, (decode_lval base lval).val = (w.found lval).val)
    (d_pair : Nat → RdbVal → RdbVal → Callback) {v : ListPackElem} {ps : List (ListPackElem × ListPackElem)}
    (h : w.Finds stop lval (v :: ps.flatMap fun p => [p.1, p.2])) {fuel : Nat}
    (hfuel : ps.length < fuel) (num : Nat) {s : St}
    {d : Dest} (hout : s.dec.out = some d) :
    ∃ o, pair_loop w.next base d_pair fuel num lval s = ⟨.ok (), s, o⟩ ∧
      o.map Event.sent = (((w.found lval, v) :: ps).mapIdx fun i p => (d, d_pair (num + i) p.1.val p.2.val)) := by
  induction ps generalizing lval v fuel num with
  | nil =>
    obtain ⟨k, rfl⟩ : ∃ k, fuel = k + 1 := ⟨fuel - 1, by omega⟩
    obtain ⟨t, hnext, rfl, hrest⟩ := h.cons
    refine ⟨[⟨d, d_pair num (decode_lval base lval).val (decode_lval base t).val, s.bptr.offset⟩], ?_, ?_⟩
    · rw [pair_loop]
      simp only [hnext, if_true, hrest.nil, Bool.false_eq_true, if_false]
      exact Proc.bind_ok (call_run hout _) (Proc.pure_run () s)
    · rw [hval, hval]
      rfl
  | cons p ps ih =>
    obtain ⟨k, rfl⟩ : ∃ k, fuel = k + 1 := ⟨fuel - 1, by omega⟩
    obtain ⟨t, hnext, rfl, hrest⟩ := h.cons
    obtain ⟨u, hnext', hfound, hrest'⟩ := hrest.cons
    obtain ⟨o, hrun, ho⟩ := ih hrest' (Nat.lt_of_succ_lt_succ hfuel) (num + 1)
    refine ⟨⟨d, d_pair num (decode_lval base lval).val (decode_lval base t).val, s.bptr.offset⟩ :: o, ?_, ?_⟩
    · rw [pair_loop]
      simp only [hnext, if_true, hnext']
      exact Proc.bind_ok (call_run hout _) hrun
    · rw [List.map_cons, ho, List.mapIdx_cons (l := p :: ps), hval, hval, hfound]
      simp only [Nat.add_assoc, Nat.add_comm 1]
      rfl

theorem map_mapIdx {α β γ : Type} (f : Nat → α → β) (g : β → γ) (as : List α) :
    (as.mapIdx f).map g = as.mapIdx fun i a => g (f i a) := by
  apply List.ext_getElem?
  intro i
  simp only [List.getElem?_map, List.getElem?_mapIdx, Option.map_map, Function.comp_def]

theorem mapIdx_map {α β γ : Type} (f : Nat → β → γ) (g : α → β) (as : List α) :
    (as.map g).mapIdx f = as.mapIdx fun i a => f i (g a) := by
  apply List.ext_getElem?
  intro i
  simp only [List.getElem?_map, List.getElem?_mapIdx, Option.map_map, Function.comp_def]

/-- The callbacks of a key go out between its start and its end, to the output the verdict selects. -/
def HandsOut (x : DecodeProc Unit) (s : St) (calls : List Callback) : Prop :=
  ∃ t o, x s = ⟨.ok (), t, o⟩ ∧ o.map Event.sent = (s.dec.dest, .d_start_key s.dec.type s.dec.key.val) ::
    (calls.map (s.dec.dest, ·) ++ [(s.dec.dest, .d_end_key s.dec.type)])

section ziplist

variable {z : RdbZipList} {s : St}

/-- What `decode_ziplist` does with the list. -/
def ziplist_elems (z : RdbZipList) (b : Ptr) : RdbType → DecodeProc Unit
  | .RDB_ZSET_ZIPLIST => pair_loop z.next b (.d_zset · (z.zllen / 2)) z.zlbytes 0 z.first.2
  | .RDB_LIST_ZIPLIST => do
    let _ ← list_loop z.next b z.zllen z.zlbytes 0 z.first.2
  | _ => pair_loop z.next b (.d_hash · (z.zllen / 2)) z.zlbytes 0 z.first.2

/-- The decoder of ziplists as the key, the elements between, and the end of the key. -/
theorem decode_ziplist_eq : decode_ziplist =
    (start_key >>= fun _ => Proc.read >>= fun s => incr s.dec.rlen.len >>= fun b =>
    match RdbZipList.init b s.dec.rlen.len with
    | none => Proc.ret .RDB_ERR_TRUNC
    | some zip => (if zip.first.1 = true then ziplist_elems zip b s.dec.type else pure ()) >>= fun _ => end_key) := by
  unfold decode_ziplist
  refine congrArg (start_key >>= ·) (funext fun _ => congrArg (Proc.read >>= ·) (funext fun s =>
    congrArg (incr s.dec.rlen.len >>= ·) (funext fun b => ?_)))
  cases RdbZipList.init b s.dec.rlen.len with
  | none => rfl
  | some zip =>
    dsimp only
    by_cases hfound : zip.first.1 = true
    · rw [if_pos hfound, if_pos hfound, ziplist_elems.eq_def]
      cases s.dec.type <;> first | rfl | rw [Proc.bind_assoc]; rfl
    · rw [if_neg hfound, if_neg hfound, Proc.pure_bind]

/-- A ziplist that is there and has a header hands out what its elements do, and nothing if there is no first one. -/
theorem decode_ziplist_run (havail : s.dec.rlen.len ≤ s.bptr.avail)
    (hinit : RdbZipList.init s.bptr.buf.ptr s.dec.rlen.len = some z) {calls : List Callback}
    (hfirst : z.first.1 = false → calls = [])
    (helems : z.first.1 = true → ∀ t : St, t.dec.out = some s.dec.dest →
      ∃ o, ziplist_elems z s.bptr.buf.ptr s.dec.type t = ⟨.ok (), t, o⟩ ∧
        o.map Event.sent = calls.map (s.dec.dest, ·)) :
    HandsOut decode_ziplist s calls := by
  obtain ⟨b, hincr⟩ := incr_run (s := { s with dec.out := some s.dec.dest }) havail
  generalize ht : ({ s with dec.out := some s.dec.dest, bptr := b } : St) = t at hincr
  have hout : t.dec.out = some s.dec.dest := by rw [← ht]
  have htype : t.dec.type = s.dec.type := by rw [← ht]
  obtain ⟨o, hrun, ho⟩ : ∃ o, (if z.first.1 = true then ziplist_elems z s.bptr.buf.ptr s.dec.type else pure ()) t =
      ⟨.ok (), t, o⟩ ∧ o.map Event.sent = calls.map (s.dec.dest, ·) := by
    by_cases hfound : z.first.1 = true
    · rw [if_pos hfound]
      exact helems hfound t hout
    · rw [if_neg hfound, hfirst (Bool.eq_false_iff.mpr hfound)]
      exact ⟨[], rfl, rfl⟩
  refine ⟨t, [⟨s.dec.dest, .d_start_key s.dec.type s.dec.key.val, s.bptr.offset⟩] ++
    (o ++ [⟨s.dec.dest, .d_end_key t.dec.type, t.bptr.offset⟩]), ?_, ?_⟩
  · rw [decode_ziplist_eq]
    refine Proc.bind_ok (start_key_run s) ?_
    rw [Proc.read_bind_run, Proc.bind_quiet hincr]
    dsimp only
    rw [hinit]
    exact Proc.bind_ok hrun (end_key_run hout)
  · rw [List.map_append, List.map_append, ho, htype]
    rfl

variable (havail : s.dec.rlen.len ≤ s.bptr.avail) (hinit : RdbZipList.init s.bptr.buf.ptr s.dec.rlen.len = some z)
  (hbase : z.base = s.bptr.buf.ptr) {stop : Nat → Prop}

include havail hinit hbase

/-- A list: one callback for each entry that is found in it, with the number that the header says there are. -/
theorem decode_ziplist_list {vs : List ListPackElem} (h : z.walk.Finds stop z.start vs) (hfuel : vs.length ≤ z.zlbytes)
    (htype : s.dec.type = .RDB_LIST_ZIPLIST) :
    HandsOut decode_ziplist s (vs.mapIdx fun i x => .d_list i z.zllen x.val) := by
  have hval : ∀ lval, (decode_lval s.bptr.buf.ptr lval).val = (z.walk.found lval).val := fun lval => by
    rw [← hbase]
    exact z.decode_lval_elem lval
  cases vs with
  | nil =>
    have hnone : z.first.1 = false := h.nil
    exact decode_ziplist_run havail hinit (fun _ => rfl) fun hfound =>
      absurd (hnone.symm.trans hfound) Bool.false_ne_true
  | cons v vs =>
    obtain ⟨t, hnext, rfl, hrest⟩ := h.cons
    have hfirst : z.first = (true, t) := hnext
    refine decode_ziplist_run havail hinit (fun hnone => ?_) fun _ u hout => ?_
    · rw [hfirst] at hnone
      exact nomatch hnone
    · obtain ⟨o, hrun, ho⟩ := list_loop_run hval z.zllen hrest hfuel 0 hout
      refine ⟨o ++ [], ?_, ?_⟩
      · rw [htype, ziplist_elems, hfirst]
        exact Proc.bind_ok hrun (Proc.pure_run () u)
      · rw [List.append_nil, ho, map_mapIdx]
        simp only [Nat.zero_add]

/-- A hash or a sorted set: one callback for each two entries that are found in it. -/
theorem decode_ziplist_pairs {ps : List (ListPackElem × ListPackElem)} {d_pair : Nat → RdbVal → RdbVal → Callback}
    (h : z.walk.Finds stop z.start (ps.flatMap fun p => [p.1, p.2])) (hfuel : ps.length ≤ z.zlbytes)
    (htype : ziplist_elems z s.bptr.buf.ptr s.dec.type = pair_loop z.next s.bptr.buf.ptr d_pair z.zlbytes 0 z.first.2) :
    HandsOut decode_ziplist s (ps.mapIdx fun i p => d_pair i p.1.val p.2.val) := by
  have hval : ∀ lval, (decode_lval s.bptr.buf.ptr lval).val = (z.walk.found lval).val := fun lval => by
    rw [← hbase]
    exact z.decode_lval_elem lval
  cases ps with
  | nil =>
    have hnone : z.first.1 = false := h.nil
    exact decode_ziplist_run havail hinit (fun _ => rfl) fun hfound =>
      absurd (hnone.symm.trans hfound) Bool.false_ne_true
  | cons p ps =>
    rw [List.flatMap_cons] at h
    obtain ⟨t, hnext, hfound, hrest⟩ := h.cons
    have hfirst : z.first = (true, t) := hnext
    refine decode_ziplist_run havail hinit (fun hnone => ?_) fun _ u hout => ?_
    · rw [hfirst] at hnone
      exact nomatch hnone
    · obtain ⟨o, hrun, ho⟩ := pair_loop_run hval d_pair hrest hfuel 0 hout
      refine ⟨o, ?_, ?_⟩
      · rw [htype, hfirst]
        exact hrun
      · rw [ho, hfound, map_mapIdx]
        simp only [Nat.zero_add]

end ziplist

end rdbparser
