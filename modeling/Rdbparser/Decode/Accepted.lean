import Rdbparser.Decode.Cut
import Rdbparser.Decode.Lists
import Rdbparser.Proc.Values
import Rdbparser.Stream.Repacked

/-! Which lists are accepted by the decoders that are given them. -/

namespace Walk

variable {σ ε : Type}

/-- A walk comes to where it is to stop, past as many values as are counted, in pairs if they are handed out so. -/
def Whole (w : Walk σ ε) (stop : Nat → Prop) (s : σ) (cnt : Nat) (pairs : Bool) : Prop :=
  ∃ vs, w.Finds stop s vs ∧ (cnt < 0xffff → vs.length = cnt) ∧ (pairs = true → 2 ∣ vs.length)

end Walk

namespace rdbparser

/-- A walk over the list comes to the terminator. -/
def RdbZipList.Whole (z : RdbZipList) (pairs : Bool) : Prop :=
  z.walk.Whole (fun i => i < z.end_ ∧ z.base.mem i = 0xff) z.start z.zllen pairs

def RdbListPack.Whole (l : RdbListPack) (pairs : Bool) : Prop :=
  l.walk.Whole (fun i => i < l.end_ ∧ l.base.mem i = 0xff) l.start l.lplen pairs

namespace RdbDecode

open DecodeProc

/-- The ziplist of a node of a quicklist. -/
def ziplist_blob (E : Env) : DecodeProc (Ptr × Nat) := do
  let llen ← decode {}
  let b ← consume E llen
  pure (b, llen.len)

/-- The listpack of a packed container. -/
def container_blob (E : Env) : DecodeProc (Ptr × Nat) := do
  let container ← decode {}
  let llen ← decode {}
  let b ← consume E llen
  if container.len = 2 then pure (b, llen.len) else Proc.ret .RDB_ERR_NOTSUP

/-- The entry that is left behind `n` entries of a listpack, and the element the walk is at then. -/
def entries_end (list : RdbListPack) : Nat → RdbStreamEntry → RdbListValue → Option (RdbStreamEntry × RdbListValue)
  | 0, e, lval => some (e, lval)
  | n + 1, e, lval =>
    match e.read_entry list lval with
    | some (true, e, lval) =>
      if e.flags &&& RDB_STREAM_ENTRY_DELETED ≠ 0 then entries_end list n e lval
      else if (e.pairs list.base).isSome then entries_end list n { e with num := e.num + 1 } lval
      else none
    | _ => none

/-- The entry that is left behind a node. -/
def block_end (e : RdbStreamEntry) (x : RdbStreamRecId × Ptr × Nat) : Option RdbStreamEntry :=
  match RdbListPack.init x.2.1 x.2.2 with
  | none => some { e with id := x.1 }
  | some list =>
    match RdbStreamEntry.read_header { e with id := x.1 } list with
    | some (true, e, lval) => (entries_end list e.items_count e lval).map Prod.fst
    | _ => none

/-- Every listpack is accepted, and its entries end where its terminator is. -/
def BlocksWhole : RdbStreamEntry → List (RdbStreamRecId × Ptr × Nat) → Prop
  | _, [] => True
  | e, x :: xs => ∃ list e₁ lval e₂ last, RdbListPack.init x.2.1 x.2.2 = some list ∧
    RdbStreamEntry.read_header { e with id := x.1 } list = some (true, e₁, lval) ∧
    entries_end list e₁.items_count e₁ lval = some (e₂, last) ∧
    list.walk.pos last < list.end_ ∧ list.base.mem (list.walk.pos last) = 0xff ∧ BlocksWhole e₂ xs

/-- The nodes of a key are read from the buffer, one behind the other. -/
def Nodes {α : Type} (x : DecodeProc α) (s : St) (xs : List α) : Prop :=
  xs.length = s.dec.rlen.len ∧ x.Returns (start_key s).st xs

/-! A decoder ends without an error only if the lists it was given are whole. -/

def ZiplistChecked (s : St) : Prop :=
  (decode_ziplist s).res = .ok () →
    ∃ z, RdbZipList.init s.bptr.buf.ptr s.dec.rlen.len = some z ∧ z.Whole (s.dec.type ≠ .RDB_LIST_ZIPLIST)

def ListpackChecked (s : St) : Prop :=
  (decode_listpack s).res = .ok () → ∃ l, RdbListPack.init s.bptr.buf.ptr s.dec.rlen.len = some l ∧ l.Whole true

def QuicklistChecked (E : Env) (s : St) : Prop :=
  (decode_quicklist E s).res = .ok () →
    ∃ xs, Nodes (ziplist_blob E) s xs ∧ ∀ x ∈ xs, ∃ z, RdbZipList.init x.1 x.2 = some z ∧ z.Whole false

def Quicklist2Checked (E : Env) (s : St) : Prop :=
  (decode_quicklist_2 E s).res = .ok () →
    ∃ xs, Nodes (container_blob E) s xs ∧ ∀ x ∈ xs, ∃ l, RdbListPack.init x.1 x.2 = some l ∧ l.Whole false

def StreamChecked (E : Env) (s : St) : Prop :=
  (∃ e, (stream_nodes E s).res = .ok e) → ∃ xs, Nodes (stream_lp E) s xs ∧ BlocksWhole {} xs

theorem Nodes.unique {α : Type} {x : DecodeProc α} {s : St} {xs ys : List α} (h : Nodes x s xs)
    (h' : Nodes x s ys) : xs = ys :=
  h.2.unique h'.2 (h.1.trans h'.1.symm)

/-- Handing out pairs does not fail. -/
theorem pair_loop_still (next : RdbListValue → Bool × RdbListValue) (base : Ptr)
    (d_pair : Nat → RdbVal → RdbVal → Callback)
    (fuel num : Nat) (lval : RdbListValue) (s : St) : ∃ o,
      pair_loop next base d_pair fuel num lval s = ⟨.ok (), s, o⟩ := by
  induction fuel generalizing num lval with
  | zero => exact ⟨[], rfl⟩
  | succ fuel ih =>
    unfold pair_loop
    dsimp only
    split
    · obtain ⟨o, hcall⟩ : ∃ o, call (d_pair num (decode_lval base lval).val (decode_lval base (next lval).2).val) s =
          ⟨.ok (), s, o⟩ := ⟨_, Proc.emit_run _ s⟩
      split
      · obtain ⟨o', hrest⟩ := ih (num + 1) (next (next lval).2).2
        exact ⟨o ++ o', Proc.bind_ok hcall hrest⟩
      · exact ⟨o ++ [], Proc.bind_ok hcall rfl⟩
    · exact ⟨[], rfl⟩

/-- A decoder of a list that is the whole value reads it first. -/
theorem blob_ok_iff {x : DecodeProc Unit} {g : Ptr → St → DecodeProc Unit} {s : St} {good : Prop}
    (hx : x = (start_key >>= fun _ => Proc.read >>= fun s => incr s.dec.rlen.len >>= fun b => g b s))
    (hg : ∀ t, (g s.bptr.buf.ptr { s with dec.out := some s.dec.dest } t).res = .ok () ↔ good) :
    (x s).res = .ok () ↔ s.dec.rlen.len ≤ s.bptr.avail ∧ good := by
  rw [hx, Proc.bind_res (start_key_run s), Proc.read_bind_run]
  dsimp only
  by_cases havail : s.dec.rlen.len ≤ s.bptr.avail
  · obtain ⟨b, hincr⟩ := incr_run (s := { s with dec.out := some s.dec.dest }) havail
    rw [Proc.bind_quiet hincr, hg, and_iff_right havail]
  · refine iff_of_false (fun h => ?_) fun h => havail h.1
    obtain ⟨b, t, o, hincr, -⟩ := Proc.bind_ok_iff.mp h
    rw [incr, RdbBufptr.incr_none (Nat.lt_of_not_le havail)] at hincr
    cases congrArg Run.res hincr

/-- A ziplist is accepted if its header is and its bytes are there. Its entries and its count are not asked for. -/
theorem decode_ziplist_ok_iff {s : St} : (decode_ziplist s).res = .ok () ↔
    ∃ z, RdbZipList.init s.bptr.buf.ptr s.dec.rlen.len = some z ∧ s.dec.rlen.len ≤ s.bptr.avail := by
  have helems : ∀ (z : RdbZipList) b type t, ∃ o, ziplist_elems z b type t = ⟨.ok (), t, o⟩ := by
    intro z b type t
    unfold ziplist_elems
    split
    · exact pair_loop_still _ _ _ _ _ _ t
    · obtain ⟨n, h⟩ := list_loop_still z.next b z.zllen z.zlbytes 0 z.first.2
      obtain ⟨o, hrun⟩ := h t
      exact ⟨o ++ [], Proc.bind_ok hrun rfl⟩
    · exact pair_loop_still _ _ _ _ _ _ t
  rw [exists_and_right, and_comm]
  refine blob_ok_iff decode_ziplist_eq fun t => ?_
  dsimp only
  cases RdbZipList.init s.bptr.buf.ptr s.dec.rlen.len with
  | none => exact iff_of_false (fun h => nomatch h) (fun h => nomatch h)
  | some z =>
    refine iff_of_true ?_ ⟨z, rfl⟩
    dsimp only
    by_cases hfound : z.first.1 = true
    · obtain ⟨o, hrun⟩ := helems z s.bptr.buf.ptr s.dec.type t
      rw [if_pos hfound, Proc.bind_res hrun]
      rfl
    · rw [if_neg hfound]
      rfl

/-- A listpack is accepted if its header is, its bytes are there, and the type is one of the two that it is for.
Neither its elements nor its count are asked for. -/
theorem decode_listpack_ok_iff {s : St} : (decode_listpack s).res = .ok () ↔
    ∃ l, RdbListPack.init s.bptr.buf.ptr s.dec.rlen.len = some l ∧ s.dec.rlen.len ≤ s.bptr.avail ∧
      (s.dec.type = .RDB_HASH_LISTPACK ∨ s.dec.type = .RDB_ZSET_LISTPACK) := by
  rw [exists_and_right, and_left_comm]
  refine blob_ok_iff rfl fun t => ?_
  dsimp only
  cases RdbListPack.init s.bptr.buf.ptr s.dec.rlen.len with
  | none => exact iff_of_false (fun h => nomatch h) (fun h => nomatch h.1)
  | some l =>
    have hpairs : ∀ d_pair, ((pair_loop l.next s.bptr.buf.ptr d_pair l.lpbytes 0 l.first.2 >>=
        fun _ => end_key) t).res = .ok () := by
      intro d_pair
      obtain ⟨o, hrun⟩ := pair_loop_still l.next s.bptr.buf.ptr d_pair l.lpbytes 0 l.first.2 t
      rw [Proc.bind_res hrun]
      rfl
    generalize s.dec.type = type
    by_cases hfound : l.first.1 = true
    · simp only [if_pos hfound]
      cases type with
      | RDB_HASH_LISTPACK => exact iff_of_true (hpairs _) ⟨⟨l, rfl⟩, .inl rfl⟩
      | RDB_ZSET_LISTPACK => exact iff_of_true (hpairs _) ⟨⟨l, rfl⟩, .inr rfl⟩
      | _ => exact iff_of_false (fun h => nomatch h) fun h => h.2.elim (fun h => nomatch h) fun h => nomatch h
    · simp only [if_neg hfound]
      cases type with
      | RDB_HASH_LISTPACK => exact iff_of_true rfl ⟨⟨l, rfl⟩, .inl rfl⟩
      | RDB_ZSET_LISTPACK => exact iff_of_true rfl ⟨⟨l, rfl⟩, .inr rfl⟩
      | _ => exact iff_of_false (fun h => nomatch h) fun h => h.2.elim (fun h => nomatch h) fun h => nomatch h

section nodes

variable {E : Env} {s : St}

/-- The loop of a quicklist succeeds with every node that is there and is accepted. -/
theorem nodes_ok_iff {x : DecodeProc (Ptr × Nat)} {f : Nat → DecodeProc Nat} {g : Nat → Ptr × Nat → DecodeProc Nat}
    {good : Ptr × Nat → Prop} (hf : ∀ num, f num = x >>= g num)
    (hg : ∀ num a, ∃ v : Option Nat, (v.isSome ↔ good a) ∧ ∀ s, ∃ res o, g num a s = ⟨res, s, o⟩ ∧ res.toOption = v)
    {y : DecodeProc Unit}
    (hy : y = (start_key >>= fun _ => Proc.read >>= fun s => Proc.times s.dec.rlen.len f 0 >>= fun _ => end_key)) :
    (y s).res = .ok () ↔ ∃ xs, Nodes x s xs ∧ ∀ a ∈ xs, good a := by
  choose r hr hrun using hg
  have hloop := Proc.times_ok_iff (P :=
    fun _ => True) (g := g) (r := r) hf (fun _ _ _ _ _ => Iff.rfl) (fun _ _ _ _ _ _ =>
      trivial) (fun b a s _ => hrun b a s)
    s.dec.rlen.len 0 (s := { s with dec.out := some s.dec.dest }) trivial
  have hend : (y s).res = .ok () ↔
      ∃ c, (Proc.times s.dec.rlen.len f 0 { s with dec.out := some s.dec.dest }).res = .ok c := by
    rw [hy, Proc.bind_res (start_key_run s), Proc.read_bind_run, Proc.bind_ok_iff]
    constructor
    · rintro ⟨c, t, o, hc, -⟩
      exact ⟨c, congrArg Run.res hc⟩
    · rintro ⟨c, hc⟩
      generalize Proc.times s.dec.rlen.len f 0 { s with dec.out := some s.dec.dest } = run at hc
      obtain ⟨res, t, o⟩ := run
      obtain rfl : res = .ok c := hc
      exact ⟨c, t, o, rfl, rfl⟩
  rw [hend, hloop]
  simp only [Proc.foldlM_isSome_iff hr, ← and_assoc]
  rfl

/-- Handing out the elements of a node does not fail. -/
theorem elems_still (next : RdbListValue → Bool × RdbListValue) (base : Ptr) (fuel num : Nat)
    (first : Bool × RdbListValue) :
    ∃ n, ∀ s, ∃ o, (if first.1 = true then list_loop next base 0 fuel num first.2 else pure num : DecodeProc Nat) s =
      ⟨.ok n, s, o⟩ := by
  by_cases hfound : first.1 = true
  · rw [if_pos hfound]
    exact list_loop_still next base 0 fuel num first.2
  · rw [if_neg hfound]
    exact ⟨num, fun s => ⟨[], rfl⟩⟩

/-- A quicklist is accepted if each of its nodes can be read and the header of each is one of a ziplist. -/
theorem decode_quicklist_ok_iff : (decode_quicklist E s).res = .ok () ↔
    ∃ xs, Nodes (ziplist_blob E) s xs ∧ ∀ x ∈ xs, ∃ z, RdbZipList.init x.1 x.2 = some z := by
  refine nodes_ok_iff (g := fun num x => (RdbZipList.init x.1 x.2).elim (Proc.ret .RDB_ERR_TRUNC) fun zip =>
      if zip.first.1 = true then list_loop zip.next x.1 0 zip.zlbytes num zip.first.2 else pure num)
    (fun num => ?_) (fun num x => ?_) rfl
  · simp only [ziplist_blob, Proc.bind_assoc, Proc.pure_bind]
    refine congrArg (decode {} >>= ·) (funext fun llen => congrArg (consume E llen >>= ·) (funext fun b => ?_))
    cases RdbZipList.init b llen.len <;> rfl
  · cases RdbZipList.init x.1 x.2 with
    | none => exact ⟨none, iff_of_false Bool.false_ne_true (by simp), fun s => ⟨.error .RDB_ERR_TRUNC, [], rfl, rfl⟩⟩
    | some zip =>
      obtain ⟨n, hrun⟩ := elems_still zip.next x.1 zip.zlbytes num zip.first
      refine ⟨some n, iff_of_true rfl ⟨zip, rfl⟩, fun s => ?_⟩
      obtain ⟨o, ho⟩ := hrun s
      exact ⟨.ok n, o, ho, rfl⟩

/-- The same with listpacks: a node in another container than a packed one cannot be read. -/
theorem decode_quicklist_2_ok_iff : (decode_quicklist_2 E s).res = .ok () ↔
    ∃ xs, Nodes (container_blob E) s xs ∧ ∀ x ∈ xs, ∃ l, RdbListPack.init x.1 x.2 = some l := by
  refine nodes_ok_iff (g := fun num x => (RdbListPack.init x.1 x.2).elim (Proc.ret .RDB_ERR_TRUNC) fun lp =>
      if lp.first.1 = true then list_loop lp.next x.1 0 lp.lpbytes num lp.first.2 else pure num)
    (fun num => ?_) (fun num x => ?_) rfl
  · have hret : ∀ g : Ptr × Nat → DecodeProc Nat, ((Proc.ret .RDB_ERR_NOTSUP : DecodeProc (Ptr × Nat)) >>= g) =
        Proc.ret .RDB_ERR_NOTSUP := fun g => rfl
    simp only [container_blob, Proc.bind_assoc, Proc.bind_ite, Proc.pure_bind, hret]
    refine congrArg (decode {} >>= ·) (funext fun container => congrArg (decode {} >>= ·) (funext fun llen =>
      congrArg (consume E llen >>= ·) (funext fun b => ?_)))
    cases RdbListPack.init b llen.len <;> rfl
  · cases RdbListPack.init x.1 x.2 with
    | none => exact ⟨none, iff_of_false Bool.false_ne_true (by simp), fun s => ⟨.error .RDB_ERR_TRUNC, [], rfl, rfl⟩⟩
    | some lp =>
      obtain ⟨n, hrun⟩ := elems_still lp.next x.1 lp.lpbytes num lp.first
      refine ⟨some n, iff_of_true rfl ⟨lp, rfl⟩, fun s => ?_⟩
      obtain ⟨o, ho⟩ := hrun s
      exact ⟨.ok n, o, ho, rfl⟩

/-- The entry is left behind that the entries are handed out with. -/
theorem last_entry_eq (list : RdbListPack) (n : Nat) (e : RdbStreamEntry) (lval : RdbListValue) :
    last_entry list n e lval = (entries_end list n e lval).map Prod.fst := by
  induction n generalizing e lval with
  | zero => rfl
  | succ n ih =>
    unfold last_entry entries_end
    rcases e.read_entry list lval with _ | ⟨_ | _, e', lval'⟩
    · rfl
    · rfl
    · dsimp only
      rw [ih, ih]
      split
      · rfl
      · split <;> rfl

/-- The entries of one node are handed out from the list alone: the decoder and its buffer stay as they are, and what
is left is the same whatever they are. -/
theorem stream_block_still (e : RdbStreamEntry) (x : RdbStreamRecId × Ptr × Nat) {s : St} {d : Dest}
    (hout : s.dec.out = some d) :
    ∃ res o, stream_block e x s = ⟨res, s, o⟩ ∧ res.toOption = block_end e x := by
  unfold stream_block block_end
  cases RdbListPack.init x.2.1 x.2.2 with
  | none => exact ⟨.ok { e with id := x.1 }, [], rfl, rfl⟩
  | some list =>
    dsimp only
    cases RdbStreamEntry.read_header { e with id := x.1 } list with
    | none => exact ⟨.error .undefined, [], rfl, rfl⟩
    | some r =>
      obtain ⟨b, e', lval⟩ := r
      cases b with
      | false => exact ⟨.error (e'.leave .RDB_ERR_HDR), [], rfl, rfl⟩
      | true =>
        obtain ⟨res, calls, hsteady, hres⟩ := stream_entries_steady list e'.items_count e' lval
        exact ⟨res, _, hsteady s d hout, hres.trans (last_entry_eq list e'.items_count e' lval)⟩

/-- The nodes of a stream are accepted if they can be read and the header and the entries of each can, one behind the
other. -/
theorem stream_nodes_ok_iff : (∃ e, (stream_nodes E s).res = .ok e) ↔
    ∃ xs, Nodes (stream_lp E) s xs ∧ (xs.foldlM block_end {}).isSome := by
  have hkept : ∀ t a u o, t.dec.out = some s.dec.dest → stream_lp E t = ⟨.ok a, u, o⟩ →
      u.dec.out = some s.dec.dest := by
    intro t a u o hout hrun
    have hsends : (stream_lp E).Follows (Sends fun _ => true) := Sends.steps.stream_lp
    have hdec := (hsends t).1
    rw [hrun] at hdec
    rw [show u.dec = t.dec from hdec]
    exact hout
  have hloop := Proc.times_ok_iff (P :=
    fun t : St => t.dec.out = some s.dec.dest) (f := stream_node E) (g := stream_block)
    (fun _ => rfl) (fun _ _ _ _ _ => Proc.recode_ok_iff) hkept
    (fun e x t hout => stream_block_still e x hout) s.dec.rlen.len {} (s := { s with dec.out := some s.dec.dest }) rfl
  rw [stream_nodes]
  simp only [Proc.bind_res (start_key_run s), Proc.read_bind_run]
  rw [hloop]
  simp only [← and_assoc]
  rfl

end nodes

/-- No decoder looks at how a list that is accepted ends, nor at how many elements it has: lists are checked if
and only if all those that can be read and are accepted are whole. -/
theorem lists_checked_iff (E : Env) (s : St) :
    (ZiplistChecked s ↔ ∀ z, RdbZipList.init s.bptr.buf.ptr s.dec.rlen.len = some z → s.dec.rlen.len ≤ s.bptr.avail →
      z.Whole (s.dec.type ≠ .RDB_LIST_ZIPLIST)) ∧
    (QuicklistChecked E s ↔ ∀ xs, Nodes (ziplist_blob E) s xs → (∀ x ∈ xs, ∃ z, RdbZipList.init x.1 x.2 = some z) →
      ∀ x ∈ xs, ∃ z, RdbZipList.init x.1 x.2 = some z ∧ z.Whole false) ∧
    (Quicklist2Checked E s ↔ ∀ xs, Nodes (container_blob E) s xs → (∀ x ∈ xs, ∃ l, RdbListPack.init x.1 x.2 = some l) →
      ∀ x ∈ xs, ∃ l, RdbListPack.init x.1 x.2 = some l ∧ l.Whole false) ∧
    (ListpackChecked s ↔ ∀ l, RdbListPack.init s.bptr.buf.ptr s.dec.rlen.len = some l → s.dec.rlen.len ≤ s.bptr.avail ∧
      (s.dec.type = .RDB_HASH_LISTPACK ∨ s.dec.type = .RDB_ZSET_LISTPACK) → l.Whole true) ∧
    (StreamChecked E s ↔ ∀ xs, Nodes (stream_lp E) s xs → (xs.foldlM block_end {}).isSome → BlocksWhole {} xs) := by
  have hsame : ∀ {α : Type} {o : Option α} (a b : α), o = some a → o = some b → a = b := fun a b ha hb =>
    Option.some.inj (ha.symm.trans hb)
  refine ⟨?_, ?_, ?_, ?_, ?_⟩
  · exact Proc.sound_iff hsame decode_ziplist_ok_iff
  · exact Proc.sound_iff (fun _ _ => Nodes.unique) decode_quicklist_ok_iff
  · exact Proc.sound_iff (fun _ _ => Nodes.unique) decode_quicklist_2_ok_iff
  · exact Proc.sound_iff hsame decode_listpack_ok_iff
  · exact Proc.sound_iff (fun _ _ => Nodes.unique) stream_nodes_ok_iff

/-- A list of one entry of five bytes, of which there is one. -/
def St.running_past : St :=
  ⟨{ type := .RDB_LIST_ZIPLIST, rlen := { len := 13 } },
    RdbBufptr.init ⟨.input, Mem.ofList [13, 0, 0, 0, 10, 0, 0, 0, 1, 0, 0, 5, 0xff] 0, 0⟩ 13⟩

/-- The entry is missed without an error. -/
theorem lists_unchecked : ¬ ∀ (E : Env) (s : St), ZiplistChecked s ∧ QuicklistChecked E s ∧ Quicklist2Checked E s ∧
    ListpackChecked s ∧ StreamChecked E s := by
  intro h
  have hinit : (RdbZipList.init St.running_past.bptr.buf.ptr 13).map
      (fun z => ((z.next z.start).1, z.base.mem (z.walk.pos z.start))) =
      some (false, 0) := by decide +kernel
  obtain ⟨z, hz, hnone⟩ := Option.map_eq_some_iff.mp hinit
  obtain ⟨hnone, hbyte⟩ := Prod.mk.inj hnone
  have hok : (decode_ziplist St.running_past).res = .ok () := decode_ziplist_ok_iff.mpr ⟨z, hz, Nat.le_refl 13⟩
  obtain ⟨z', hz', vs, hfinds, -⟩ := (h Env.literal St.running_past).1 hok
  obtain rfl := Option.some.inj (hz.symm.trans hz')
  obtain ⟨xs, -, hyields⟩ := hfinds
  cases hyields with
  | nil _ hstop => exact absurd (hbyte.symm.trans hstop.2) (by decide)
  | cons hnext => exact Bool.false_ne_true (hnone.symm.trans (congrArg Prod.fst hnext))

end RdbDecode

end rdbparser
