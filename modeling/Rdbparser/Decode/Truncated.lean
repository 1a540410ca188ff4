import Rdbparser.Decode.Cut
import Rdbparser.Decode.Trace

/-! What `decode_hdr` and `decode_body` make of a record that the end of the buffer cuts off. -/

namespace rdbparser

open format RdbDecode DecodeProc

variable {E : Env}

/-- Only a string that is neither compressed nor an integer has bytes behind its header. -/
theorem format.StoredStr.of_cut_plain (x : StoredStr E) {pre : List UInt8} (h : Cut pre x.plain) :
    x.plain = x.text ∧ RdbBufptr.Opened x = RdbBufptr.On := by
  cases x with
  | raw => exact ⟨rfl, rfl⟩
  | int | lzf => exact absurd h Cut.not_nil

namespace format.StoredValue

/-- `n` bytes of the value are enough for its decoder: for that of sets of integers, which takes the size of the
members in 32 bits. -/
def Wraps : StoredValue E → Nat → Prop
  | intset x, n => 8 + x.nbyte * x.nelem % 2 ^ 32 ≤ n
  | _, _ => False

theorem not_wraps_zero (v : StoredValue E) : ¬ v.Wraps 0 := by
  cases v with
  | intset x => exact fun h => by rw [Wraps] at h; omega
  | _ => exact id

end format.StoredValue

namespace RdbDecode

/-- Callbacks that do not depend on the buffer. -/
theorem count_still (f : Nat → Callback) (k n : Nat) (s : St) :
    ∃ o, Proc.count (fun num => call (f num)) k n s = ⟨.ok (), s, o⟩ := by
  induction n generalizing k with
  | zero => exact ⟨[], rfl⟩
  | succ n ih =>
    obtain ⟨o, hrun⟩ := ih (k + 1)
    exact ⟨_, Proc.bind_ok (Proc.emit_run _ s) hrun⟩

theorem incr_cut {α : Type} {n : Nat} (f : Ptr → DecodeProc α) {s : St} {c : Place} {pre : List UInt8}
    (hs : s.bptr.On c) (hv : c.Views pre) (hlt : pre.length < n) : Errs (incr n >>= f) s := by
  have havail : s.bptr.avail < n := by rw [hs.avail, hv.1]; exact hlt
  refine Errs.bind (.of_run (e := .RDB_ERR_TRUNC) (t := s) (o := []) ?_ (by decide)) f
  rw [incr, RdbBufptr.incr_none havail]

/-- A set of integers is decoded as soon as the members are there up to the size in 32 bits. -/
theorem decode_set_intset_cut (x : IntSet E) {s : St} {c : Place} {pre : List UInt8} (hs : s.bptr.On c)
    (hv : c.Views pre) (hpre : pre <+: x.blob.str.text) :
    (8 + x.nbyte * x.nelem % 2 ^ 32 ≤ pre.length → (decode_set_intset s).res = .ok ()) ∧
      (¬ 8 + x.nbyte * x.nelem % 2 ^ 32 ≤ pre.length → Errs decode_set_intset s) := by
  by_cases h8 : pre.length < 8
  · refine ⟨fun hle => absurd hle (by omega), fun _ => ?_⟩
    exact Errs.of_bind (start_key_run s) (incr_cut _ hs hv h8)
  · -- the head of the set is there
    obtain ⟨pre', rfl⟩ : le_bytes 4 x.nbyte ++ le_bytes 4 x.nelem <+: pre := by
      refine List.prefix_of_prefix_length_le ⟨x.members, ?_⟩ hpre ?_
      · rw [x.htext, List.append_assoc]
      · simp only [List.length_append, le_bytes_length]
        omega
    have hhead : (le_bytes 4 x.nbyte ++ le_bytes 4 x.nelem).length = 8 := by
      simp only [List.length_append, le_bytes_length]
    have hv' : (c.adv 8).Views pre' := by
      rw [← hhead]
      exact hv.adv
    obtain ⟨p, b, o, hrun, ⟨hon, hp⟩, -⟩ :=
      Reads.incr 8 hhead { s with dec.out := some s.dec.dest } c s.dec.dest pre' hs hv rfl
    rw [hhead] at hon
    obtain ⟨hp₁, hp₂⟩ := Mem.starts_append.mp hp
    rw [le_bytes_length] at hp₂
    have hnbyte : le_nat (p.mem.take 4) = x.nbyte := by
      have hget : p.mem.take 4 = le_bytes 4 x.nbyte := by simpa using hp₁.take
      have hlt : x.nbyte < 256 ^ 4 := by
        have := x.hnbyte
        omega
      rw [hget, le_nat_le_bytes, Nat.mod_eq_of_lt hlt]
    have hnelem : le_nat ((p.mem.add 4).take 4) = x.nelem := by
      have hget : (p.mem.add 4).take 4 = le_bytes 4 x.nelem := by simpa using hp₂.take
      rw [hget, le_nat_le_bytes, Nat.mod_eq_of_lt (show x.nelem < 256 ^ 4 from x.hnelem)]
    have hsize : ¬ (x.nbyte ≠ 1 ∧ x.nbyte ≠ 2 ∧ x.nbyte ≠ 4 ∧ x.nbyte ≠ 8) := by
      have := x.hnbyte
      omega
    rw [List.length_append, hhead]
    constructor
    · intro hle
      obtain ⟨b', hincr, -⟩ := hon.incr (n := x.nbyte * x.nelem % 2 ^ 32) (by rw [hv'.1]; omega)
      rw [decode_set_intset, Proc.bind_res (start_key_run s), Proc.bind_res hrun]
      simp only [hnbyte, hnelem, if_neg hsize]
      obtain ⟨o', hcount⟩ := count_still (fun num => .d_set num x.nelem (RdbString.empty.set_int
        (intset_val x.nbyte ((c.adv 8).buf.ptr.mem.add (x.nbyte * num)))).val) 0 x.nelem
        ⟨{ s.dec with out := some s.dec.dest }, b'⟩
      have hmembers : incr (x.nbyte * x.nelem % 2 ^ 32) ⟨{ s.dec with out := some s.dec.dest }, b⟩ =
          ⟨.ok (c.adv 8).buf.ptr, ⟨{ s.dec with out := some s.dec.dest }, b'⟩, []⟩ := by
        rw [incr, hincr]
      rw [Proc.bind_res hmembers, Proc.bind_res hcount, end_key_run rfl]
    · intro hlt
      refine Errs.of_bind (start_key_run s) (Errs.of_bind hrun ?_)
      simp only [hnbyte, hnelem, if_neg hsize]
      exact incr_cut _ hon hv' (by omega)

/-- Counted elements of a key, cut. -/
theorem decode_elems_cut {α : Type} {elem : Nat → Nat → DecodeProc Unit} {bytes : α → List UInt8} {xs : List α}
    (hshort : ∀ cnt num, ∀ x ∈ xs, Short RdbBufptr.At (elem cnt num) (bytes x))
    (hpass : ∀ cnt num, ∀ x ∈ xs, Passes RdbBufptr.At (elem cnt num) (bytes x) fun _ => RdbBufptr.At)
    {s : St} {c : Place} {pre : List UInt8} (hlen : s.dec.rlen.len = xs.length) (hs : s.bptr.On c) (hv : c.Views pre)
    (hcut : Cut pre (xs.flatMap bytes)) : Errs (decode_elems elem) s := by
  refine framed_cut (P := RdbBufptr.At) (f := fun t => Proc.count (elem t.dec.rlen.len) 0 t.dec.rlen.len) ?_ (.main hs)
    hv hcut
  simp only [hlen]
  exact .count (hshort xs.length) (hpass xs.length) 0

/-- A sorted set that is cut is refused, with scores of either form. -/
theorem decode_zset_cut {σ : Type} {type : RdbType} {bytes : σ → List UInt8} {val : σ → RdbVal}
    (hshort : ∀ x : σ, Short RdbBufptr.On (decode_score type) (bytes x))
    (hread : ∀ x : σ, Reads RdbBufptr.On (decode_score type) (bytes x) [] fun r b c => b.On c ∧ r.val = val x)
    (xs : List (StoredStr E × σ)) {s : St} {c : Place} {pre : List UInt8} (htype : s.dec.type = type)
    (hlen : s.dec.rlen.len = xs.length) (hs : s.bptr.On c) (hv : c.Views pre)
    (hcut : Cut pre (xs.flatMap fun x => x.1.bytes ++ bytes x.2)) : Errs (decode_zset E) s := by
  refine framed_cut (f := fun t => Proc.count (decode_zset_elem E t.dec.type t.dec.rlen.len) 0 t.dec.rlen.len)
    ?_ hs hv hcut
  simp only [hlen, htype]
  exact .count (fun num x _ => .decode_zset_elem hshort xs.length num x)
    (fun num x _ => .decode_zset_elem hread xs.length num x) 0

/-- A cut in what `decode_body` reads, but for sets of integers. -/
theorem decode_body_cut (v : StoredValue E) {s : St} {c : Place} {pre : List UInt8} (htype : s.dec.type = v.type)
    (hrlen : s.dec.rlen = RdbLength.ofHeader v.head.hdr) (hs : s.bptr.OpenedHead v.head c) (hv : c.Views pre)
    (hcut : Cut pre v.plain) :
    (v.Wraps pre.length → (decode_body E s).res = .ok ()) ∧ (¬ v.Wraps pre.length → Errs (decode_body E) s) := by
  have hbody : decode_body E s = decode_type E v.type s := by
    rw [decode_body, Proc.read_bind_run, htype]
  rw [Errs, hbody]
  cases v with
  | value v =>
    refine ⟨False.elim, fun _ => ?_⟩
    cases v with
    | string x =>
      have herr : Errs decode_string s := by
        rw [decode_string_eq]
        refine framed_cut (f := fun t => decode_str .empty t.dec.rlen >>= fun str => call (.d_string str.val)) ?_ hs hv
          hcut
        simp only [hrlen]
        exact (Short.decode_str .empty x).left _
      exact herr
    | list n xs hn =>
      have hlen : s.dec.rlen.len = xs.length := by rw [hrlen]; exact hn
      exact decode_elems_cut (fun cnt num x _ => .decode_list_elem cnt num x)
        (fun cnt num x _ => (Reads.decode_list_elem cnt num x).passes) hlen hs hv hcut
    | set n xs hn =>
      have hlen : s.dec.rlen.len = xs.length := by rw [hrlen]; exact hn
      exact decode_elems_cut (fun cnt num x _ => .decode_set_elem cnt num x)
        (fun cnt num x _ => (Reads.decode_set_elem cnt num x).passes) hlen hs hv hcut
    | hash n xs hn =>
      have hlen : s.dec.rlen.len = xs.length := by rw [hrlen]; exact hn
      exact decode_elems_cut (fun cnt num x _ => .decode_hash_elem cnt num x)
        (fun cnt num x _ => (Reads.decode_hash_elem cnt num x).passes) hlen hs hv hcut
  | zset v =>
    refine ⟨False.elim, fun _ => ?_⟩
    cases v with
    | zset n xs hn =>
      have hlen : s.dec.rlen.len = xs.length := by rw [hrlen]; exact hn
      exact decode_zset_cut Short.decode_score_text Reads.decode_score_text xs htype hlen hs hv hcut
    | zset_2 n xs hn =>
      have hlen : s.dec.rlen.len = xs.length := by rw [hrlen]; exact hn
      exact decode_zset_cut Short.decode_score_bits Reads.decode_score_bits xs htype hlen hs hv hcut
  | packed type x =>
    refine ⟨False.elim, fun _ => ?_⟩
    cases type <;> exact packed_cut hrlen hs hv hcut
  | intset x =>
    obtain ⟨hplain, hopened⟩ := x.blob.str.of_cut_plain hcut
    have hs : RdbBufptr.Opened x.blob.str s.bptr c := hs
    rw [hopened] at hs
    exact decode_set_intset_cut x hs hv (hplain ▸ hcut.1)
  | quicklist n nodes hn =>
    refine ⟨False.elim, fun _ => ?_⟩
    have hlen : s.dec.rlen.len = nodes.length := by rw [hrlen]; exact hn
    refine framed_cut (P := RdbBufptr.At) (f :=
      fun t => Proc.times t.dec.rlen.len (decode_quicklist_node E) 0) ?_ (.main hs) hv hcut
    simp only [hlen]
    exact .times (fun num x _ => .decode_quicklist_node x num) (fun num x _ => .decode_quicklist_node x num) 0
  | quicklist_2 n nodes hn =>
    refine ⟨False.elim, fun _ => ?_⟩
    have hlen : s.dec.rlen.len = nodes.length := by rw [hrlen]; exact hn
    refine framed_cut (P := RdbBufptr.At) (f :=
      fun t => Proc.times t.dec.rlen.len (decode_quicklist_2_node E) 0) ?_ (.main hs) hv
      hcut
    simp only [hlen]
    exact .times (fun num x _ => .decode_quicklist_2_node x num) (fun num x _ => .decode_quicklist_2_node x num) 0

end RdbDecode

/-- What goes out in front of `d_start_key`. -/
def Callback.of_front : Callback → Bool
  | .d_start_type _ => true
  | c => c.of_opcode

theorem Callback.of_front_ne_end {c : Callback} (h : c.of_front = true) (type : RdbType) : c ≠ .d_end_key type := by
  rintro rfl
  cases h

theorem Callback.of_elem_ne_end {c : Callback} (h : c.of_elem = true) (type : RdbType) : c ≠ .d_end_key type := by
  rintro rfl
  cases h

/-- `decode_hdr` and then `decode_body` end with an error code, before any `d_end_key`. -/
def St.Rejects (E : Env) (s : St) : Prop :=
  ∃ e t o, (decode_hdr E >>= fun _ => decode_body E) s = ⟨.error e, t, o⟩ ∧ e ≠ .RDB_OK ∧
    ∀ ev ∈ o, ∀ type, ev.call ≠ .d_end_key type

namespace St.Rejects

variable {s t : St} {d : Dest} {o : List Event}

/-- All calls of a header are ones that come in front of a value, if an output is chosen and the version is known. -/
theorem hdr_calls (hout : s.dec.out = some d) (hver : s.dec.ver ≠ 0) :
    ∀ ev ∈ (decode_hdr E s).out, ev.call.of_front = true := by
  have hop : ∀ c : Callback, c.of_opcode = true → c.of_front = true := by
    intro c hc
    cases c <;> first | rfl | cases hc
  have hrecord := Calls.decode_record (E := E) (C := Callback.of_front) (fun _ => rfl) hop
  have hvalue : Proc.Follows (Calls Callback.of_front) (decode_type_key E >>= fun _ => decode_unzip E) :=
    .bind Calls.chains (Calls.hdr_steps fun _ => rfl).decode_type_key fun _ => Calls.steps.decode_unzip
  rw [decode_hdr_known hout hver]
  split
  · exact hrecord _ s
  · exact hvalue s

theorem of_hdr (hout : s.dec.out = some d) (hver : s.dec.ver ≠ 0) (h : Errs (decode_hdr E) s) : s.Rejects E := by
  obtain ⟨e, hres, hne⟩ := h
  have hcalls := hdr_calls (E := E) hout hver
  obtain ⟨res, t, o, hrun⟩ : ∃ res t o, decode_hdr E s = ⟨res, t, o⟩ := ⟨_, _, _, rfl⟩
  rw [hrun] at hres hcalls
  obtain rfl : res = .error e := hres
  exact ⟨e, t, o, Proc.bind_error hrun, hne, fun ev hev => Callback.of_front_ne_end (hcalls ev hev)⟩

/-- A record whose body ends in an error is rejected, if it is no stream: the key has not ended by then. -/
theorem of_body (hout : s.dec.out = some d) (hver : s.dec.ver ≠ 0) (hrun : decode_hdr E s = ⟨.ok (), t, o⟩)
    (hlist : t.dec.type ≠ .RDB_STREAM_LISTPACK) (hlists : t.dec.type ≠ .RDB_STREAM_LISTPACKS_2)
    (h : Errs (decode_body E) t) : s.Rejects E := by
  have hcalls := hdr_calls (E := E) hout hver
  rw [hrun] at hcalls
  obtain ⟨e, hres, hne⟩ := h
  have hframed := (decode_type_framed (E := E) (C := Callback.of_elem) (fun _ h => h) hlist hlists).run t
  rw [decode_body, Proc.read_bind_run] at hres
  obtain ⟨u, o', hbody, hsent⟩ : ∃ u o', decode_type E t.dec.type t = ⟨.error e, u, o'⟩ ∧
      ∀ ev ∈ o', ∀ type, ev.call ≠ .d_end_key type := by
    rcases hframed with ⟨e', hfail⟩ | ⟨o', u, ho, ⟨e', start, hfail, hstart⟩ | ⟨_, _, _, hends, -, -⟩⟩
    · rw [hfail] at hres
      cases hres
      exact ⟨t, [], hfail, by simp⟩
    · rw [hfail] at hres
      cases hres
      refine ⟨u, _, hfail, fun ev hev type => ?_⟩
      rcases List.mem_cons.mp hev with rfl | hev
      · rw [hstart]
        exact Callback.noConfusion
      · exact Callback.of_elem_ne_end (ho ev hev) type
    · rw [hends] at hres
      cases hres
  refine ⟨e, u, o ++ o', Proc.bind_ok hrun hbody, hne, fun ev hev type => ?_⟩
  rcases List.mem_append.mp hev with hev | hev
  · exact Callback.of_front_ne_end (hcalls ev hev) type
  · exact hsent ev hev type

end St.Rejects

section

variable (r : StoredRecord E) {file : Bool} {s : St} {c : Place} {d : Dest} {pre : List UInt8}
  (hfile : s.dec.is_rdb_file = file) (hout : s.dec.out = some d) (hver : s.dec.ver ≠ 0) (hs : s.bptr.On c)
  (hv : c.Views pre) (hcut : Cut pre (r.bytes file))

include hfile hout hver hs hv hcut

/-- What is cut off is not missed. -/
theorem decode_cut_wraps (hgood : ∀ m ∈ r.metas_in file, m.fails = none)
    (hwraps : r.value.Wraps (pre.length - (r.front file).length)) :
    ((decode_hdr E >>= fun _ => decode_body E) s).res = .ok () := by
  rcases decode_hdr_cut r hfile hout hver hs hv hcut with ⟨-, hlt⟩ |
    ⟨-, pre, k, b, c', o, rfl, hplain, hv', hopen, hrun⟩
  · rw [Nat.sub_eq_zero_of_le (Nat.le_of_lt (hlt hgood))] at hwraps
    exact absurd hwraps (r.value.not_wraps_zero)
  · rw [List.length_append, Nat.add_sub_cancel_left] at hwraps
    rw [Proc.bind_res hrun]
    exact (decode_body_cut r.value rfl rfl hopen hv' hplain).1 hwraps

/-- A record that is cut off is rejected, unless it is a set of integers of which the cut leaves as much as the
size of its members in 32 bits. The cut may be anywhere, in the opcodes, in the key or in the value, and the
strings in front of it may be in any form. -/
theorem decode_cut_iff : s.Rejects E ↔
    ¬ ((∀ m ∈ r.metas_in file, m.fails = none) ∧ r.value.Wraps (pre.length - (r.front file).length)) := by
  constructor
  · rintro ⟨e, t, o, hrun, -, -⟩ ⟨hgood, hwraps⟩
    have hres := decode_cut_wraps r hfile hout hver hs hv hcut hgood hwraps
    rw [hrun] at hres
    cases hres
  · intro hnot
    rcases decode_hdr_cut r hfile hout hver hs hv hcut with ⟨herr, -⟩ |
      ⟨hgood, pre, k, b, c', o, rfl, hplain, hv', hopen, hrun⟩
    · exact .of_hdr hout hver herr
    · rw [List.length_append, Nat.add_sub_cancel_left] at hnot
      refine .of_body hout hver hrun r.value.type_ne_stream.1 r.value.type_ne_stream.2 ?_
      exact (decode_body_cut r.value rfl rfl hopen hv' hplain).2 fun hwraps => hnot ⟨hgood, hwraps⟩

end

/-- The decoder in a file, between two records, with the given bytes left. -/
def St.left (bytes : List UInt8) : St :=
  ⟨{ data_out := true, out := some .data_out, ver := 9, is_rdb_file := true },
    RdbBufptr.init ⟨.input, Mem.ofList bytes 0, 0⟩ bytes.length⟩

theorem St.left_views (bytes : List UInt8) : (St.left bytes).bptr.cur.Views bytes :=
  Place.ofList_views .input bytes 0

/-- A list "k" with the one element "a", compressed. -/
def format.StoredRecord.compressed : StoredRecord Env.literal :=
  ⟨[], .letter 0x6b, .value (.list (.short 1) [.literal 0x61] StoredLen.short_one)⟩

theorem decode_cut_compressed : (St.left [0x01, 0x01, 0x6b, 0x01, 0xc3, 0x02, 0x01, 0x00]).Rejects Env.literal :=
  (decode_cut_iff StoredRecord.compressed rfl rfl (by decide) ⟨rfl, rfl⟩ (St.left_views _)
    ⟨⟨[0x61], by decide +kernel⟩, by decide +kernel⟩).mpr fun h => h.2

/-- 2²⁹ members of 8 bytes each. -/
def format.IntSet.wide : IntSet Env.literal where
  blob := ⟨.raw ⟨.len64, 8 + 2 ^ 32, by decide⟩
    (le_bytes 4 8 ++ (le_bytes 4 (2 ^ 29) ++ List.replicate (2 ^ 32) 0)) (by
      simp only [List.length_append, le_bytes_length, List.length_replicate]
      omega), rfl⟩
  nbyte := 8
  nelem := 2 ^ 29
  members := List.replicate (2 ^ 32) 0
  hnbyte := by decide
  hnelem := by decide
  hmembers := by
    rw [List.length_replicate]
    omega
  htext := rfl

def format.StoredRecord.wide : StoredRecord Env.literal :=
  ⟨[], .letter 0x6b, .intset .wide⟩

/-- The bytes of the record up to the members. -/
def format.StoredRecord.wide_head : List UInt8 := StoredRecord.wide.front true ++ (le_bytes 4 8 ++ le_bytes 4 (2 ^ 29))

/-- These bytes are a cut of the record: there are 2^32 bytes of members behind them. -/
theorem format.StoredRecord.wide_cut : Cut wide_head (wide.bytes true) := by
  have hbytes : wide.bytes true = wide_head ++ List.replicate (2 ^ 32) 0 := by
    rw [wide_head, List.append_assoc, List.append_assoc]
    rfl
  rw [hbytes]
  refine ⟨List.prefix_append _ _, fun heq => ?_⟩
  have hlen := congrArg List.length heq
  rw [List.length_append, List.length_replicate] at hlen
  omega

/-- Without any of its members it is taken for all of it. -/
theorem intset_cut_accepted : ¬ ∀ (E : Env) (r : StoredRecord E) (file : Bool) (s : St) (c : Place) (d : Dest)
    (pre : List UInt8), s.dec.is_rdb_file = file → s.dec.out = some d → s.dec.ver ≠ 0 → s.bptr.On c → c.Views pre →
      Cut pre (r.bytes file) → s.Rejects E := by
  intro h
  have hviews := St.left_views StoredRecord.wide_head
  have hwraps : StoredRecord.wide.value.Wraps
      (StoredRecord.wide_head.length - (StoredRecord.wide.front true).length) := by
    rw [StoredRecord.wide_head, List.length_append, Nat.add_sub_cancel_left]
    exact Nat.le_refl 8
  have hres := decode_cut_wraps .wide (show (St.left StoredRecord.wide_head).dec.is_rdb_file = true from rfl) rfl
    (by decide) ⟨rfl, rfl⟩ hviews StoredRecord.wide_cut (List.forall_mem_nil _) hwraps
  obtain ⟨e, t, o, hrun, -, -⟩ := h _ .wide true (St.left StoredRecord.wide_head) _ _ _ rfl rfl (by decide)
    ⟨rfl, rfl⟩ hviews StoredRecord.wide_cut
  rw [hrun] at hres
  cases hres

end rdbparser
