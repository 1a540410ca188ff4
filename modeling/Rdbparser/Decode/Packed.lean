import Rdbparser.Decode.Zipmap
import Rdbparser.Decode.Zset
import Rdbparser.Format.Packed

namespace rdbparser

open format RdbDecode DecodeProc

variable {E : Env}

namespace Reads

variable {P : RdbBufptr → Place → Prop}

/-- The text of a string that is opened. -/
theorem incr_text (x : Blob E) :
    Reads (RdbBufptr.Opened x.str) (DecodeProc.incr (RdbLength.ofHeader x.str.hdr).len) x.str.plain []
      fun p b c => b.At c ∧ p.mem.Starts x.str.text := by
  obtain ⟨str, hint⟩ := x
  cases str with
  | raw len text hlen => exact (incr len.val hlen.symm).mono (fun _ _ h => h) fun _ _ _ h => ⟨.main h.1, h.2⟩
  | int i => cases hint
  | lzf zlen len z text hzlen hlen hlzf =>
    exact (incr_unzipped hlen.symm).mono (fun _ _ h => h) fun _ _ _ h => ⟨h.1.2, h.2⟩

section walk

variable {w : Walk RdbListValue ListPackElem} {base : Ptr} {start : RdbListValue} {limit : Nat} {stop : Nat → Prop}

/-- The elements of a list from its first one on, if it has any. -/
theorem list_elems (hval : ∀ lval, (decode_lval base lval).val = (w.found lval).val) (cnt : Nat)
    {vs : List ListPackElem}
    (h : w.Finds stop start vs) (hfuel : vs.length ≤ limit) :
    Reads P (if (w.next start).1 = true then list_loop w.next base cnt limit 0 (w.next start).2 >>=
      fun _ => Pure.pure ()
      else Pure.pure ()) [] (vs.mapIdx fun i v => .d_list i cnt v.val) fun _ => P := by
  cases vs with
  | nil =>
    rw [h.nil]
    exact value fun _ _ h => h
  | cons v vs =>
    obtain ⟨t, hnext, rfl, hrest⟩ := h.cons
    rw [hnext]
    dsimp only
    rw [if_pos rfl]
    intro s c d rest hs _ hd
    obtain ⟨o, hrun, ho⟩ := list_loop_run hval cnt hrest hfuel 0 hd
    refine ⟨(), s.bptr, o ++ [], Proc.bind_ok hrun rfl, hs, ?_⟩
    rw [List.append_nil, ho, map_mapIdx]
    simp only [Nat.zero_add]

/-- The pairs of a list from its first element on. -/
theorem pair_elems (hval : ∀ lval, (decode_lval base lval).val = (w.found lval).val)
    {d_pair : Nat → RdbVal → RdbVal → Callback}
    {ps : List (ListPackElem × ListPackElem)} (h : w.Finds stop start (paired ps)) (hfuel : ps.length ≤ limit) :
    Reads P (if (w.next start).1 = true then pair_loop w.next base d_pair limit 0 (w.next start).2 else Pure.pure ()) []
      (ps.mapIdx fun i p => d_pair i p.1.val p.2.val) fun _ => P := by
  cases ps with
  | nil =>
    rw [Walk.Finds.nil h]
    exact value fun _ _ h => h
  | cons p ps =>
    obtain ⟨t, hnext, hfound, hrest⟩ := Walk.Finds.cons h
    rw [hnext]
    dsimp only
    rw [if_pos rfl]
    intro s c d rest hs _ hd
    obtain ⟨o, hrun, ho⟩ := pair_loop_run hval d_pair hrest hfuel 0 hd
    refine ⟨(), s.bptr, o, hrun, hs, ?_⟩
    rw [ho, hfound, map_mapIdx]
    simp only [Nat.zero_add]

end walk

end Reads

namespace RdbDecode

/-! The elements of the decoders between the start and the end of a key. -/

def ziplist_body (t : St) : DecodeProc Unit := do
  let b ← incr t.dec.rlen.len
  match RdbZipList.init b t.dec.rlen.len with
  | none => Proc.ret .RDB_ERR_TRUNC
  | some zip => if zip.first.1 = true then ziplist_elems zip b t.dec.type else pure ()

/-- The decoder of ziplists as the key, what is in the list, and the end of the key. -/
theorem decode_ziplist_framed : decode_ziplist = (start_key >>= fun _ => Proc.read >>= fun t =>
    ziplist_body t >>= fun _ => end_key) := by
  rw [decode_ziplist_eq]
  refine congrArg (start_key >>= ·) (funext fun _ => congrArg (Proc.read >>= ·) (funext fun t => ?_))
  rw [ziplist_body, Proc.bind_assoc]
  refine congrArg (incr t.dec.rlen.len >>= ·) (funext fun b => ?_)
  cases RdbZipList.init b t.dec.rlen.len with
  | none => rfl
  | some zip => rfl

/-- What `decode_listpack` does with the list, up to the end of the key. -/
def listpack_elems (l : RdbListPack) (b : Ptr) : RdbType → DecodeProc Unit
  | .RDB_HASH_LISTPACK => if l.first.1 = true then pair_loop l.next b (.d_hash · 0) l.lpbytes 0 l.first.2 else pure ()
  | .RDB_ZSET_LISTPACK => if l.first.1 = true then pair_loop l.next b (.d_zset · 0) l.lpbytes 0 l.first.2 else pure ()
  | _ => Proc.ret .RDB_ERR_NOTSUP

def listpack_body (t : St) : DecodeProc Unit := do
  let b ← incr t.dec.rlen.len
  match RdbListPack.init b t.dec.rlen.len with
  | none => Proc.ret .RDB_ERR_TRUNC
  | some lp => listpack_elems lp b t.dec.type

/-- The decoder of listpacks as the key, the pairs between, and the end of the key. -/
theorem decode_listpack_framed : decode_listpack = (start_key >>= fun _ => Proc.read >>= fun t =>
    listpack_body t >>= fun _ => end_key) := by
  unfold decode_listpack
  refine congrArg (start_key >>= ·) (funext fun _ => congrArg (Proc.read >>= ·) (funext fun t => ?_))
  rw [listpack_body, Proc.bind_assoc]
  refine congrArg (incr t.dec.rlen.len >>= ·) (funext fun b => ?_)
  cases RdbListPack.init b t.dec.rlen.len with
  | none => rfl
  | some lp =>
    dsimp only
    rw [listpack_elems.eq_def]
    cases t.dec.type <;> first | rfl | (dsimp only; split <;> rfl)

end RdbDecode

/-- No more elements are found than there are bytes. -/
theorem RdbZipList.finds_le {b : Ptr} {n : Nat} {z : RdbZipList}
    (hinit : RdbZipList.init b n = some z) {stop : Nat → Prop}
    {vs : List ListPackElem} (h : z.walk.Finds stop z.start vs) : vs.length ≤ z.zlbytes := by
  obtain ⟨-, hdata, hend⟩ := RdbZipList.init_some hinit
  have hstart : 0 < z.walk.pos z.start := by
    change 0 < z.data
    omega
  have hall := h.length_le (fun s t hpos hnext => hend ▸ RdbZipList.next_bounds hend hpos hnext) hstart
  rcases hall with rfl | hall
  · exact Nat.zero_le _
  · omega

/-- A listpack has no more elements than bytes, so the turns of the loop suffice. -/
theorem RdbListPack.finds_le {b : Ptr} {n : Nat} {l : RdbListPack}
    (hinit : RdbListPack.init b n = some l) {stop : Nat → Prop}
    {vs : List ListPackElem} (h : l.walk.Finds stop l.start vs) : vs.length ≤ l.lpbytes := by
  obtain ⟨-, hdata, hend, -⟩ := RdbListPack.init_some hinit
  have hstart : 0 < l.walk.pos l.start := by
    change 0 < l.data
    omega
  have hstep : ∀ s t, 0 < l.walk.pos s → l.walk.next s = (true, t) →
      l.walk.pos s < l.walk.pos t ∧ l.walk.pos t ≤ l.lpbytes := by
    intro s t hpos hnext
    obtain ⟨hentry, hpos', hle⟩ := RdbListPack.next_bounds hend hpos hnext
    change s.entry + s.entry_len < t.entry + t.entry_len ∧ t.entry + t.entry_len ≤ _
    omega
  rcases h.length_le hstep hstart with rfl | hall
  · exact Nat.zero_le _
  · omega

namespace Reads

variable {t : St} {x : Blob E} (hrlen : t.dec.rlen = RdbLength.ofHeader x.str.hdr)

include hrlen

/-- A zip list is opened and its elements are handed out. -/
theorem ziplist_body {cnt : Nat} {vs : List ListPackElem} (h : RdbZipList.Counts x.str.text cnt vs)
    {calls : List Callback}
    (helems : ∀ (z : RdbZipList) (b : Ptr), z.base = b → z.zllen = cnt → vs.length ≤ z.zlbytes →
      z.walk.Finds (fun _ => True) z.start vs →
      Reads RdbBufptr.At (if z.first.1 = true then ziplist_elems z b t.dec.type else Pure.pure ()) [] calls fun _ =>
        RdbBufptr.At) :
    Reads (RdbBufptr.Opened x.str) (RdbDecode.ziplist_body t) x.str.plain calls fun _ => RdbBufptr.At := by
  rw [RdbDecode.ziplist_body, hrlen]
  refine (incr_text x).bind_call fun p => of_fact fun hp => ?_
  obtain ⟨z, hinit, hcnt, hfinds⟩ := h p hp
  rw [length_eq x.not_int, hinit]
  exact helems z p (RdbZipList.init_some hinit).1 hcnt (RdbZipList.finds_le hinit hfinds) hfinds

/-- What is handed out of a listpack is what its elements say, in a string of any form. -/
theorem listpack_body {vs : List ListPackElem} (h : RdbListPack.Holds x.str.text vs) {calls : List Callback}
    (helems : ∀ (l : RdbListPack) (b : Ptr), l.base = b → vs.length ≤ l.lpbytes →
      l.walk.Finds (fun _ => True) l.start vs →
      Reads RdbBufptr.At (listpack_elems l b t.dec.type) [] calls fun _ => RdbBufptr.At) :
    Reads (RdbBufptr.Opened x.str) (RdbDecode.listpack_body t) x.str.plain calls fun _ => RdbBufptr.At := by
  rw [RdbDecode.listpack_body, hrlen]
  refine (incr_text x).bind_call fun p => of_fact fun hp => ?_
  obtain ⟨l, hinit, hfinds⟩ := h p hp
  rw [length_eq x.not_int, hinit]
  exact helems l p (RdbListPack.init_some hinit).1 (RdbListPack.finds_le hinit hfinds) hfinds

end Reads

/-! Sets of integers. -/

/-- A text that is opened is ahead of the cursor, and behind it is the place where it ends. -/
theorem RdbBufptr.Opened.ahead {x : Blob E} {b : RdbBufptr} {c : Place} {rest : List UInt8} (h : b.Opened x.str c)
    (hv : c.Views (x.str.plain ++ rest)) : x.str.text.length ≤ b.avail ∧ b.buf.ptr.mem.Starts x.str.text ∧
      RdbBufptr.At { b with buf := b.buf.add x.str.text.length, avail := b.avail - x.str.text.length
                            offset := b.offset + x.str.text.length } (c.adv x.str.plain.length) := by
  obtain ⟨str, hint⟩ := x
  cases str with
  | int i => cases hint
  | raw len text hlen =>
    have hon : b.On c := h
    refine ⟨hon.avail ▸ hv.le, hon.buf ▸ hv.starts, .main ?_⟩
    obtain ⟨rfl, hsav⟩ := hon
    exact ⟨rfl, hsav⟩
  | lzf zlen len z text hzlen hlen hlzf =>
    obtain ⟨p, b', hincr, hp, -, -, hat⟩ := h
    by_cases hle : text.length ≤ b.avail
    · rw [RdbBufptr.incr_some hle] at hincr
      obtain ⟨rfl, rfl⟩ := Prod.mk.inj (Option.some.inj hincr)
      exact ⟨hle, hp, hat⟩
    · rw [RdbBufptr.incr_none (Nat.not_le.mp hle)] at hincr
      cases hincr

/-- The size of the members of a set and their number, as they are read. -/
theorem format.IntMembers.head_read (m : IntMembers) {p : Mem} (h : p.Starts m.bytes) :
    le_nat (p.take 4) = m.nbyte ∧ le_nat ((p.add 4).take 4) = m.members.length := by
  rw [IntMembers.bytes, Mem.starts_append, Mem.starts_append, le_bytes_length] at h
  obtain ⟨hnbyte, hnelem, -⟩ := h
  constructor
  · have htake := hnbyte.take
    rw [le_bytes_length] at htake
    rw [htake, le_nat_le_bytes, Nat.mod_eq_of_lt m.nbyte_lt]
  · have htake := hnelem.take
    rw [le_bytes_length] at htake
    rw [htake, le_nat_le_bytes, Nat.mod_eq_of_lt (show _ < 256 ^ 4 from m.hcount)]

/-- The members of a set of integers are handed out, and the cursor is behind them. -/
theorem decode_set_intset_run (x : Blob E) (m : IntMembers) (hx : x.str.text = m.bytes)
    (hsmall : m.nbyte * m.members.length < 2 ^ 32) {s : St} {c : Place} {rest : List UInt8} (hs : s.bptr.Opened x.str c)
    (hv : c.Views (x.str.plain ++ rest)) :
    ∃ b o, decode_set_intset s = ⟨.ok (), ⟨{ s.dec with out := some s.dec.dest }, b⟩, o⟩ ∧
      b.At (c.adv x.str.plain.length) ∧
      o.map Event.sent = (s.dec.dest, .d_start_key s.dec.type s.dec.key.val) ::
        ((m.members.mapIdx fun i a => .d_set i m.members.length (.int (m.read a))).map (s.dec.dest, ·) ++
          [(s.dec.dest, .d_end_key s.dec.type)]) := by
  obtain ⟨havail, hstarts, hat⟩ := hs.ahead hv
  rw [hx] at havail hstarts hat
  obtain ⟨t, o, hrun, ho⟩ := decode_set_intset_members m hstarts havail
  obtain ⟨hnbyte, hnelem⟩ := m.head_read hstarts
  have hmod : 8 + m.nbyte * m.members.length % 2 ^ 32 = m.bytes.length := by
    rw [Nat.mod_eq_of_lt hsmall, m.bytes_length]
  have hall := decode_set_intset_ok hnbyte hnelem (by rw [m.bytes_length] at havail; omega) m.hnbyte (hmod ▸ havail)
  obtain rfl := (Run.mk.inj (hall.symm.trans hrun)).2.1
  refine ⟨_, o, hrun, ?_, ho⟩
  rw [hmod]
  exact hat

/-! Zip maps. -/

theorem format.ZipMapPair.bytes_length (x : ZipMapPair) :
    x.bytes.length = (len_bytes x.field.length).length + x.field.length + (len_bytes x.val.length).length + 1 +
      (x.val.length + x.free.length) := by
  simp only [ZipMapPair.bytes, List.length_cons, List.length_append]
  omega

theorem format.ZipMapPair.len_bytes_pos (n : Nat) : 0 < (len_bytes n).length := by
  rw [len_bytes]
  split <;> exact Nat.succ_pos _

/-- A length that lies at a place is read there, and does not start with the byte that ends the pairs. -/
theorem zipmap_len_read {p : Mem} {n pos len : Nat} (hlen : len < 2 ^ 32)
    (hp : (p.add pos).Starts (ZipMapPair.len_bytes len)) (hn : pos + (ZipMapPair.len_bytes len).length ≤ n) :
    p pos ≠ 255 ∧ zipmap_len_at p n pos = some (len, pos + (ZipMapPair.len_bytes len).length) := by
  rw [ZipMapPair.len_bytes] at hp hn ⊢
  by_cases hshort : len < 254
  · rw [if_pos hshort] at hp hn ⊢
    have hbyte : p pos = UInt8.ofNat len := (Mem.starts_cons.mp hp).1
    have hval : (p pos).toNat = len := by rw [hbyte, RdbLength.toNat_ofNat_lt (by omega)]
    rw [List.length_singleton] at hn
    refine ⟨fun hlast => ?_, ?_⟩
    · rw [hlast] at hval
      change 255 = len at hval
      omega
    · rw [zipmap_len_at, if_neg (by omega), hval, if_neg (by omega)]
      rfl
  · rw [if_neg hshort] at hp hn ⊢
    obtain ⟨hbyte, hrest⟩ := Mem.starts_cons.mp hp
    have hbyte : p pos = 254 := hbyte
    have htake : (p.add (pos + 1)).take 4 = be_bytes 4 len := by
      have htake := hrest.take
      rwa [be_bytes_length, Mem.add_add] at htake
    rw [List.length_cons, be_bytes_length] at hn ⊢
    refine ⟨fun hlast => ?_, ?_⟩
    · rw [hbyte] at hlast
      exact absurd hlast (by decide)
    · rw [zipmap_len_at, if_neg (by omega), hbyte, if_pos (by decide), if_neg (by omega), htake, be_nat_be_bytes,
        Nat.mod_eq_of_lt (show len < 256 ^ 4 from hlen)]

/-- The pair that lies at a place is read there. -/
theorem zipmap_pair_read (x : ZipMapPair) {p : Mem} {n pos : Nat} (hp : (p.add pos).Starts x.bytes)
    (hn : pos + x.bytes.length ≤ n) : ∃ pair, zipmap_pair_at p n pos = some pair ∧ pair.next = pos + x.bytes.length ∧
      pair.field.str p = .str x.field ∧ pair.val.str p = .str x.val := by
  have hfree := x.hfree
  have hval := x.hval
  rw [x.bytes_length] at hn
  rw [ZipMapPair.bytes, Mem.starts_append, Mem.starts_append, Mem.starts_append, Mem.starts_cons,
    Mem.starts_append] at hp
  simp only [Mem.add_add] at hp
  obtain ⟨hfirst, hfield, hsecond, hthird, hvalue, -⟩ := hp
  generalize hfst : (ZipMapPair.len_bytes x.field.length).length = fst at *
  generalize hsnd : (ZipMapPair.len_bytes x.val.length).length = snd at *
  obtain ⟨hlast, hlen⟩ := zipmap_len_read (n := n) x.hfield hfirst (by omega)
  obtain ⟨-, hlen'⟩ := zipmap_len_read (n := n) (by omega) hsecond (by omega)
  rw [hfst] at hlen
  rw [hsnd] at hlen'
  have hbyte : (p (pos + fst + x.field.length + snd)).toNat = x.free.length := by
    have h : p (pos + fst + x.field.length + snd) = UInt8.ofNat x.free.length := hthird
    rw [h, RdbLength.toNat_ofNat_lt (by omega)]
  have hmod : (x.val.length + x.free.length) % 2 ^ 32 = x.val.length + x.free.length := Nat.mod_eq_of_lt hval
  refine ⟨⟨⟨pos + fst, x.field.length⟩, ⟨pos + fst + x.field.length + snd + 1, x.val.length⟩, x.free.length⟩, ?_, ?_,
    congrArg RdbVal.str hfield.take, congrArg RdbVal.str hvalue.take⟩
  · rw [zipmap_pair_at, if_neg hlast, hlen]
    dsimp only
    rw [if_neg (by omega), hlen']
    dsimp only
    rw [hbyte, hmod, if_neg (by omega)]
  · rw [ZipmapPair.next, x.bytes_length, hfst, hsnd]
    dsimp only
    rw [hmod]
    omega

/-- The loop over a zip map hands out its pairs, up to its end. -/
theorem zipmap_loop_pairs (xs : List ZipMapPair) {p : Ptr} {n pos : Nat} {b : RdbBufptr} (h : b.In p n pos)
    (hp : (p.mem.add pos).Starts (xs.flatMap ZipMapPair.bytes ++ [0xff]))
    (hn : pos + (xs.flatMap ZipMapPair.bytes).length < n)
    (cnt num : Nat) {fuel : Nat} (hfuel : xs.length < fuel) {s : St} {d : Dest} (hout : s.dec.out = some d) :
    ∃ o, zipmap_loop cnt fuel num b s = ⟨.ok (), s, o⟩ ∧
      o.map Event.sent = xs.mapIdx fun i x => (d, .d_hash (num + i) cnt (.str x.field) (.str x.val)) := by
  induction xs generalizing pos b fuel num with
  | nil =>
    obtain ⟨fuel, rfl⟩ : ∃ k, fuel = k + 1 := ⟨fuel - 1, by omega⟩
    have hlast : p.mem pos = 0xff := (Mem.starts_cons.mp hp).1
    have havail := h.avail
    rw [List.flatMap_nil, List.length_nil] at hn
    obtain ⟨b', hrun, -⟩ := local_incr_some h s (k := 1) (by omega)
    have hend : ((p.add pos).mem 0).toNat = 255 := by
      have hbyte : (p.add pos).mem 0 = 0xff := hlast
      rw [hbyte]
      rfl
    refine ⟨[], ?_, rfl⟩
    rw [zipmap_loop, if_neg (by omega), Proc.bind_quiet hrun]
    dsimp only
    rw [if_pos hend]
    rfl
  | cons x xs ih =>
    obtain ⟨fuel, rfl⟩ : ∃ k, fuel = k + 1 := ⟨fuel - 1, by omega⟩
    rw [List.flatMap_cons, List.append_assoc, Mem.starts_append, Mem.add_add] at hp
    rw [List.flatMap_cons, List.length_append] at hn
    obtain ⟨pair, hpair, hnext, hfield, hvalue⟩ := zipmap_pair_read x (n := n) hp.1 (by omega)
    have hturn := zipmap_loop_turn h s cnt fuel num
    rw [hpair] at hturn
    obtain ⟨b', hin, hrun⟩ := hturn
    rw [hnext] at hin
    obtain ⟨o, hrest, ho⟩ := ih hin hp.2 (by omega) (num + 1) (Nat.lt_of_succ_lt_succ hfuel)
    refine ⟨_, hrun.trans (Proc.bind_ok (call_run hout _) hrest), ?_⟩
    rw [List.map_append, ho, List.mapIdx_cons, hfield, hvalue]
    simp only [Nat.add_assoc, Nat.add_comm 1]
    rfl

/-- A zip map is opened and its pairs are handed out. -/
theorem Reads.zipmap_body {t : St} {x : Blob E} (hrlen : t.dec.rlen = RdbLength.ofHeader x.str.hdr) (m : ZipMap)
    (hx : x.str.text = m.bytes) :
    Reads (RdbBufptr.Opened x.str) (DecodeProc.incr t.dec.rlen.len >>=
      fun b => zipmap_blob b t.dec.rlen.len) x.str.plain
      (m.pairs.mapIdx fun i p => .d_hash i m.cnt.toNat (.str p.field) (.str p.val)) fun _ => RdbBufptr.At := by
  rw [hrlen]
  refine (incr_text x).bind_call fun p => of_fact fun hp => ?_
  rw [length_eq x.not_int, hx]
  rw [hx, ZipMap.bytes, Mem.starts_cons] at hp
  obtain ⟨hcnt, hpairs⟩ := hp
  have hlen : m.bytes.length = (m.pairs.flatMap ZipMapPair.bytes).length + 2 := by
    rw [ZipMap.bytes, List.length_cons, List.length_append, List.length_singleton]
  have hcount : m.pairs.length ≤ (m.pairs.flatMap ZipMapPair.bytes).length := by
    generalize m.pairs = xs
    induction xs with
    | nil => exact Nat.le_refl 0
    | cons x xs ih =>
      have hpos := ZipMapPair.len_bytes_pos x.field.length
      rw [List.flatMap_cons, List.length_append, x.bytes_length, List.length_cons]
      omega
  intro s c d rest hs _ hd
  have hin : RdbBufptr.In { RdbBufptr.init ⟨p.blk, p.mem, 0⟩ m.bytes.length with
      buf := ⟨p.blk, p.mem, 1⟩, avail := m.bytes.length - 1, offset := 1 } p m.bytes.length 1 := ⟨rfl, rfl, by omega⟩
  have hfuel : m.pairs.length < m.bytes.length - 1 := by omega
  obtain ⟨o, hrun, ho⟩ := zipmap_loop_pairs m.pairs hin hpairs (by omega) m.cnt.toNat 0 hfuel hd
  refine ⟨(), s.bptr, o, ?_, hs, ?_⟩
  · rw [zipmap_blob, RdbBufptr.incr_some (show 1 ≤ m.bytes.length by omega)]
    dsimp only
    have hfirst : (RdbBufptr.init ⟨p.blk, p.mem, 0⟩ m.bytes.length).buf.ptr.mem 0 = m.cnt := hcnt
    rw [hfirst]
    exact hrun
  · rw [ho, map_mapIdx]
    simp only [Nat.zero_add]

theorem RdbDecode.decode_hash_zipmap_framed : decode_hash_zipmap = (start_key >>= fun _ => Proc.read >>= fun t =>
    (DecodeProc.incr t.dec.rlen.len >>= fun b => zipmap_blob b t.dec.rlen.len) >>= fun _ => end_key) := by
  rw [decode_hash_zipmap_eq]
  simp only [Proc.bind_assoc]

/-- Values that are packed in one string are handed out. -/
instance : Decodes E (PackedValue E) where
  decode_body_run v s c rest htype hrlen hs hv := by
    have hbody : decode_body E s = decode_type E v.type s := by
      rw [decode_body, Proc.read_bind_run, htype]
      rfl
    have hdecoded : ∀ z : RdbZipList, ∀ b : Ptr, z.base = b →
        ∀ lval, (decode_lval b lval).val = (z.walk.found lval).val :=
      fun z b hb => hb ▸ z.decode_lval_elem
    have hdecoded' : ∀ l : RdbListPack, ∀ b : Ptr, l.base = b →
        ∀ lval, (decode_lval b lval).val = (l.walk.found lval).val :=
      fun l b hb => hb ▸ l.decode_lval_elem
    have hhalf : ∀ {ps : List (ListPackElem × ListPackElem)} {n : Nat}, (paired ps).length ≤ n → ps.length ≤ n := by
      intro ps n hle
      rw [paired_length] at hle
      omega
    rw [hbody]
    cases v with
    | hash_zipmap x m h =>
      rw [PackedValue.type, decode_type, decode_hash_zipmap_framed]
      exact framed_run (f := fun t => DecodeProc.incr t.dec.rlen.len >>= fun b => zipmap_blob b t.dec.rlen.len)
        (Reads.zipmap_body hrlen m h) hs hv
    | list_ziplist x cnt vs h =>
      rw [PackedValue.type, decode_type, decode_ziplist_framed]
      refine framed_run (f := ziplist_body) (Reads.ziplist_body hrlen h fun z b hbase hcnt hfuel hfinds => ?_) hs hv
      subst hcnt
      rw [htype]
      exact Reads.list_elems (hdecoded z b hbase) z.zllen hfinds hfuel
    | set_intset x m h hsmall hfits =>
      rw [PackedValue.type, decode_type]
      obtain ⟨b, o, hrun, hat, ho⟩ := decode_set_intset_run x m h hsmall hs hv
      have hread : (m.members.mapIdx fun i a => Callback.d_set i m.members.length (.int (m.read a))) =
          m.members.mapIdx fun i a => .d_set i m.members.length (.int (m.val a)) := by
        refine List.mapIdx_eq_mapIdx_iff.mpr fun i hi => ?_
        rw [(m.read_eq_val (m.hmembers _ (List.getElem_mem hi))).mpr fun h8 => hfits h8 _ (List.getElem_mem hi)]
      rw [hread] at ho
      exact ⟨b, o, hrun, hat, ho⟩
    | zset_ziplist x cnt ps h | hash_ziplist x cnt ps h =>
      rw [PackedValue.type, decode_type, decode_ziplist_framed]
      refine framed_run (f := ziplist_body) (Reads.ziplist_body hrlen h fun z b hbase hcnt hfuel hfinds => ?_) hs hv
      subst hcnt
      rw [htype]
      exact Reads.pair_elems (hdecoded z b hbase) hfinds (hhalf hfuel)
    | hash_listpack x ps h | zset_listpack x ps h =>
      rw [PackedValue.type, decode_type, decode_listpack_framed]
      refine framed_run (f := listpack_body) (Reads.listpack_body hrlen h fun l b hbase hfuel hfinds => ?_) hs hv
      rw [htype]
      exact Reads.pair_elems (hdecoded' l b hbase) hfinds (hhalf hfuel)

/-- Quicklists are handed out node by node. -/
instance : Decodes E (QuickValue E) where
  decode_body_run v s c rest htype hrlen hs hv := by
    obtain ⟨n, l, hn⟩ := v
    have hbody : decode_body E s = decode_type E l.type s := by
      rw [decode_body, Proc.read_bind_run, htype]
      rfl
    have hlen : s.dec.rlen.len = l.elems.length := by
      rw [hrlen]
      exact hn
    have hquiet : ∀ {f : Nat → DecodeProc Nat} {bytes : List UInt8} {k : Nat} {calls : List Callback},
        Reads RdbBufptr.At (Proc.times k f 0) bytes calls (fun _ => RdbBufptr.At) →
          Reads RdbBufptr.At (Proc.times k f 0 >>= fun _ => pure ()) bytes calls fun _ => RdbBufptr.At := by
      intro f bytes k calls hf
      have h := hf.bind (R := fun _ => RdbBufptr.At) fun _ => Reads.value (a := ()) fun _ _ h => h
      rwa [List.append_nil, List.append_nil] at h
    have hframed : ∀ {f : Nat → DecodeProc Nat}, (start_key >>= fun _ => Proc.read >>= fun t =>
        Proc.times t.dec.rlen.len f 0 >>= fun _ => end_key) = (start_key >>= fun _ => Proc.read >>= fun t =>
          (Proc.times t.dec.rlen.len f 0 >>= fun _ => pure ()) >>= fun _ => end_key) := by
      intro f
      simp only [Proc.bind_assoc, Proc.pure_bind]
    rw [hbody]
    cases l with
    | ziplists nodes =>
      rw [QuickList.elems, List.length_map] at hlen
      rw [QuickList.type, decode_type, decode_quicklist, hframed]
      refine framed_run (f := fun t => Proc.times t.dec.rlen.len (decode_quicklist_node E) 0 >>=
        fun _ => pure ()) ?_ (RdbBufptr.At.main hs) hv
      dsimp only
      rw [hlen]
      exact hquiet (Reads.times (fun num nodes => quick_calls num (nodes.map QuickNode.elems)) (fun _ => rfl)
        (fun _ _ _ => rfl) (fun num x => Reads.decode_quicklist_node x num) nodes 0)
    | listpacks nodes =>
      rw [QuickList.elems, List.length_map] at hlen
      rw [QuickList.type, decode_type, decode_quicklist_2, hframed]
      refine framed_run (f := fun t => Proc.times t.dec.rlen.len (decode_quicklist_2_node E) 0 >>=
        fun _ => pure ()) ?_ (RdbBufptr.At.main hs) hv
      dsimp only
      rw [hlen]
      have hread := Reads.times (fun num nodes => quick_calls num (nodes.map fun x => x.2.elems)) (fun _ => rfl)
        (fun _ _ _ => rfl) (fun num x => Reads.decode_quicklist_2_node (E := E) x num) nodes 0
      exact hquiet hread

/-- A quicklist of at most one node is handed out with its elements numbered in order. -/
instance : Decodes E (QuickSingle E) where
  decode_body_run v s c rest htype hrlen hs hv := by
    have hcalls : Encoding.calls v.quick = Encoding.calls v := (quick_calls_iff v.quick.list.not_empty).mpr v.single
    have hrun := Decodes.decode_body_run v.quick htype hrlen hs hv
    rw [hcalls] at hrun
    exact hrun

/-- Sorted sets none of whose members is compressed are handed out. -/
instance : Decodes E (PlainZSet E) where
  decode_body_run v s c rest htype hrlen hs hv := by
    obtain ⟨v, hplain⟩ := v
    have hbody : decode_body E s = decode_zset E s := by
      rw [decode_body, Proc.read_bind_run, htype]
      cases v <;> rfl
    have hmembers : ∀ {σ : Type} {type : RdbType} {bytes : σ → List UInt8} {val : σ → RdbVal}
        (_ : ∀ x : σ, Reads RdbBufptr.On (decode_score type) (bytes x) [] fun r b c => b.On c ∧ r.val = val x)
        (xs : List (StoredStr E × σ)), (∀ m ∈ xs.map Prod.fst, m.is_lzf = false) →
        Reads RdbBufptr.On (Proc.count (RdbDecode.decode_zset_elem E type xs.length) 0 xs.length)
          (xs.flatMap fun x => x.1.bytes ++ bytes x.2) (xs.mapIdx fun num x => .d_zset num xs.length x.1.val (val x.2))
          fun _ => RdbBufptr.At := by
      intro σ type bytes val hscore xs hxs
      have hcount := Reads.count (fun num x hx =>
        Reads.decode_zset_elem hscore xs.length num x (hxs x.1 (List.mem_map_of_mem hx))) 0
      simp only [Nat.zero_add] at hcount
      exact hcount.mono (fun _ _ h => h) fun _ _ _ h => .main h
    rw [hbody]
    cases v with
    | zset n xs hn =>
      have hlen : s.dec.rlen.len = xs.length := by
        rw [hrlen]
        exact hn
      have hread := hmembers Reads.decode_score_text xs hplain
      have hcalls : Encoding.calls (⟨.zset n xs hn, hplain⟩ : PlainZSet E) =
          xs.mapIdx fun num x => .d_zset num xs.length x.1.val x.2.val := by
        rw [← hn]
        rfl
      rw [hcalls]
      refine framed_run (f := fun t =>
          Proc.count (RdbDecode.decode_zset_elem E t.dec.type t.dec.rlen.len) 0 t.dec.rlen.len)
        ?_ hs hv
      dsimp only
      rw [hlen, htype]
      exact hread
    | zset_2 n xs hn =>
      have hlen : s.dec.rlen.len = xs.length := by
        rw [hrlen]
        exact hn
      have hread := hmembers Reads.decode_score_bits xs hplain
      have hcalls : Encoding.calls (⟨.zset_2 n xs hn, hplain⟩ : PlainZSet E) =
          xs.mapIdx fun num x => .d_zset num xs.length x.1.val x.2.val := by
        rw [← hn]
        rfl
      rw [hcalls]
      refine framed_run (f := fun t =>
          Proc.count (RdbDecode.decode_zset_elem E t.dec.type t.dec.rlen.len) 0 t.dec.rlen.len)
        ?_ hs hv
      dsimp only
      rw [hlen, htype]
      exact hread

instance {V W : Type} [Encoding E V] [Encoding E W] [Decodes E V] [Decodes E W] : Decodes E (V ⊕ W) where
  decode_body_run v _ _ _ htype hrlen hs hv := by
    cases v with
    | inl v => exact Decodes.decode_body_run v htype hrlen hs hv
    | inr v => exact Decodes.decode_body_run v htype hrlen hs hv

end rdbparser
