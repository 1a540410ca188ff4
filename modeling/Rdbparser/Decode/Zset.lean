import Rdbparser.Format.Zset
import Rdbparser.Decode.Record

namespace rdbparser

open format RdbDecode DecodeProc

/-- Wherever the bytes `bs` lie ahead of a cursor that meets `P`, the step leaves the decoder with
the code `e`. -/
def Fails {α : Type} (P : RdbBufptr → Place → Prop) (x : DecodeProc α) (bs : List UInt8)
    (e : RdbErrCode) : Prop :=
  ∀ (s : St) (c : Place) (d : Dest) (rest : List UInt8),
    P s.bptr c → c.Views (bs ++ rest) → s.dec.out = some d → (x s).res = .error e

variable {E : Env}

theorem Fails.append {α : Type} {P : RdbBufptr → Place → Prop} {x : DecodeProc α}
    {bs : List UInt8} {e : RdbErrCode} (h : Fails P x bs e) (bs' : List UInt8) :
    Fails P x (bs ++ bs') e := by
  intro s c d rest hs hv hd
  rw [List.append_assoc] at hv
  exact h s c d _ hs hv hd

/-- A sequence fails where its second step does, behind what the first has sent. -/
theorem Reads.bind_fails {α β : Type} {P : RdbBufptr → Place → Prop} {bs bs' : List UInt8}
    {calls : List Callback} {x : DecodeProc α} {f : α → DecodeProc β}
    {Q : α → RdbBufptr → Place → Prop} {e : RdbErrCode} (hx : Reads P x bs calls Q)
    (hf : ∀ a, Fails (Q a) (f a) bs' e) : Fails P (x >>= f) (bs ++ bs') e := by
  intro s c d rest hs hv hd
  rw [List.append_assoc] at hv
  obtain ⟨a, b, o, hrun, hq, -⟩ := hx s c d _ hs hv hd
  rw [Proc.bind_res hrun]
  exact hf a { s with bptr := b } _ d rest hq hv.adv hd

theorem Fails.bind {α β : Type} {P : RdbBufptr → Place → Prop} {bs : List UInt8}
    {x : DecodeProc α} {e : RdbErrCode} (hx : Fails P x bs e) (f : α → DecodeProc β) :
    Fails P (x >>= f) bs e := by
  intro s c d rest hs hv hd
  exact Proc.bind_res_error (hx s c d rest hs hv hd)

/-- A score is read in the main buffer. -/
theorem Reads.decode_score_text (x : ScoreText) :
    Reads RdbBufptr.On (decode_score .RDB_ZSET) x.bytes [] fun r b c => b.On c ∧ r.val = x.val := by
  rw [decode_score, if_neg (by decide)]
  cases x with
  | text s h =>
    refine (Reads.incr 1 (show [UInt8.ofNat s.length].length = 1 from rfl)).bind_read fun p => of_fact fun hp => ?_
    have hlen : (p.mem 0).toNat = s.length := by
      rw [(Mem.starts_cons.mp hp).1, RdbLength.toNat_ofNat_lt (by omega)]
    simp only [hlen]
    split
    · omega
    · omega
    · omega
    · refine (Reads.incr s.length (show s.length = s.length from rfl)).bind_call fun q => of_fact fun hq => ?_
      exact value fun b c h => ⟨h, RdbString.set_str_starts _ hq rfl⟩
  | nan =>
    refine (Reads.incr 1 (rfl : ([253] : List UInt8).length = 1)).bind_call fun p => of_fact fun hp => ?_
    have hlen : (p.mem 0).toNat = 253 := by rw [(Mem.starts_cons.mp hp).1]; rfl
    simp only [hlen]
    exact value fun b c h => ⟨h, RdbString.set_str_starts _ (Ptr.lit_starts _) rfl⟩
  | inf =>
    refine (Reads.incr 1 (rfl : ([254] : List UInt8).length = 1)).bind_call fun p => of_fact fun hp => ?_
    have hlen : (p.mem 0).toNat = 254 := by rw [(Mem.starts_cons.mp hp).1]; rfl
    simp only [hlen]
    exact value fun b c h => ⟨h, RdbString.set_str_starts _ (Ptr.lit_starts _) rfl⟩
  | neg_inf =>
    refine (Reads.incr 1 (rfl : ([255] : List UInt8).length = 1)).bind_call fun p => of_fact fun hp => ?_
    have hlen : (p.mem 0).toNat = 255 := by rw [(Mem.starts_cons.mp hp).1]; rfl
    simp only [hlen]
    exact value fun b c h => ⟨h, RdbString.set_str_starts _ (Ptr.lit_starts _) rfl⟩

/-- A score of eight bytes is the double of these bits. -/
theorem Reads.decode_score_bits (x : ScoreBits) :
    Reads RdbBufptr.On (decode_score .RDB_ZSET_2) x.bytes []
      fun r b c => b.On c ∧ r.val = x.val := by
  rw [decode_score, if_pos rfl]
  refine (Reads.incr 8 (le_bytes_length 8 x.bits)).bind_call fun p => of_fact fun hp => ?_
  have hget : p.mem.take 8 = le_bytes 8 x.bits := by simpa using hp.take
  refine value fun b c h => ⟨h, ?_⟩
  rw [RdbString.set_dbl_val, hget, le_nat_le_bytes, Nat.mod_eq_of_lt (show x.bits < 256 ^ 8 from x.h)]
  rfl

/-- `incr` does not go back to the main buffer, so after a compressed member there is no score. -/
theorem decode_score_fails (type : RdbType) {b₀ : RdbBufptr → Place → Prop}
    (h : ∀ b c, b₀ b c → b.avail = 0) (bs : List UInt8) :
    Fails b₀ (decode_score type) bs .RDB_ERR_TRUNC := by
  intro s c d rest hs hv hd
  have havail : s.bptr.avail = 0 := h _ _ hs
  have hincr : ∀ n, 0 < n → DecodeProc.incr n s = ⟨.error .RDB_ERR_TRUNC, s, []⟩ := by
    intro n hn
    rw [DecodeProc.incr, RdbBufptr.incr_none (by omega)]
  rw [decode_score]
  split
  · rw [Proc.bind_error (hincr 8 (by decide))]
  · rw [Proc.bind_error (hincr 1 (by decide))]

/-- A counted loop fails at the first element its body fails on. -/
theorem count_fails {α : Type} {P : RdbBufptr → Place → Prop} {body : Nat → DecodeProc Unit}
    {bytes : α → List UInt8} {calls : Nat → α → Callback} {bad : α → Bool} {e : RdbErrCode}
    (hgood : ∀ num x, bad x = false → Reads P (body num) (bytes x) [calls num x] fun _ => P)
    (hbad : ∀ num x, bad x = true → Fails P (body num) (bytes x) e) {xs : List α}
    (hex : ∃ x ∈ xs, bad x = true) (k : Nat) :
    Fails P (Proc.count body k xs.length) (xs.flatMap bytes) e := by
  induction xs generalizing k with
  | nil => simp at hex
  | cons x xs ih =>
    rw [List.flatMap_cons]
    cases hx : bad x with
    | true => exact ((hbad k x hx).bind _).append _
    | false =>
      have hex' : ∃ y ∈ xs, bad y = true := by
        obtain ⟨y, hy, hbady⟩ := hex
        cases hy with
        | head => rw [hx] at hbady; contradiction
        | tail _ hy => exact ⟨y, hy, hbady⟩
      exact (hgood k x hx).bind_fails fun _ => ih hex' (k + 1)

section

variable {σ : Type} {type : RdbType} {bytes : σ → List UInt8} {val : σ → RdbVal}
  (hscore : ∀ x : σ, Reads RdbBufptr.On (decode_score type) (bytes x) []
    fun r b c => b.On c ∧ r.val = val x)

include hscore

/-- A member that is not compressed, with its score. -/
theorem Reads.decode_zset_elem (cnt num : Nat) (x : StoredStr E × σ) (hx : x.1.is_lzf = false) :
    Reads RdbBufptr.On (RdbDecode.decode_zset_elem E type cnt num) (x.1.bytes ++ bytes x.2)
      [.d_zset num cnt x.1.val (val x.2)] fun _ => RdbBufptr.On := by
  refine ((decode_rlen .empty x.1).mono (fun _ _ h => .main h) fun _ _ _ h =>
    ⟨h.1.on hx, h.2⟩).bind_read fun r => of_fact fun hr => ?_
  refine (hscore x.2).bind_call fun r' => of_fact fun hr' => ?_
  rw [hr, hr']
  exact call _

omit hscore in
/-- A compressed member. -/
theorem decode_zset_elem_fails (cnt num : Nat) (x : StoredStr E × σ) (hx : x.1.is_lzf = true) :
    Fails RdbBufptr.On (RdbDecode.decode_zset_elem E type cnt num) (x.1.bytes ++ bytes x.2)
      .RDB_ERR_TRUNC := by
  refine ((Reads.decode_rlen .empty x.1).mono (fun _ _ h => .main h) fun _ _ _ h =>
    h.1).bind_fails fun r => ?_
  exact (decode_score_fails type (fun _ _ h => h.avail hx) _).bind _

/-- The members of a sorted set are all handed out if none of them is compressed, and none from the
first compressed one on otherwise. -/
theorem decode_zset_run (xs : List (StoredStr E × σ)) {s : St} {c : Place} {rest : List UInt8}
    (htype : s.dec.type = type) (hlen : s.dec.rlen.len = xs.length) (hs : s.bptr.On c)
    (hv : c.Views (xs.flatMap (fun x => x.1.bytes ++ bytes x.2) ++ rest)) :
    ((∀ m ∈ xs.map Prod.fst, m.is_lzf = false) →
      ∃ b o, decode_zset E s = ⟨.ok (), ⟨{ s.dec with out := some s.dec.dest }, b⟩, o⟩ ∧
        o.map Event.sent = (s.dec.dest, .d_start_key s.dec.type s.dec.key.val) ::
          ((xs.mapIdx fun num x => .d_zset num xs.length x.1.val (val x.2)).map (s.dec.dest, ·) ++
            [(s.dec.dest, .d_end_key s.dec.type)])) ∧
    ((∃ m ∈ xs.map Prod.fst, m.is_lzf = true) → (decode_zset E s).res = .error .RDB_ERR_TRUNC) := by
  constructor
  · intro hxs
    have hcount := Reads.count (fun num x hx =>
      Reads.decode_zset_elem hscore xs.length num x (hxs x.1 (List.mem_map_of_mem hx))) 0
    simp only [Nat.zero_add] at hcount
    obtain ⟨b, o, hrun, -, ho⟩ := framed_run (f := fun t =>
      Proc.count (RdbDecode.decode_zset_elem E t.dec.type t.dec.rlen.len) 0 t.dec.rlen.len)
      (by simpa only [hlen, htype] using hcount.mono (fun _ _ h => h) fun _ _ _ h => .main h) hs hv
    exact ⟨b, o, hrun, ho⟩
  · intro hex
    have hex : ∃ x ∈ xs, x.1.is_lzf = true := by
      obtain ⟨m, hm, hlzf⟩ := hex
      obtain ⟨x, hx, rfl⟩ := List.mem_map.mp hm
      exact ⟨x, hx, hlzf⟩
    have hbad : ∀ num (x : StoredStr E × σ), x.1.is_lzf = true →
        Fails RdbBufptr.On (RdbDecode.decode_zset_elem E type xs.length num) (x.1.bytes ++ bytes x.2)
          .RDB_ERR_TRUNC := fun num x hx => decode_zset_elem_fails xs.length num x hx
    have hcount := count_fails (fun num x hx => Reads.decode_zset_elem hscore xs.length num x hx) hbad hex 0
    have hend := hcount.bind (fun _ => end_key) { s with dec.out := some s.dec.dest } c _ rest hs hv rfl
    rw [decode_zset, Proc.bind_res (start_key_run s), Proc.read_bind_run]
    simpa only [hlen, htype] using hend

end

/-- Every member is handed out with its score, in order. -/
def format.ZSet.Decoded (v : ZSet E) (s : St) : Prop :=
  ∃ t o, decode_body E s = ⟨.ok (), t, o⟩ ∧
    o.map Event.sent = (s.dec.dest, .d_start_key s.dec.type s.dec.key.val) ::
      (v.calls.map (s.dec.dest, ·) ++ [(s.dec.dest, .d_end_key s.dec.type)])

/-- A sorted set is decoded if no member of it is compressed, and ends the decoding otherwise. -/
theorem decode_body_zset_cases (v : ZSet E) {s : St} {c : Place} {rest : List UInt8}
    (htype : s.dec.type = v.type) (hrlen : s.dec.rlen = RdbLength.ofHeader v.head.hdr)
    (hs : s.bptr.On c) (hv : c.Views (v.plain ++ rest)) :
    ((∀ m ∈ v.members, m.is_lzf = false) → v.Decoded s) ∧
      ((∃ m ∈ v.members, m.is_lzf = true) → (decode_body E s).res = .error .RDB_ERR_TRUNC) := by
  have hbody : decode_body E s = decode_zset E s := by
    rw [decode_body, Proc.read_bind_run, htype]
    cases v <;> rfl
  rw [ZSet.Decoded, hbody]
  cases v with
  | zset n xs hn =>
    have hlen : s.dec.rlen.len = xs.length := by rw [hrlen]; exact hn
    have h := decode_zset_run Reads.decode_score_text xs htype hlen hs hv
    refine ⟨fun hm => ?_, h.2⟩
    obtain ⟨b, o, hrun, ho⟩ := h.1 hm
    exact ⟨_, o, hrun, by rwa [ZSet.calls, hn]⟩
  | zset_2 n xs hn =>
    have hlen : s.dec.rlen.len = xs.length := by rw [hrlen]; exact hn
    have h := decode_zset_run Reads.decode_score_bits xs htype hlen hs hv
    refine ⟨fun hm => ?_, h.2⟩
    obtain ⟨b, o, hrun, ho⟩ := h.1 hm
    exact ⟨_, o, hrun, by rwa [ZSet.calls, hn]⟩

/-- A sorted set is decoded if and only if no member of it is compressed: its score is looked for in the
decompression buffer. The other members and the scores may be in any form, the scores in either of the two
layouts, and nothing is assumed of what follows the set. -/
theorem decode_body_zset_iff (v : ZSet E) {s : St} {c : Place} {rest : List UInt8}
    (htype : s.dec.type = v.type) (hrlen : s.dec.rlen = RdbLength.ofHeader v.head.hdr)
    (hs : s.bptr.On c) (hv : c.Views (v.plain ++ rest)) :
    v.Decoded s ↔ ∀ m ∈ v.members, m.is_lzf = false := by
  have hcases := decode_body_zset_cases v htype hrlen hs hv
  refine ⟨?_, hcases.1⟩
  rintro ⟨t, o, hrun, -⟩ m hm
  by_contra hlzf
  have herr := hcases.2 ⟨m, hm, by simpa using hlzf⟩
  rw [hrun] at herr
  cases herr

/-- A `RDB_ZSET_2` with the one member "a", compressed, and the score 0. -/
def format.ZSet.compressed : ZSet Env.literal :=
  .zset_2 (.short 1) [(.literal 0x61, ⟨0, by decide⟩)] StoredLen.short_one

/-- The decoder in front of it, with an end marker behind. -/
def St.compressed : St :=
  ⟨{ data_out := true, type := .RDB_ZSET_2, rlen := { len := 1 } },
    RdbBufptr.init ⟨.input, Mem.ofList (ZSet.compressed.plain ++ [0xff]) 0, 0⟩ 14⟩

theorem St.compressed_views :
    St.compressed.bptr.cur.Views (ZSet.compressed.plain ++ [0xff]) := by
  decide

theorem decode_body_zset_compressed : ¬ ZSet.compressed.Decoded St.compressed := by
  intro h
  have hmem := (decode_body_zset_iff ZSet.compressed rfl rfl ⟨rfl, rfl⟩ St.compressed_views).mp h
  exact absurd hmem (by decide)

/-- Storing a member compressed does change the result. -/
theorem zset_compressed_trunc : ¬ ∀ (E : Env) (v : ZSet E) (s : St) (c : Place) (rest : List UInt8),
    s.dec.type = v.type → s.dec.rlen = RdbLength.ofHeader v.head.hdr → s.bptr.On c →
      c.Views (v.plain ++ rest) → rest ≠ [] → v.Decoded s := by
  intro h
  obtain ⟨t, o, hrun, -⟩ := h _ ZSet.compressed St.compressed _ [0xff] rfl rfl ⟨rfl, rfl⟩
    St.compressed_views (by decide)
  have herr : (decode_body Env.literal St.compressed).res = .error .RDB_ERR_TRUNC := by rfl
  rw [hrun] at herr
  cases herr

end rdbparser
