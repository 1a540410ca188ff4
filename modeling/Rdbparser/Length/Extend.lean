import Rdbparser.Length.Cut
import Rdbparser.Length.Grammar

/-! What more bytes behind a buffer change about the header in front of it. -/

namespace rdbparser

open format

/-- The bytes `bs` and zeros behind them. -/
def padded (bs : List UInt8) : Mem := Mem.ofList bs fun _ => 0

theorem padded_padded (bs : List UInt8) : Padded (padded bs) bs where
  starts := Mem.ofList_starts bs _
  zero i hi := by simp [padded, Mem.ofList, List.getD_eq_getElem?_getD, List.getElem?_eq_none hi]

/-- Behind the bytes there is nothing but zeros, however many of them are written down. -/
theorem padded_zeros (bs : List UInt8) (n : Nat) : padded (bs ++ List.replicate n 0) = padded bs := by
  funext i
  simp only [padded, Mem.ofList, List.getD_eq_getElem?_getD, List.getElem?_append, List.getElem?_replicate]
  grind

namespace RdbLength

variable {l : RdbLength} {p q : Mem} {pre : List UInt8}

/-- The bytes looked at for a header that is not compressed. -/
def flat_span (p : Mem) : Nat := max 1 (header_size (length_encoding (p 0))).toNat

/-- The bytes `decode_buf` looks at. -/
def span (l : RdbLength) (p : Mem) : Nat :=
  if l.is_lzf = false ∧ length_encoding (p 0) = .RDB_LZF then
    let sz := header_size (length_encoding ((p.add 1) 0))
    if sz < 0 then 2 else sz.toNat + 1 + flat_span (p.add (sz.toNat + 1))
  else flat_span p

theorem flat_span_le (p : Mem) : flat_span p ≤ 9 := by
  have h := (header_size_bounds (length_encoding (p 0))).2
  rw [flat_span]
  omega

/-- A header spans no more bytes than the longest one has. -/
theorem span_le (l : RdbLength) (p : Mem) : l.span p ≤ 19 := by
  have hsize := (header_size_bounds (length_encoding ((p.add 1) 0))).2
  have hflat := flat_span_le p
  unfold span
  split
  · dsimp only
    split
    · decide
    · have hsecond := flat_span_le (p.add ((header_size (length_encoding ((p.add 1) 0))).toNat + 1))
      omega
  · omega

theorem flat_span_pos (p : Mem) : 0 < flat_span p := Nat.le_max_left _ _

/-- It spans one at least. -/
theorem span_pos (l : RdbLength) (p : Mem) : 0 < l.span p := by
  unfold span
  split
  · dsimp only
    split
    · decide
    · omega
  · exact flat_span_pos p

/-- A length that is no compressed one depends on the bytes of its span alone. -/
theorem decode_buf_flat_congr (l : RdbLength) (h : ∀ i < flat_span p, q i = p i) :
    decode_buf_flat l q = decode_buf_flat l p := by
  have h0 : q 0 = p 0 := h 0 (Nat.lt_of_lt_of_le Nat.zero_lt_one (Nat.le_max_left _ _))
  have htake : ∀ k, k < flat_span p → (q.add 1).take k = (p.add 1).take k := fun k hk =>
    List.map_congr_left fun i hi => h _ (by have := List.mem_range.mp hi; omega)
  unfold decode_buf_flat
  rw [h0]
  unfold flat_span at h htake
  cases henc : length_encoding (p 0) <;> rw [henc] at h htake <;> simp only [header_size] at h htake <;> dsimp only
  · rw [h 1 (by decide)]
  · rw [htake 4 (by decide)]
  · rw [htake 8 (by decide)]
  · rw [h 1 (by decide)]
  · rw [htake 2 (by decide)]
  · rw [htake 4 (by decide)]

/-- A header that is no compressed one, or may not be. -/
theorem decode_buf_eq_flat (h : ¬ (l.is_lzf = false ∧ length_encoding (p 0) = .RDB_LZF)) :
    l.decode_buf p = l.decode_buf_flat p := by
  unfold decode_buf
  split
  · next henc =>
    rw [if_pos (by simpa [henc] using h), decode_buf_flat, henc]
  · rfl

theorem header_size_pos {e : LengthEnc} (h : ¬ header_size e < 0) : 1 ≤ header_size e := by
  revert h
  cases e <;> decide

theorem span_lzf (h : l.is_lzf = false ∧ length_encoding (p 0) = .RDB_LZF) :
    l.span p = if header_size (length_encoding ((p.add 1) 0)) < 0 then 2
      else (header_size (length_encoding ((p.add 1) 0))).toNat + 1 +
        flat_span (p.add ((header_size (length_encoding ((p.add 1) 0))).toNat + 1)) := by
  rw [span, if_pos h]

/-- So does any header: bytes behind its span do not matter. -/
theorem decode_buf_congr (h : ∀ i < l.span p, q i = p i) : l.decode_buf q = l.decode_buf p := by
  have h0 : q 0 = p 0 := h 0 (l.span_pos p)
  by_cases hlzf : l.is_lzf = false ∧ length_encoding (p 0) = .RDB_LZF
  · rw [span_lzf hlzf] at h
    have hfirst : ({ l with is_lzf := true } : RdbLength).decode_buf_flat (q.add 1) =
        ({ l with is_lzf := true } : RdbLength).decode_buf_flat (p.add 1) := by
      refine decode_buf_flat_congr _ fun i hi => h (1 + i) ?_
      rw [flat_span] at hi
      generalize header_size (length_encoding ((p.add 1) 0)) = size at hi ⊢
      by_cases hneg : size < 0
      · rw [if_pos hneg]
        omega
      · rw [if_neg hneg]
        have hpos := flat_span_pos (p.add (size.toNat + 1))
        omega
    rw [decode_buf_lzf_eq hlzf.1 (h0 ▸ hlzf.2), decode_buf_lzf_eq hlzf.1 hlzf.2, hfirst]
    have hsize := decode_buf_flat_size { l with is_lzf := true } (p.add 1)
    rw [← hsize] at h
    generalize decode_buf_flat { l with is_lzf := true } (p.add 1) = r at h
    dsimp only at h ⊢
    split
    · rfl
    · next hneg =>
      rw [if_neg hneg] at h
      have hsecond := decode_buf_flat_congr (p := p.add (r.1.toNat + 1)) (q := q.add (r.1.toNat + 1))
        { r.2 with zlen := r.2.len } fun i hi => h _ (Nat.add_lt_add_left hi _)
      rw [hsecond]
  · rw [span, if_neg hlzf] at h
    rw [decode_buf_eq_flat hlzf, decode_buf_eq_flat (h0 ▸ hlzf), decode_buf_flat_congr l h]

/-- A byte that is not zero is not padding. -/
theorem Padded.lt (hp : Padded p pre) {i : Nat} (h : length_encoding (p i) ≠ .RDB_LEN_6) : i < pre.length := by
  by_contra hge
  exact h (by rw [hp.zero i (Nat.not_lt.mp hge)]; rfl)

/-- Zeros behind the bytes are not looked at where the header does not go beyond the bytes. -/
theorem span_padded (hp : Padded p pre) (hn : 0 ≤ (l.decode_buf p).1) (hle : (l.decode_buf p).1 ≤ pre.length) :
    l.span p ≤ pre.length := by
  by_cases hlzf : l.is_lzf = false ∧ length_encoding (p 0) = .RDB_LZF
  · rw [decode_buf_lzf_eq hlzf.1 hlzf.2] at hn hle
    have hsize := decode_buf_flat_size { l with is_lzf := true } (p.add 1)
    rw [span_lzf hlzf, ← hsize]
    dsimp only at hn hle ⊢
    generalize decode_buf_flat { l with is_lzf := true } (p.add 1) = r at hn hle hsize ⊢
    split
    · next hneg =>
      rw [if_pos hneg] at hn
      omega
    · next hneg =>
      rw [if_neg hneg] at hn hle
      have hsecond := decode_buf_flat_size { r.2 with zlen := r.2.len } (p.add (r.1.toNat + 1))
      generalize decode_buf_flat { r.2 with zlen := r.2.len } (p.add (r.1.toNat + 1)) = r' at hn hle hsecond
      split at hn
      · exact absurd (show (0 : Int) ≤ -1 from hn) (by decide)
      · next henc =>
        rw [if_neg henc] at hle
        dsimp only at hn hle
        rw [flat_span, ← hsecond]
        by_cases hbad : r'.1 < 0
        · have hin : r.1.toNat + 1 < pre.length := Padded.lt hp fun h6 => by
            rw [Mem.add_apply, Nat.add_zero, h6] at hsecond
            rw [hsecond] at hbad
            exact absurd hbad (by decide)
          omega
        · have hpos := header_size_pos (hsecond ▸ hbad)
          rw [← hsecond] at hpos
          omega
  · have hsize := decode_buf_flat_size l p
    rw [decode_buf_eq_flat hlzf, hsize] at hn hle
    have hpos := header_size_pos (Int.not_lt.mpr hn)
    rw [span, if_neg hlzf, flat_span]
    omega

/-- Whether a header is marked as an integer. -/
theorem decode_buf_flat_marked {b : Mem} (h : (decode_buf_flat l b).2.is_enc ≠ 0) :
    l.is_enc ≠ 0 ∨ ∃ form : IntForm, length_encoding (b 0) = form.enc := by
  unfold decode_buf_flat at h
  cases henc : length_encoding (b 0) <;> rw [henc] at h
  case RDB_INT8 => exact .inr ⟨.int8, rfl⟩
  case RDB_INT16 => exact .inr ⟨.int16, rfl⟩
  case RDB_INT32 => exact .inr ⟨.int32, rfl⟩
  all_goals exact .inl h

/-- What is rejected stays so. -/
theorem decode_buf_neg (hp : Padded p pre) (hq : q.Starts pre) (h : (l.decode_buf p).1 < 0) :
    (l.decode_buf q).1 < 0 := by
  have hsame : ∀ i, length_encoding (p i) ≠ .RDB_LEN_6 → q i = p i := fun i hi => by
    have hin := Padded.lt hp hi
    rw [hq.get hin, hp.starts.get hin]
  by_cases hlzf : l.is_lzf = false ∧ length_encoding (p 0) = .RDB_LZF
  · have h0 := hsame 0 (by rw [hlzf.2]; exact nofun)
    rw [decode_buf_lzf_eq hlzf.1 hlzf.2] at h
    rw [decode_buf_lzf_eq hlzf.1 (h0 ▸ hlzf.2)]
    have hsize := decode_buf_flat_size { l with is_lzf := true } (p.add 1)
    have hsize' := decode_buf_flat_size { l with is_lzf := true } (q.add 1)
    have hmarked := decode_buf_flat_marked (l := { l with is_lzf := true }) (b := p.add 1)
    have hmark := decode_buf_flat_mark (l := { l with is_lzf := true }) (b := q.add 1)
    have hint : ∀ form : IntForm, length_encoding ((q.add 1) 0) = form.enc →
        (decode_buf_flat { l with is_lzf := true } (q.add 1)).2.is_enc ≠ 0 := fun _ => decode_buf_flat_int
    generalize decode_buf_flat { l with is_lzf := true } (p.add 1) = r at h hsize hmarked
    generalize decode_buf_flat { l with is_lzf := true } (q.add 1) = rq at hsize' hmark hint ⊢
    rw [Mem.add_apply, Nat.add_zero] at hsize hsize'
    dsimp only at h ⊢
    split
    · assumption
    · next hpos =>
      have hfirst : ¬ r.1 < 0 := fun hneg => by
        rw [hsize] at hneg
        rw [hsize', hsame 1 fun h6 => by rw [h6] at hneg; exact absurd hneg (by decide)] at hpos
        exact hpos hneg
      rw [if_neg hfirst] at h
      have hsecond : (decode_buf_flat { rq.2 with zlen := rq.2.len } (q.add (rq.1.toNat + 1))).2.is_enc ≠ 0 := by
        have hpos := header_size_pos (hsize ▸ hfirst)
        rw [← hsize] at hpos
        have hr' : (decode_buf_flat { r.2 with zlen := r.2.len } (p.add (r.1.toNat + 1))).2.is_enc ≠ 0 := fun henc => by
          rw [if_neg (fun hne => hne henc)] at h
          have hlow := (header_size_bounds (length_encoding ((p.add (r.1.toNat + 1)) 0))).1
          rw [← decode_buf_flat_size { r.2 with zlen := r.2.len }] at hlow
          generalize decode_buf_flat { r.2 with zlen := r.2.len } (p.add (r.1.toNat + 1)) = r' at h hlow
          dsimp only at h
          omega
        rcases decode_buf_flat_marked hr' with hr | ⟨form, henc⟩
        · refine decode_buf_flat_mark (l := { rq.2 with zlen := rq.2.len }) ?_ _
          rcases hmarked hr with hl | ⟨form, henc⟩
          · exact hmark hl
          · refine hint form ?_
            rw [Mem.add_apply, Nat.add_zero] at henc ⊢
            rwa [hsame 1 (by rw [henc]; cases form <;> exact nofun)]
        · have hnext : length_encoding (p (r.1.toNat + 1)) ≠ .RDB_LEN_6 := fun h6 => by
            rw [Mem.add_apply, Nat.add_zero, h6] at henc
            cases form <;> exact nomatch henc
          have hin := Padded.lt hp hnext
          -- the byte behind the padding is a length of one byte
          have hone : length_encoding (p 1) = length_encoding (q 1) := by
            by_cases h6 : 1 < pre.length
            · rw [hq.get h6, hp.starts.get h6]
            · omega
          have hsame_size : rq.1 = r.1 := by rw [hsize, hsize', hone]
          refine @decode_buf_flat_int { rq.2 with zlen := rq.2.len } _ form ?_
          rw [Mem.add_apply, Nat.add_zero] at henc ⊢
          rwa [hsame_size, hsame _ hnext]
      rw [if_pos hsecond]
      exact Int.negSucc_lt_zero 0
  · have hsize := decode_buf_flat_size l p
    rw [decode_buf_eq_flat hlzf, hsize] at h
    have h0 := hsame 0 fun h6 => by
      rw [h6] at h
      exact absurd h (by decide)
    rwa [decode_buf_eq_flat (h0 ▸ hlzf), decode_buf_flat_size, h0]

end RdbLength

namespace RdbBufptr

/-- Read in place or from the look-ahead, a header is what the bytes and the zeros behind them say. -/
theorem On.decode_read {b : RdbBufptr} {c : Place} (h : b.On c) {bs : List UInt8} (hv : c.Views bs) (l : RdbLength) :
    ∃ p, (if MAX_RDB_HDRLEN ≤ b.avail then (b.buf.ptr.mem, b) else b.look MAX_RDB_HDRLEN) = (p, b) ∧
      l.decode_buf p = l.decode_buf (padded bs) := by
  have havail : b.avail = bs.length := h.avail.trans hv.1
  have hcongr : ∀ p : Mem, (∀ i < MAX_RDB_HDRLEN, p i = padded bs i) → l.decode_buf p = l.decode_buf (padded bs) :=
    fun p hp => RdbLength.decode_buf_congr fun i hi => hp i (Nat.lt_of_lt_of_le hi (l.span_le _))
  by_cases hlong : MAX_RDB_HDRLEN ≤ b.avail
  · refine ⟨_, if_pos hlong, hcongr _ fun i hi => ?_⟩
    have hin : i < bs.length := havail ▸ Nat.lt_of_lt_of_le hi hlong
    rw [h.buf, hv.2.get hin, (padded_padded bs).starts.get hin]
  · obtain ⟨p, hlook, hp⟩ := h.look_padded hv (by omega)
    refine ⟨p, by rw [if_neg hlong, hlook], hcongr _ fun i _ => ?_⟩
    by_cases hin : i < bs.length
    · rw [hp.starts.get hin, (padded_padded bs).starts.get hin]
    · rw [hp.zero i (by omega), (padded_padded bs).zero i (by omega)]

section decode

variable {b : RdbBufptr} {c : Place} {bs : List UInt8} {l : RdbLength}

theorem On.decode_none (h : b.On c) (hv : c.Views bs) (hsz : (l.decode_buf (padded bs)).1 < 0) :
    l.decode b = (.RDB_ERR_HDR, (l.decode_buf (padded bs)).2, b) := by
  obtain ⟨p, hread, hbuf⟩ := h.decode_read hv l
  simp only [RdbLength.decode, hread, hbuf, if_pos hsz]

theorem On.decode_short (h : b.On c) (hv : c.Views bs) (hsz : bs.length < (l.decode_buf (padded bs)).1) :
    l.decode b = (.RDB_ERR_TRUNC, (l.decode_buf (padded bs)).2, b) := by
  obtain ⟨p, hread, hbuf⟩ := h.decode_read hv l
  have havail : b.avail = bs.length := h.avail.trans hv.1
  simp only [RdbLength.decode, hread, hbuf]
  rw [if_neg (by omega), incr_none (by omega)]

/-- A header that ends in the bytes there are is taken, and the cursor moves over it. -/
theorem On.decode_within (h : b.On c) (hv : c.Views bs) (hsz : ¬ (l.decode_buf (padded bs)).1 < 0)
    (hle : (l.decode_buf (padded bs)).1 ≤ bs.length) :
    ∃ b', l.decode b = (.RDB_OK, (l.decode_buf (padded bs)).2, b') ∧
      b'.On (c.adv (l.decode_buf (padded bs)).1.toNat) := by
  obtain ⟨p, hread, hbuf⟩ := h.decode_read hv l
  obtain ⟨b', hincr, hon⟩ := h.incr (n := (l.decode_buf (padded bs)).1.toNat) (by rw [hv.1]; omega)
  refine ⟨b', ?_, hon⟩
  simp only [RdbLength.decode, hread, hbuf, if_neg hsz, hincr]

end decode

end RdbBufptr

namespace RdbLength

/-- More bytes behind the buffer leave a header, and what is rejected as none, as it was; where the buffer is
too short for it nothing is taken off the buffer, and there are bytes that complete it. The cursor is in the
main buffer; nothing is assumed of the bytes there. -/
theorem decode_extended {l : RdbLength} {b : RdbBufptr} {c : Place} {bs : List UInt8} (h : b.On c) (hv : c.Views bs) :
    (∀ l' b₁, l.decode b = (.RDB_OK, l', b₁) →
      ∃ n ≤ bs.length, b₁.On (c.adv n) ∧ ∀ ext b' c', b'.On c' → c'.Views (bs ++ ext) →
        ∃ b₁', l.decode b' = (.RDB_OK, l', b₁') ∧ b₁'.On (c'.adv n)) ∧
    ((l.decode b).1 = .RDB_ERR_HDR →
      ∀ ext b' c', b'.On c' → c'.Views (bs ++ ext) → (l.decode b').1 = .RDB_ERR_HDR) ∧
    ((l.decode b).1 = .RDB_ERR_TRUNC →
      (l.decode b).2.2 = b ∧ ∃ ext n, bs.length < n ∧ ∀ b' c', b'.On c' → c'.Views (bs ++ ext) →
        ∃ l' b₁', l.decode b' = (.RDB_OK, l', b₁') ∧ b₁'.On (c'.adv n)) := by
  have hlong : ∀ ext, (padded (bs ++ ext)).Starts bs := fun ext =>
    (Mem.starts_append.mp (padded_padded (bs ++ ext)).starts).1
  by_cases hneg : (l.decode_buf (padded bs)).1 < 0
  · rw [h.decode_none hv hneg]
    refine ⟨nofun, fun _ ext b' c' h' hv' => ?_, nofun⟩
    rw [h'.decode_none hv' (decode_buf_neg (padded_padded bs) (hlong ext) hneg)]
  by_cases hle : (l.decode_buf (padded bs)).1 ≤ bs.length
  · obtain ⟨b₁, hdec, hon⟩ := h.decode_within hv hneg hle
    rw [hdec]
    refine ⟨fun l' b₂ heq => ?_, nofun, nofun⟩
    obtain ⟨-, rfl, rfl⟩ : _ ∧ _ ∧ _ := by simpa only [Prod.mk.injEq] using heq
    refine ⟨_, by omega, hon, fun ext b' c' h' hv' => ?_⟩
    have hspan := span_padded (padded_padded bs) (by omega) hle
    have hbuf : l.decode_buf (padded (bs ++ ext)) = l.decode_buf (padded bs) := decode_buf_congr fun i hi => by
      have hin : i < bs.length := by omega
      rw [(hlong ext).get hin, (padded_padded bs).starts.get hin]
    rw [← hbuf]
    refine h'.decode_within hv' (by rwa [hbuf]) ?_
    rw [hbuf, List.length_append]
    omega
  · rw [h.decode_short hv (by omega)]
    refine ⟨nofun, nofun, fun _ => ⟨rfl, List.replicate MAX_RDB_HDRLEN 0,
      (l.decode_buf (padded bs)).1.toNat, by omega, fun b' c' h' hv' => ?_⟩⟩
    have hsize := (decode_buf_size_bounds l (padded bs)).2
    have hbuf := congrArg l.decode_buf (padded_zeros bs MAX_RDB_HDRLEN)
    rw [← hbuf]
    refine ⟨_, h'.decode_within hv' (by rwa [hbuf]) ?_⟩
    rw [hbuf, List.length_append, List.length_replicate]
    rw [MAX_RDB_HDRLEN]
    omega

/-- A buffer that ends within a 32 bit length. -/
theorem decode_extended_len32 :
    ∃ ext n, 1 < n ∧ ∀ b' c', RdbBufptr.On b' c' → c'.Views ([0x80] ++ ext) →
      ∃ l' b₁', ({} : RdbLength).decode b' = (.RDB_OK, l', b₁') ∧ b₁'.On (c'.adv n) := by
  have h := decode_extended (l := {}) (b := RdbBufptr.init ⟨.input, Mem.ofList [0x80] fun _ => 0, 0⟩ 1) ⟨rfl, rfl⟩
    (Place.ofList_views .input [0x80] fun _ => 0)
  exact (h.2.2 (by decide +kernel)).2

end RdbLength

end rdbparser
