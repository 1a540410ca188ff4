import Rdbparser.Bufptr.Place

/-! What is made of a header that the end of the buffer cuts off and `look` fills up with zeros. -/

namespace rdbparser

open format

/-- `pre` is what a cut leaves of `bs`, not all of it. -/
def Cut (pre bs : List UInt8) : Prop := pre <+: bs ∧ pre ≠ bs

namespace Cut

theorem length_lt {pre bs : List UInt8} (h : Cut pre bs) : pre.length < bs.length :=
  Nat.lt_of_le_of_ne h.1.length_le fun heq => h.2 (h.1.eq_of_length heq)

theorem not_nil {pre : List UInt8} : ¬ Cut pre [] := fun h => h.2 (List.prefix_nil.mp h.1)

/-- The cut is in the first part or behind it. -/
theorem append {pre xs ys : List UInt8} (h : Cut pre (xs ++ ys)) :
    Cut pre xs ∨ ∃ pre', pre = xs ++ pre' ∧ Cut pre' ys := by
  obtain ⟨⟨post, hpost⟩, hne⟩ := h
  rcases List.append_eq_append_iff.mp hpost with ⟨as, hxs, hys⟩ | ⟨as, rfl, hys⟩
  · by_cases has : as = []
    · subst has
      rw [List.append_nil] at hxs
      rw [List.nil_append] at hys
      subst hxs hys
      refine .inr ⟨[], (List.append_nil _).symm, ⟨List.nil_prefix, fun hnil => hne ?_⟩⟩
      rw [← hnil, List.append_nil]
    · exact .inl ⟨⟨as, hxs.symm⟩, fun h => has (by rw [hxs] at h; simpa using h)⟩
  · exact .inr ⟨as, rfl, ⟨post, hys.symm⟩, fun h => hne (by rw [h])⟩

/-- The cut is in front of the first byte or behind it. -/
theorem cons {pre bs : List UInt8} {b : UInt8} (h : Cut pre (b :: bs)) :
    pre = [] ∨ ∃ pre', pre = b :: pre' ∧ Cut pre' bs := by
  have hsplit : Cut pre ([b] ++ bs) := h
  rcases hsplit.append with hfirst | ⟨pre', rfl, hrest⟩
  · refine .inl (List.eq_nil_of_length_eq_zero ?_)
    have hlt := hfirst.length_lt
    rw [List.length_singleton] at hlt
    omega
  · exact .inr ⟨pre', rfl, hrest⟩

end Cut

/-- A memory that holds the bytes `pre` and zeros behind them. -/
structure Padded (p : Mem) (pre : List UInt8) : Prop where
  starts : p.Starts pre
  zero : ∀ i, pre.length ≤ i → p i = 0

theorem Padded.add {p : Mem} {xs ys : List UInt8} (h : Padded p (xs ++ ys)) : Padded (p.add xs.length) ys where
  starts := (Mem.starts_append.mp h.starts).2
  zero i hi := h.zero _ (by rw [List.length_append]; omega)

namespace RdbLength

/-- The size of a header that starts with a byte that is not 0xc3. -/
theorem decode_buf_size_flat {p : Mem} (h : length_encoding (p 0) ≠ .RDB_LZF) :
    (decode_buf {} p).1 = header_size (length_encoding (p 0)) := by
  unfold decode_buf
  split
  · next hlzf => exact absurd hlzf h
  · rw [decode_buf_flat_size]

/-- The size that is made of a cut header is more than what is left of it. -/
theorem header_size_cut {bs pre : List UInt8} {p : Mem}
    (hsize : ∀ q : Mem, q.Starts bs → header_size (length_encoding (q 0)) = bs.length) (hp : Padded p pre)
    (hcut : Cut pre bs) : (pre.length : Int) < header_size (length_encoding (p 0)) := by
  cases pre with
  | nil =>
    rw [hp.zero 0 (Nat.le_refl 0)]
    decide
  | cons b pre =>
    obtain ⟨post, rfl⟩ := hcut.1
    have hlt := hcut.length_lt
    have hfirst := hsize (Mem.ofList ((b :: pre) ++ post) fun _ => 0) (Mem.ofList_starts _ _)
    have hbyte : p 0 = Mem.ofList ((b :: pre) ++ post) (fun _ => 0) 0 := (Mem.starts_cons.mp hp.starts).1
    rw [hbyte, hfirst]
    omega

theorem header_size_len (n : StoredLen) {q : Mem} (hq : q.Starts n.bytes) :
    header_size (length_encoding (q 0)) = n.bytes.length := by
  rw [← decode_buf_flat_size {} q, decode_buf_flat_len {} n hq]

theorem header_size_int (i : StoredInt) {q : Mem} (hq : q.Starts i.bytes) :
    header_size (length_encoding (q 0)) = i.bytes.length := by
  have hbyte : q 0 = i.form.code := (Mem.starts_cons.mp hq).1
  rw [hbyte, length_encoding_int, StoredInt.bytes, List.length_cons, le_bytes_length]
  cases i.form <;> rfl

/-- A header that is cut is no header or a longer one. -/
theorem decode_buf_cut (hdr : Header) {pre : List UInt8} {p : Mem} (hp : Padded p pre) (hcut : Cut pre hdr.bytes) :
    (decode_buf {} p).1 < 0 ∨ (pre.length : Int) < (decode_buf {} p).1 := by
  have hflat : ∀ bs, (∀ q : Mem, q.Starts bs → header_size (length_encoding (q 0)) = bs.length) → Cut pre bs →
      (pre.length : Int) < (decode_buf {} p).1 := by
    intro bs hsize hcut
    have hlt := header_size_cut hsize hp hcut
    rwa [decode_buf_size_flat]
    intro henc
    rw [henc] at hlt
    simp only [header_size] at hlt
    omega
  cases hdr with
  | plain n => exact .inr (hflat _ (fun _ => header_size_len n) hcut)
  | int i => exact .inr (hflat _ (fun _ => header_size_int i) hcut)
  | lzf zlen len =>
    rcases hcut.cons with rfl | ⟨pre, rfl, hrest⟩
    · have hzero : p 0 = 0 := hp.zero 0 (Nat.le_refl 0)
      rw [decode_buf_size_flat (by rw [hzero]; decide), hzero]
      exact .inr (by decide)
    · have henc : length_encoding (p 0) = .RDB_LZF := by
        rw [(Mem.starts_cons.mp hp.starts).1]
        rfl
      have hp₁ : Padded (p.add 1) pre := (show Padded p ([0xc3] ++ pre) from hp).add
      -- the compressed size and what follows it
      have hsizes : (pre.length : Int) < header_size (length_encoding ((p.add 1) 0)) +
          header_size (length_encoding ((p.add ((header_size (length_encoding ((p.add 1) 0))).toNat + 1)) 0)) := by
        rcases hrest.append with hzlen | ⟨pre, rfl, hlen⟩
        · have hlt := header_size_cut (fun _ => header_size_len zlen) hp₁ hzlen
          have hzero : (p.add ((header_size (length_encoding ((p.add 1) 0))).toNat + 1)) 0 = 0 :=
            hp.zero _ (by rw [List.length_cons]; omega)
          have hone : header_size (length_encoding 0) = 1 := rfl
          rw [hzero, hone]
          omega
        · have hz := header_size_len zlen (Mem.starts_append.mp hp₁.starts).1
          have hp₂ := hp₁.add
          rw [Mem.add_add, Nat.add_comm] at hp₂
          have hlt := header_size_cut (fun _ => header_size_len len) hp₂ hlen
          rw [hz, Int.toNat_natCast, List.length_append]
          omega
      unfold decode_buf
      rw [henc]
      dsimp only
      generalize hfirst : decode_buf_flat { is_lzf := true } (p.add 1) = r
      obtain ⟨sz, l⟩ := r
      obtain rfl : header_size (length_encoding ((p.add 1) 0)) = sz := by
        rw [← decode_buf_flat_size { is_lzf := true }, hfirst]
      simp only [Bool.false_eq_true, if_false]
      split
      · next hneg => exact .inl hneg
      · have hsecond := decode_buf_flat_size { l with zlen := l.len }
          (p.add ((header_size (length_encoding ((p.add 1) 0))).toNat + 1))
        split
        · exact .inl (show (-1 : Int) < 0 by decide)
        · rw [List.length_cons]
          right
          omega

end RdbLength

namespace RdbBufptr

/-- Where fewer bytes are left than a header may have, those that lack are looked at as zeros. -/
theorem On.look_padded {b : RdbBufptr} {c : Place} (h : b.On c) {pre : List UInt8} (hv : c.Views pre)
    (hlen : pre.length < MAX_RDB_HDRLEN) :
    ∃ p, b.look MAX_RDB_HDRLEN = (p, b) ∧ Padded p pre := by
  have hpop : ¬ (b.avail = 0 ∧ 0 < b.sav_avail) := by
    rw [h.sav_avail]
    omega
  have havail : b.avail = pre.length := h.avail.trans hv.1
  refine ⟨_, by rw [look, if_neg hpop], ⟨Mem.starts_congr hv.2 fun i hi => ?_, fun i hi => ?_⟩⟩
  · rw [if_pos ⟨by omega, by omega⟩, h.buf]
  · exact if_neg (by omega)

/-- A header that is cut is not read. -/
theorem At.decode_cut {b : RdbBufptr} {c : Place} (h : b.At c) (hdr : Header) {pre : List UInt8}
    (hv : c.Views pre) (hcut : Cut pre hdr.bytes) :
    ∃ e l b', ({} : RdbLength).decode b = (e, l, b') ∧ e ≠ .RDB_OK := by
  have hlen : pre.length < MAX_RDB_HDRLEN := Nat.lt_of_lt_of_le hcut.length_lt hdr.bytes_length.2
  -- what is looked at, and the cursor that leaves
  obtain ⟨p, b₀, hread, hp, havail⟩ : ∃ p b₀,
      (if MAX_RDB_HDRLEN ≤ b.avail then (b.buf.ptr.mem, b) else b.look MAX_RDB_HDRLEN) = (p, b₀) ∧
        Padded p pre ∧ b₀.avail = pre.length := by
    cases h with
    | main hon =>
      have havail : b.avail = pre.length := hon.avail.trans hv.1
      obtain ⟨p, hlook, hp⟩ := hon.look_padded hv hlen
      exact ⟨p, b, by rw [if_neg (by omega), hlook], hp, havail⟩
    | hopped havail hsav hleft _ =>
      have hon : b.pop.On c := hsav ▸ pop_on
      obtain ⟨p, hlook, hp⟩ := hon.look_padded hv hlen
      have hpop : b.look MAX_RDB_HDRLEN = b.pop.look MAX_RDB_HDRLEN := by
        have hstay : ¬ (b.pop.avail = 0 ∧ 0 < b.pop.sav_avail) := by
          rw [hon.sav_avail]
          omega
        rw [look, look, if_pos ⟨havail, hleft⟩, if_neg hstay]
      exact ⟨p, b.pop, by rw [if_neg (by rw [havail]; decide), hpop, hlook], hp, hon.avail.trans hv.1⟩
    | spent hc havail hsav =>
      obtain rfl : pre = [] := List.eq_nil_of_length_eq_zero (hv.1.symm.trans hc)
      have hpop : ¬ (b.avail = 0 ∧ 0 < b.sav_avail) := by omega
      refine ⟨_, b, by rw [if_neg (by rw [havail]; decide), look, if_neg hpop], ⟨rfl, fun i _ => ?_⟩, havail⟩
      exact if_neg (by omega)
  simp only [RdbLength.decode, hread]
  split
  · exact ⟨_, _, _, rfl, by decide⟩
  · next hneg =>
    have hlong := (RdbLength.decode_buf_cut hdr hp hcut).resolve_left hneg
    rw [incr_none (by omega)]
    exact ⟨_, _, _, rfl, by decide⟩

end RdbBufptr

end rdbparser
