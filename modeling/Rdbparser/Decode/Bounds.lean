import Rdbparser.Decode.Trailer

/-! The bytes the first `decode_hdr` reads to find the version and the crc, and what it leaves of the buffer. -/

namespace rdbparser

open RdbDecode DecodeProc

variable {E : Env}

namespace RdbDecode

/-- Where `parse_ver` reads. -/
def parse_ver_reads (buf : Mem) : List Nat → List Nat
  | [] => []
  | i :: is => i :: if buf i < 0x30 ∨ 0x39 < buf i then [] else parse_ver_reads buf is

/-- Where `decode_ver` reads. -/
def ver_reads (buf : Mem) (avail : Nat) : List Nat :=
  List.range 7 ++
    if buf.take 7 = magic then
      parse_ver_reads buf [5, 6, 7, 8] ++
        if ¬ (parse_ver buf [5, 6, 7, 8] 0).1 then []
        else (avail - 9) ::
          if buf (avail - 9) = 0xff then (List.range 8).map (avail - 8 + ·) else []
    else
      let ver := (buf (avail - 10)).toNat ||| ((buf (avail - 9)).toNat <<< 8)
      let nl := decide (ver ≠ 9 ∧ buf (avail - 1) = 0x0a)
      let off := if nl then 9 else 8
      [avail - 9, avail - 10] ++ (if ver ≠ 9 then [avail - 1] else []) ++
        (if nl then [avail - 10, sub64 avail 11] else []) ++ (List.range 8).map (avail - off + ·)

/-- Where `decode_trailer` reads: what the crc is of is read only where there is one. -/
def trailer_reads (s : St) : List Nat :=
  ver_reads s.bptr.buf.ptr.mem s.bptr.avail ++
    match decode_ver s with
    | ⟨.ok off, t, _⟩ => if t.dec.crc ≠ 0 then List.range (s.bptr.avail - off) else []
    | ⟨.error _, _, _⟩ => []

end RdbDecode

namespace RdbDecode

/-- The last byte is taken for a newline behind a dump. -/
def newline (buf : Mem) (avail : Nat) : Prop :=
  buf.take 7 ≠ magic ∧ (buf (avail - 10)).toNat ||| ((buf (avail - 9)).toNat <<< 8) ≠ 9 ∧ buf (avail - 1) = 0x0a

/-- The digits of a version are looked at in order up to the first that is none. -/
theorem parse_ver_reads_subset (buf : Mem) (is : List Nat) : parse_ver_reads buf is ⊆ is := by
  induction is with
  | nil => exact List.Subset.refl []
  | cons i is ih =>
    rw [parse_ver_reads]
    refine List.cons_subset_cons i ?_
    split
    · exact List.nil_subset is
    · exact ih

/-- All of these are inside the buffer, except the version in front of a newline. -/
theorem ver_reads_iff {buf : Mem} {avail : Nat} (havail : 10 ≤ avail) :
    (∀ i ∈ ver_reads buf avail, i < avail) ↔ ¬ (newline buf avail ∧ avail = 10) := by
  have hcrc : ∀ off, 8 ≤ off → off ≤ 9 → ∀ i ∈ (List.range 8).map (avail - off + ·), i < avail := by
    intro off hlo hhi i hi
    obtain ⟨j, hj, rfl⟩ := List.mem_map.mp hi
    have := List.mem_range.mp hj
    omega
  have hmemcmp : ∀ i ∈ List.range 7, i < avail := fun i hi => by
    have := List.mem_range.mp hi
    omega
  by_cases hmagic : buf.take 7 = magic
  · refine iff_of_true (fun i hi => ?_) fun h => h.1.1 hmagic
    rw [ver_reads, if_pos hmagic] at hi
    simp only [List.mem_append] at hi
    rcases hi with hi | hi | hi
    · exact hmemcmp i hi
    · have := parse_ver_reads_subset buf _ hi
      simp only [List.mem_cons, List.not_mem_nil, or_false] at this
      omega
    · split at hi
      · exact absurd hi List.not_mem_nil
      · rcases List.mem_cons.mp hi with rfl | hi
        · omega
        · split at hi
          · exact hcrc 8 (by decide) (by decide) i hi
          · exact absurd hi List.not_mem_nil
  · have hnl : newline buf avail ↔
        (buf (avail - 10)).toNat ||| ((buf (avail - 9)).toNat <<< 8) ≠ 9 ∧ buf (avail - 1) = 0x0a :=
      and_iff_right hmagic
    rw [ver_reads, if_neg hmagic, hnl]
    simp only [List.forall_mem_append]
    by_cases h : (buf (avail - 10)).toNat ||| ((buf (avail - 9)).toNat <<< 8) ≠ 9 ∧ buf (avail - 1) = 0x0a
    · simp only [h, ne_eq, not_false_eq_true, and_self, if_true, true_and, decide_true]
      constructor
      · rintro ⟨-, ⟨-, hver⟩, -⟩ rfl
        exact absurd (hver (sub64 10 11) (List.mem_cons_of_mem _ List.mem_cons_self)) (by decide)
      · intro hlong
        have hsub : sub64 avail 11 = avail - 11 := if_pos (by omega)
        refine ⟨hmemcmp, ⟨⟨?_, ?_⟩, ?_⟩, hcrc 9 (by decide) (by decide)⟩ <;>
          simp only [List.forall_mem_cons, List.not_mem_nil, false_imp_iff, implies_true, and_true, hsub] <;> omega
    · refine iff_of_true ?_ fun hboth => h hboth.1
      simp only [h, if_false, decide_false, Bool.false_eq_true]
      refine ⟨hmemcmp, ⟨⟨?_, ?_⟩, fun i hi => absurd hi List.not_mem_nil⟩, hcrc 8 (by decide) (by decide)⟩
      · simp only [List.forall_mem_cons, List.not_mem_nil, false_imp_iff, implies_true, and_true]
        omega
      · intro i hi
        split at hi
        · exact List.mem_singleton.mp hi ▸ by omega
        · exact absurd hi List.not_mem_nil

/-- Where the crc is, and that nothing is taken off the buffer yet. -/
theorem decode_ver_off (s : St) : ∃ res dec, decode_ver s = ⟨res, ⟨dec, s.bptr⟩, []⟩ ∧
    ∀ off, res = .ok off → off = 8 ∨ off = 9 ∧ newline s.bptr.buf.ptr.mem s.bptr.avail := by
  by_cases hmagic : s.bptr.buf.ptr.mem.take 7 = magic
  · rw [decode_ver, Proc.read_bind_run]
    simp only [if_pos hmagic, set_dec, Proc.update_bind_run]
    split
    · refine ⟨_, _, rfl, fun off h => ?_⟩
      cases h
    · split
      · exact ⟨_, _, rfl, fun off h => .inl (Except.ok.inj h).symm⟩
      · exact ⟨_, _, rfl, fun off h => .inl (Except.ok.inj h).symm⟩
  · rw [decode_ver, Proc.read_bind_run]
    simp only [if_neg hmagic, set_dec, Proc.update_bind_run]
    refine ⟨_, _, rfl, fun off h => ?_⟩
    obtain rfl := Except.ok.inj h
    by_cases hnl : (s.bptr.buf.ptr.mem (s.bptr.avail - 10)).toNat |||
        ((s.bptr.buf.ptr.mem (s.bptr.avail - 9)).toNat <<< 8) ≠ 9 ∧ s.bptr.buf.ptr.mem (s.bptr.avail - 1) = 0x0a
    · exact .inr ⟨if_pos (decide_eq_true hnl), hmagic, hnl⟩
    · exact .inl (if_neg (by rw [decide_eq_false hnl]; exact Bool.false_ne_true))

/-- The digits of the version are found where `parse_ver` reads. -/
theorem parse_ver_congr {buf buf' : Mem} {is : List Nat} {ver : Nat}
    (h : ∀ i ∈ parse_ver_reads buf is, buf' i = buf i) : parse_ver buf' is ver = parse_ver buf is ver := by
  induction is generalizing ver with
  | nil => rfl
  | cons i is ih =>
    rw [parse_ver_reads, List.forall_mem_cons] at h
    rw [parse_ver, parse_ver, h.1]
    split
    · rfl
    · next hdigit =>
      rw [if_neg hdigit] at h
      exact ih h.2

theorem take_congr {p q : Mem} {off n : Nat} (h : ∀ i ∈ (List.range n).map (off + ·), q i = p i) :
    (q.add off).take n = (p.add off).take n :=
  List.map_congr_left fun _ hi => h _ (List.mem_map_of_mem hi)

/-- Bytes elsewhere do not matter to what `decode_ver` finds. -/
theorem decode_ver_congr {dec : RdbDecode} {b : RdbBufptr} {buf : Cursor}
    (h : ∀ i ∈ ver_reads b.buf.ptr.mem b.avail, buf.ptr.mem i = b.buf.ptr.mem i) :
    (decode_ver ⟨dec, { b with buf := buf }⟩).res = (decode_ver ⟨dec, b⟩).res ∧
      (decode_ver ⟨dec, { b with buf := buf }⟩).st.dec = (decode_ver ⟨dec, b⟩).st.dec := by
  have hmemcmp : buf.ptr.mem.take 7 = b.buf.ptr.mem.take 7 := by
    refine List.map_congr_left fun i hi => h i ?_
    rw [ver_reads]
    exact List.mem_append_left _ hi
  unfold ver_reads at h
  simp only [List.forall_mem_append] at h
  unfold decode_ver
  simp only [Proc.read_bind_run, hmemcmp]
  by_cases hmagic : b.buf.ptr.mem.take 7 = magic
  · simp only [if_pos hmagic, List.forall_mem_append] at h
    obtain ⟨-, hdigits, hcrc⟩ := h
    simp only [if_pos hmagic, set_dec, Proc.update_bind_run, parse_ver_congr hdigits]
    by_cases hver : (parse_ver b.buf.ptr.mem [5, 6, 7, 8] 0).1 = true
    · simp only [hver, not_true_eq_false, if_false, List.forall_mem_cons] at hcrc ⊢
      rw [hcrc.1]
      by_cases hend : b.buf.ptr.mem (b.avail - 9) = 0xff
      · rw [if_pos hend] at hcrc ⊢
        rw [if_pos hend, take_congr hcrc.2]
        exact ⟨rfl, rfl⟩
      · rw [if_neg hend, if_neg hend]
        exact ⟨rfl, rfl⟩
    · simp only [hver]
      exact ⟨rfl, rfl⟩
  · simp only [if_neg hmagic, List.forall_mem_append] at h
    obtain ⟨-, ⟨⟨⟨hver, hlast⟩, hnl⟩, hcrc⟩⟩ := h
    have h9 := hver (b.avail - 9) List.mem_cons_self
    have h10 := hver (b.avail - 10) (List.mem_cons_of_mem _ List.mem_cons_self)
    simp only [if_neg hmagic, set_dec, Proc.update_bind_run, h9, h10]
    by_cases hnine : (b.buf.ptr.mem (b.avail - 10)).toNat ||| ((b.buf.ptr.mem (b.avail - 9)).toNat <<< 8) = 9
    · simp only [hnine, ne_eq, not_true_eq_false, false_and, decide_false, Bool.false_eq_true, if_false] at hcrc ⊢
      rw [take_congr hcrc]
      exact ⟨rfl, rfl⟩
    · rw [if_pos hnine] at hlast
      rw [hlast (b.avail - 1) List.mem_cons_self]
      by_cases hnewline : b.buf.ptr.mem (b.avail - 1) = 0x0a
      · simp only [hnine, hnewline, ne_eq, not_false_eq_true, and_self, decide_true, if_true] at hcrc hnl ⊢
        rw [take_congr hcrc, hnl (sub64 b.avail 11) (List.mem_cons_of_mem _ List.mem_cons_self)]
        exact ⟨rfl, rfl⟩
      · simp only [hnewline, and_false, decide_false, Bool.false_eq_true, if_false] at hcrc ⊢
        rw [take_congr hcrc]
        exact ⟨rfl, rfl⟩

theorem trailer_reads_eq (s : St) : trailer_reads s = ver_reads s.bptr.buf.ptr.mem s.bptr.avail ++
    match (decode_ver s).res with
    | .ok off => if (decode_ver s).st.dec.crc ≠ 0 then List.range (s.bptr.avail - off) else []
    | .error _ => [] := by
  unfold trailer_reads
  rcases decode_ver s with ⟨_ | _, _, _⟩ <;> rfl

/-- The output does not matter to it. -/
theorem decode_ver_out (s : St) (out : Option Dest) :
    (decode_ver { s with dec.out := out }).res = (decode_ver s).res ∧
      (decode_ver { s with dec.out := out }).st.dec.crc = (decode_ver s).st.dec.crc := by
  unfold decode_ver
  simp only [Proc.read_bind_run, set_dec]
  split
  · simp only [Proc.update_bind_run]
    split
    · exact ⟨rfl, rfl⟩
    · split <;> exact ⟨rfl, rfl⟩
  · exact ⟨rfl, rfl⟩

theorem trailer_reads_out (s : St) (out : Option Dest) : trailer_reads { s with dec.out := out } = trailer_reads s := by
  rw [trailer_reads_eq, trailer_reads_eq, (decode_ver_out s out).1, (decode_ver_out s out).2]

theorem skip_dec (n : Nat) (s : St) : (skip n s).st.dec = s.dec := by
  rw [skip, Proc.update_run]
  dsimp only
  split <;> rfl

/-- Bytes elsewhere do not matter to what `decode_trailer` finds. -/
theorem decode_trailer_congr {dec : RdbDecode} {b : RdbBufptr} (buf : Cursor) (hcrc : dec.crc = 0)
    (hplace : buf.blk = b.buf.blk ∧ buf.pos = b.buf.pos)
    (h : ∀ i ∈ trailer_reads ⟨dec, b⟩, buf.ptr.mem i = b.buf.ptr.mem i) :
    (decode_trailer E ⟨dec, { b with buf := buf }⟩).res = (decode_trailer E ⟨dec, b⟩).res ∧
      (decode_trailer E ⟨dec, { b with buf := buf }⟩).st.dec = (decode_trailer E ⟨dec, b⟩).st.dec := by
  have hdec : ({ dec with crc := 0 } : RdbDecode) = dec := hcrc ▸ rfl
  rw [trailer_reads_eq] at h
  obtain ⟨hres, hst⟩ := @decode_ver_congr dec b buf fun i hi => h i (List.mem_append_left _ hi)
  obtain ⟨res, d, hver, -⟩ := decode_ver_off ⟨dec, b⟩
  obtain ⟨res', d', hver', -⟩ := decode_ver_off ⟨dec, { b with buf := buf }⟩
  rw [hver, hver'] at hres hst
  dsimp only at hres hst
  subst hres hst
  simp only [decode_trailer, set_dec, Proc.update_bind_run, Proc.read_bind_run, hdec]
  by_cases hshort : b.avail < 10
  · simp only [if_pos hshort]
    exact ⟨rfl, rfl⟩
  simp only [if_neg hshort]
  cases res' with
  | error e =>
    rw [Proc.bind_error hver, Proc.bind_error hver']
    exact ⟨rfl, rfl⟩
  | ok off =>
    rw [Proc.bind_quiet hver, Proc.bind_quiet hver', Proc.read_bind_run, Proc.read_bind_run]
    dsimp only
    -- what the crc is of is looked at only where there is one
    have hcond : (d'.crc ≠ 0 ∧ jones_crc64 (E.addr buf.blk + buf.pos) 0 (buf.ptr.mem.take (b.avail - off)) ≠ d'.crc ∧
          ¬ d'.is_rdb_file = true) ↔
        (d'.crc ≠ 0 ∧ jones_crc64 (E.addr b.buf.blk + b.buf.pos) 0 (b.buf.ptr.mem.take (b.avail - off)) ≠ d'.crc ∧
          ¬ d'.is_rdb_file = true) := by
      refine and_congr_right fun hne => ?_
      have htake : buf.ptr.mem.take (b.avail - off) = b.buf.ptr.mem.take (b.avail - off) := by
        refine Mem.take_congr fun i hi => h i (List.mem_append_right _ ?_)
        simp only [hver, if_pos hne]
        exact List.mem_range.mpr hi
      rw [hplace.1, hplace.2, htake]
    simp only [hcond]
    split
    · exact ⟨rfl, rfl⟩
    split
    · exact ⟨rfl, rfl⟩
    · exact ⟨rfl, (skip_dec _ _).trans (skip_dec _ ⟨d', b⟩).symm⟩

/-- What `decode_trailer` leaves of the buffer. -/
theorem decode_trailer_bptr (s : St) (havail : 10 ≤ s.bptr.avail) : (decode_trailer E s).st.bptr = s.bptr ∨
    (∃ p, s.bptr.incr (5 + 4) = some (p, (decode_trailer E s).st.bptr)) ∨
    ∃ off, (off = 8 ∨ off = 9 ∧ newline s.bptr.buf.ptr.mem s.bptr.avail) ∧
      (decode_trailer E s).st.bptr = { s.bptr with avail := sub64 s.bptr.avail (off + 2) } := by
  obtain ⟨res, dec, hver, hoff⟩ := decode_ver_off { s with dec.crc := 0 }
  rw [decode_trailer, set_dec, Proc.update_bind_run, Proc.read_bind_run, if_neg (Nat.not_lt.mpr havail)]
  cases res with
  | error e =>
    rw [Proc.bind_error hver]
    exact .inl rfl
  | ok off =>
    rw [Proc.bind_quiet hver, Proc.read_bind_run]
    dsimp only
    split
    · exact .inl rfl
    · split
      · exact .inr (.inr ⟨off, hoff off rfl, rfl⟩)
      · rw [skip, Proc.update_run]
        dsimp only
        rw [RdbBufptr.incr_some (by omega)]
        exact .inr (.inl ⟨_, rfl⟩)

end RdbDecode

/-- At most `n` bytes are left in the buffer, and in the one that is saved. -/
def RdbBufptr.Within (n : Nat) (b : RdbBufptr) : Prop := b.avail ≤ n ∧ b.sav_avail ≤ n

/-- At most `n` bytes are left in the buffer, unless it is one that a value was decompressed to. -/
def RdbBufptr.Left (n : Nat) (b : RdbBufptr) : Prop := (∃ id, b.buf.blk = .heap id) ∨ b.avail ≤ n

namespace RdbBufptr.Within

variable {n : Nat} {b b' : RdbBufptr}

theorem incr (h : b.Within n) {m : Nat} {p : Ptr} (hincr : b.incr m = some (p, b')) : b'.Within n := by
  unfold RdbBufptr.incr at hincr
  split at hincr
  · exact nomatch hincr
  · obtain ⟨-, rfl⟩ := Prod.mk.inj (Option.some.inj hincr)
    exact ⟨Nat.le_trans (Nat.sub_le _ _) h.1, h.2⟩

theorem look (h : b.Within n) (m : Nat) : (b.look m).2.Within n := by
  unfold RdbBufptr.look
  dsimp only
  split
  · exact ⟨h.2, Nat.zero_le n⟩
  · exact h

/-- Reading a length leaves no more bytes than there were, in the buffer and behind the saved place. -/
theorem decode (h : b.Within n) (l : RdbLength) : (l.decode b).2.2.Within n := by
  unfold RdbLength.decode
  generalize hread : (if MAX_RDB_HDRLEN ≤ b.avail then (b.buf.ptr.mem, b) else b.look MAX_RDB_HDRLEN) = r
  have h₀ : r.2.Within n := by
    rw [← hread]
    split
    · exact h
    · exact h.look _
  dsimp only
  split
  · exact h₀
  · cases hincr : r.2.incr (l.decode_buf r.1).1.toNat with
    | none => exact h₀
    | some r' => exact h₀.incr hincr

/-- Behind what is decompressed the rest of the buffer is saved. -/
theorem decompress (h : b.Within n) {zlen len : Nat} (hrun : b.decompress E zlen len = some (true, b')) :
    b'.avail = len ∧ b'.sav_avail ≤ n ∧ ∃ id, b'.buf.blk = .heap id := by
  cases RdbBufptr.decompressed hrun with
  | opened hincr mem =>
    have h₁ := h.incr hincr
    refine ⟨rfl, ?_, _, rfl⟩
    dsimp only
    split
    · exact h₁.1
    · exact h₁.2

theorem decompress_fails (h : b.Within n) {zlen len : Nat} (hrun : b.decompress E zlen len = some (false, b')) :
    b'.Within n := by
  cases RdbBufptr.decompressed hrun with
  | short => exact h
  | refused hincr => exact ⟨(h.incr hincr).1, (h.incr hincr).2⟩

/-- A decompression buffer is left at its end. -/
theorem consume (h : b.Within n) (l : RdbLength) : (l.consume E b).2.Within n := by
  unfold RdbLength.consume
  split
  · exact h
  · by_cases hlzf : l.is_lzf = true
    · rw [if_pos hlzf]
      cases hrun : b.decompress E l.zlen l.len with
      | none => exact h
      | some r =>
        obtain ⟨ok, b₁⟩ := r
        cases ok with
        | false => exact h.decompress_fails hrun
        | true =>
          obtain ⟨havail, hsav, -⟩ := h.decompress hrun
          dsimp only
          rw [incr_some havail.ge]
          exact ⟨by simp only [havail]; omega, hsav⟩
    · rw [if_neg hlzf]
      dsimp only
      cases hincr : b.incr l.len with
      | none => exact h
      | some r => exact h.incr hincr

end RdbBufptr.Within

/-- No buffer gets more than `n` bytes. -/
def KeepsWithin (n : Nat) (s : St) (_ : List Event) (t : St) : Prop := s.bptr.Within n → t.bptr.Within n

namespace KeepsWithin

variable {n : Nat}

theorem chains : Proc.Chains (KeepsWithin n) where
  refl _ := id
  trans h h' := h' ∘ h

theorem skip (m : Nat) : (DecodeProc.skip m).Follows (KeepsWithin n) := by
  intro s h
  rw [DecodeProc.skip, Proc.update_run]
  dsimp only
  cases hincr : s.bptr.incr m with
  | none => exact h
  | some r => exact h.incr hincr

theorem incr (m : Nat) : (DecodeProc.incr m).Follows (KeepsWithin n) := by
  intro s h
  unfold DecodeProc.incr
  cases hincr : s.bptr.incr m with
  | none => exact h
  | some r => exact h.incr hincr

theorem decode (l : RdbLength) : (DecodeProc.decode l).Follows (KeepsWithin n) := by
  intro s h
  have h' := h.decode l
  unfold DecodeProc.decode
  obtain ⟨err, l', b, hrun⟩ : ∃ err l' b, l.decode s.bptr = (err, l', b) := ⟨_, _, _, rfl⟩
  rw [hrun] at h' ⊢
  cases err <;> exact h'

theorem consume (l : RdbLength) : (DecodeProc.consume E l).Follows (KeepsWithin n) :=
  fun _ h => h.consume l

/-- All steps of a header keep within the bytes there were. -/
theorem steps : HdrSteps E (fun _ => true) (KeepsWithin n) where
  chains := chains
  incr := incr
  skip := skip
  decode := decode
  call _ _ := id
  consume := consume
  start_type _ _ := id
  header _ _ _ _ := id

end KeepsWithin

section decode_hdr

variable {filter : Option (RdbVal → Bool)} {bs : List UInt8} {past : Mem}

/-- What the first `decode_hdr` reads in front of the records is inside the input, and no other byte matters to
what it finds there; it leaves no more bytes than there were: not when the trailer is taken off, and not in the
end, where the value may have been decompressed. -/
structure StaysInside (E : Env) (filter : Option (RdbVal → Bool)) (bs : List UInt8) (past : Mem) : Prop where
  reads : ∀ i ∈ trailer_reads (St.map filter bs past), i < bs.length
  alone : ∀ mem : Mem, (∀ i ∈ trailer_reads (St.map filter bs past), mem i = Mem.ofList bs past i) →
    (decode_trailer E { St.start filter ⟨.input, mem, 0⟩ bs.length with dec.out := some .data_out }).res =
      (decode_trailer E { St.map filter bs past with dec.out := some .data_out }).res ∧
    (decode_trailer E { St.start filter ⟨.input, mem, 0⟩ bs.length with dec.out := some .data_out }).st.dec =
      (decode_trailer E { St.map filter bs past with dec.out := some .data_out }).st.dec
  trailer : (decode_trailer E { St.map filter bs past with dec.out := some .data_out }).st.bptr.avail ≤ bs.length
  left : (decode_hdr E (St.map filter bs past)).st.bptr.Left bs.length

/-- The trailer is looked at inside of the bytes there are, unless there are ten and the last is taken for a newline.
-/
theorem trailer_reads_iff {s : St} (havail : 10 ≤ s.bptr.avail) : (∀ i ∈ trailer_reads s, i < s.bptr.avail) ↔
    ¬ (newline s.bptr.buf.ptr.mem s.bptr.avail ∧ s.bptr.avail = 10) := by
  rw [← ver_reads_iff havail, trailer_reads, List.forall_mem_append]
  refine and_iff_left fun i hi => ?_
  split at hi
  · split at hi
    · have := List.mem_range.mp hi
      omega
    · exact absurd hi List.not_mem_nil
  · exact absurd hi List.not_mem_nil

/-- Without a newline behind ten bytes the trailer is not larger than the buffer. -/
theorem decode_trailer_within {s : St} (havail : 10 ≤ s.bptr.avail) (hsav : s.bptr.sav_avail = 0)
    (h : ¬ (newline s.bptr.buf.ptr.mem s.bptr.avail ∧ s.bptr.avail = 10)) :
    (decode_trailer E s).st.bptr.Within s.bptr.avail := by
  have hwithin : s.bptr.Within s.bptr.avail := ⟨Nat.le_refl _, hsav ▸ Nat.zero_le _⟩
  rcases decode_trailer_bptr (E := E) s havail with hb | ⟨p, hincr⟩ | ⟨off, hoff, hb⟩
  · rw [hb]
    exact hwithin
  · exact hwithin.incr hincr
  · have hle : off + 2 ≤ s.bptr.avail := by
      rcases hoff with rfl | ⟨rfl, hnl⟩
      · exact havail
      · have hne : s.bptr.avail ≠ 10 := fun hten => h ⟨hnl, hten⟩
        omega
    rw [hb, sub64, if_pos hle]
    exact ⟨Nat.sub_le _ _, hwithin.2⟩

/-- Behind it the cursor is in a decompressed buffer, or has no more bytes left than there were. Nothing is assumed of
what liblzf makes of the value. -/
theorem decode_unzip_left {n : Nat} {s : St} (h : s.bptr.Within n) : (decode_unzip E s).st.bptr.Left n := by
  rw [decode_unzip, Proc.read_bind_run]
  split
  · unfold DecodeProc.decompress
    cases hrun : s.bptr.decompress E s.dec.rlen.zlen s.dec.rlen.len with
    | none => exact .inr h.1
    | some r =>
      obtain ⟨ok, b'⟩ := r
      cases ok with
      | true => exact .inl (h.decompress hrun).2.2
      | false => exact .inr (h.decompress_fails hrun).1
  · exact .inr h.1

/-- What is left behind the header of a record. -/
theorem decode_record_left {n : Nat} {t : St} (h : t.bptr.Within n) : ((Proc.read >>= fun t : St =>
    (if t.dec.is_rdb_file then decode_meta_loop E (t.bptr.avail + t.bptr.sav_avail) else pure ()) >>=
      fun _ => decode_type_key E >>= fun _ => decode_unzip E) t).st.bptr.Left n := by
  rw [Proc.read_bind_run, ← Proc.bind_assoc]
  have hkey : Proc.Follows (KeepsWithin n) (ε := RdbErrCode) ((if t.dec.is_rdb_file = true then
      decode_meta_loop E (t.bptr.avail + t.bptr.sav_avail) else pure ()) >>= fun _ => decode_type_key E) :=
    .bind KeepsWithin.chains (.ite (KeepsWithin.steps.decode_meta_loop (fun _ _ => rfl) _)
      (.pure KeepsWithin.chains _)) fun _ =>
      KeepsWithin.steps.decode_type_key
  have hwithin := hkey t h
  rcases Proc.bind_run ((if t.dec.is_rdb_file = true then decode_meta_loop E (t.bptr.avail + t.bptr.sav_avail)
      else pure ()) >>= fun _ => decode_type_key E) (fun _ => decode_unzip E) t with
    ⟨e, t', o, hrun, hbind⟩ | ⟨u, t', o, hrun, hbind⟩
  · rw [hrun] at hwithin
    rw [hbind]
    exact .inr hwithin.1
  · rw [hrun] at hwithin
    rw [hbind]
    exact decode_unzip_left hwithin

/-- The first `decode_hdr` stays inside unless the input is ten bytes and the last is taken for a newline behind
a dump, in front of which there are too few for the version and the crc. It rejects shorter inputs itself;
nothing is assumed of the bytes, nor of the memory behind them. -/
theorem decode_hdr_inside_iff (hlen : 10 ≤ bs.length) :
    StaysInside E filter bs past ↔ ¬ (newline (Mem.ofList bs past) bs.length ∧ bs.length = 10) := by
  have havail : 10 ≤ (St.map filter bs past).bptr.avail := hlen
  have hreads := trailer_reads_iff havail
  rw [St.map_mem, St.map_avail] at hreads
  refine ⟨fun h => hreads.mp h.reads, fun h => ?_⟩
  have htrailer : (decode_trailer E { St.map filter bs past with dec.out := some .data_out }).st.bptr.Within
      bs.length := by
    refine decode_trailer_within (s := { St.map filter bs past with dec.out := some .data_out }) havail rfl ?_
    dsimp only
    rw [St.map_mem, St.map_avail]
    exact h
  refine ⟨hreads.mpr h, fun mem hmem => ?_, htrailer.1, ?_⟩
  · have hall : ∀ i ∈ trailer_reads { St.map filter bs past with dec.out := some .data_out },
        (⟨.input, mem, 0⟩ : Cursor).ptr.mem i = (St.map filter bs past).bptr.buf.ptr.mem i := by
      rw [trailer_reads_out, St.map_mem]
      simpa [Cursor.ptr] using hmem
    exact decode_trailer_congr (b := (St.map filter bs past).bptr) ⟨.input, mem, 0⟩ rfl ⟨rfl, rfl⟩ hall
  rw [decode_hdr_fresh rfl rfl rfl]
  rcases Proc.bind_run (decode_trailer E) (fun _ => Proc.read >>= fun t =>
      (if t.dec.is_rdb_file then decode_meta_loop E (t.bptr.avail + t.bptr.sav_avail) else pure ()) >>=
        fun _ => decode_type_key E >>= fun _ => decode_unzip E)
      { St.map filter bs past with dec.out := some .data_out } with
    ⟨e, t, o, hrun, hbind⟩ | ⟨u, t, o, hrun, hbind⟩
  · rw [hrun] at htrailer
    rw [hbind]
    exact .inr htrailer.1
  · rw [hrun] at htrailer
    rw [hbind]
    exact decode_record_left htrailer

/-- The string "a" as a dump of version 9. -/
theorem decode_hdr_inside_letter : StaysInside Env.literal none
    [0x00, 0x01, 0x61, 0x09, 0x00, 0x6f, 0x0c, 0xbe, 0x57, 0xdb, 0xb0, 0x1e, 0x05] 0 :=
  (decode_hdr_inside_iff (by decide)).mpr fun h => absurd h.2 (by decide)

/-- Nine zeros and a newline. -/
theorem newline_before_input : ¬ ∀ (E : Env) (filter : Option (RdbVal → Bool)) (bs : List UInt8) (past : Mem),
    10 ≤ bs.length → StaysInside E filter bs past := by
  intro h
  have hread := (h Env.literal none (List.replicate 9 0 ++ [0x0a]) 0 (by decide)).reads (2 ^ 64 - 1) (by decide +kernel)
  exact absurd hread (by decide)

end decode_hdr

end rdbparser
