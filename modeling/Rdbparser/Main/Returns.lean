import Rdbparser.Decode.Bounds
import Rdbparser.Main

namespace rdbparser

open RdbDecode

variable {E : Env}

namespace RdbBufptr

/-- The cursor is in the main buffer, and `offset` counts the bytes in front of it. -/
def InMain (mem : Mem) (b : RdbBufptr) : Prop := b.buf = ⟨.input, mem, b.offset⟩

/-- The bytes of the main buffer that can still be read: those in front of the cursor, or behind the
text it is in. -/
def main_left (b : RdbBufptr) : Nat :=
  if b.buf.blk = .input then b.avail else if b.sav.blk = .input then b.sav_avail else 0

/-- The bytes of the text the cursor is in that are not read. -/
def text_left (b : RdbBufptr) : Nat := if b.buf.blk = .input then 0 else b.avail

/-- No text has been decompressed, or the last one is read to its end and the main buffer goes on. -/
def Returns (b : RdbBufptr) : Prop := b.alloced_mem = [] ∨ (b.text_left = 0 ∧ 0 < b.main_left)

/-- Where the cursor or the saved place is in the main buffer its offset is right, a place is saved only
where bytes are left, and the cursor leaves the main buffer by way of `decompress` only. -/
structure Tracks (mem : Mem) (b : RdbBufptr) : Prop where
  buf : b.buf.blk = .input → b.InMain mem ∧ b.sav_avail = 0
  sav : b.sav.blk = .input → b.sav = ⟨.input, mem, b.sav_offset⟩ ∧ 0 < b.sav_avail
  alloced : b.alloced_mem = [] → b.buf.blk = .input

variable {mem : Mem} {b b' : RdbBufptr}

/-- Taking bytes keeps track of the two places. -/
theorem Tracks.incr (h : b.Tracks mem) {n : Nat} {p : Ptr} (hincr : b.incr n = some (p, b')) :
    b'.Tracks mem := by
  unfold RdbBufptr.incr at hincr
  split at hincr
  · exact nomatch hincr
  · obtain ⟨-, rfl⟩ := Prod.mk.inj (Option.some.inj hincr)
    refine ⟨fun hblk => ?_, h.sav, h.alloced⟩
    obtain ⟨hmain, hsav⟩ := h.buf hblk
    refine ⟨?_, hsav⟩
    rw [InMain] at hmain ⊢
    rw [hmain]
    rfl

theorem Tracks.pop (h : b.Tracks mem) (halloced : b.alloced_mem ≠ []) : b.pop.Tracks mem :=
  ⟨fun hblk => ⟨(h.sav hblk).1, rfl⟩, fun hblk => (nomatch hblk), fun hnil => absurd hnil halloced⟩

/-- Looking ahead goes back to the main buffer where another is used up, and keeps track. -/
theorem Tracks.look (h : b.Tracks mem) (n : Nat) : (b.look n).2.Tracks mem := by
  unfold RdbBufptr.look
  dsimp only
  split
  · next hpop =>
    refine h.pop fun hnil => ?_
    rw [(h.buf (h.alloced hnil)).2] at hpop
    exact Nat.lt_irrefl 0 hpop.2
  · exact h

/-- So does opening a blob: the place behind it is the one that is saved, if bytes are left there. -/
theorem Tracks.decompress (h : b.Tracks mem) {zlen len : Nat} {more : Bool}
    (hrun : b.decompress E zlen len = some (more, b')) : b'.Tracks mem := by
  cases RdbBufptr.decompressed hrun with
  | short => exact h
  | refused hincr =>
    have h₁ := h.incr hincr
    exact ⟨h₁.buf, h₁.sav, h₁.alloced⟩
  | opened hincr text =>
    have h₁ := h.incr hincr
    refine ⟨fun hblk => (by cases hblk), ?_, fun hnil => (by cases hnil)⟩
    dsimp only
    split
    · next havail => exact fun hblk => ⟨(h₁.buf hblk).1, havail⟩
    · exact h₁.sav

/-- So does reading a length, which goes back to the main buffer where another is used up. -/
theorem Tracks.decode (h : b.Tracks mem) (l : RdbLength) : (l.decode b).2.2.Tracks mem := by
  unfold RdbLength.decode
  generalize hread : (if MAX_RDB_HDRLEN ≤ b.avail then (b.buf.ptr.mem, b) else b.look MAX_RDB_HDRLEN) = r
  have h₀ : r.2.Tracks mem := by
    rw [← hread]
    split
    · exact h
    · exact h.look _
  dsimp only
  split
  · exact h₀
  · cases hincr : r.2.incr (l.decode_buf r.1).1.toNat with
    | none => exact h₀
    | some r' => exact h₀.incr hincr

/-- So does taking a string, compressed or not. -/
theorem Tracks.consume (h : b.Tracks mem) (l : RdbLength) : (l.consume E b).2.Tracks mem := by
  unfold RdbLength.consume
  split
  · exact h
  · by_cases hlzf : l.is_lzf = true
    · rw [if_pos hlzf]
      cases hrun : b.decompress E l.zlen l.len with
      | none => exact h
      | some r =>
        obtain ⟨ok, b₁⟩ := r
        have h₁ := h.decompress hrun
        cases ok with
        | false => exact h₁
        | true =>
          dsimp only
          cases hincr : b₁.incr l.len with
          | none => exact h₁
          | some r => exact h₁.incr hincr
    · rw [if_neg hlzf]
      dsimp only
      cases hincr : b.incr l.len with
      | none => exact h
      | some r => exact h.incr hincr

/-- So does looking for the end of a module. -/
theorem Tracks.module_scan (h : b.Tracks mem) (fuel : Nat) : (RdbDecode.module_scan fuel b).Tracks mem := by
  induction fuel generalizing b with
  | zero => exact h
  | succ fuel ih =>
    unfold RdbDecode.module_scan
    split
    · exact h
    · next hincr =>
      split
      · exact h.incr hincr
      · exact ih (h.incr hincr)

theorem InMain.blk (h : b.InMain mem) : b.buf.blk = .input := by
  rw [h]

/-- The cursor returns to the main buffer if and only if that can be told from what is left. -/
theorem Tracks.free_alloced_iff (h : b.Tracks mem) : b.free_alloced.InMain mem ↔ b.Returns := by
  unfold free_alloced Returns
  by_cases halloced : b.alloced_mem = []
  · rw [if_pos halloced]
    exact ⟨fun _ => .inl halloced, fun _ => (h.buf (h.alloced halloced)).1⟩
  · rw [if_neg halloced, or_iff_right halloced]
    dsimp only
    by_cases hblk : b.buf.blk = .input
    · rw [text_left, main_left, if_pos hblk, if_pos hblk]
      obtain ⟨hmain, hsav⟩ := h.buf hblk
      split
      · next havail =>
        -- the saved place has been used up on the way back
        refine ⟨fun hpop => ?_, fun hleft => absurd havail (Nat.ne_of_gt hleft.2)⟩
        have hpos := (h.sav hpop.blk).2
        omega
      · next havail => exact ⟨fun _ => ⟨rfl, Nat.pos_of_ne_zero havail⟩, fun _ => hmain⟩
    · rw [text_left, main_left, if_neg hblk, if_neg hblk]
      split
      · next havail =>
        constructor
        · intro hpop
          have hsav : b.sav.blk = .input := hpop.blk
          rw [if_pos hsav]
          exact ⟨havail, (h.sav hsav).2⟩
        · intro hleft
          split at hleft
          · next hsav => exact (h.sav hsav).1
          · exact absurd hleft.2 (Nat.lt_irrefl 0)
      · next havail => exact ⟨fun hstay => absurd hstay.blk hblk, fun hleft => absurd hleft.1 havail⟩

/-- What a record finds: the cursor is in the main buffer, and no text and no place is kept. -/
structure AtRest (mem : Mem) (b : RdbBufptr) : Prop where
  main : b.InMain mem
  sav_avail : b.sav_avail = 0
  sav : b.sav.blk ≠ .input
  alloced : b.alloced_mem = []

theorem AtRest.tracks (h : b.AtRest mem) : b.Tracks mem :=
  ⟨fun _ => ⟨h.main, h.sav_avail⟩, fun hblk => absurd hblk h.sav, fun _ => h.main.blk⟩

/-- What is kept track of is found at rest behind `free_alloced`, if the cursor returns to the main buffer by then. -/
theorem Tracks.free_alloced (h : b.Tracks mem) (hret : b.Returns) : b.free_alloced.AtRest mem := by
  have hmain := h.free_alloced_iff.mpr hret
  have htracks : b.free_alloced.Tracks mem := by
    have hblk := hmain.blk
    unfold RdbBufptr.free_alloced at hblk ⊢
    split
    · exact h
    · next halloced =>
      rw [if_neg halloced] at hblk
      dsimp only at hblk ⊢
      split
      · next havail =>
        rw [if_pos havail] at hblk
        exact ⟨fun hin => ⟨(h.sav hin).1, rfl⟩, fun hin => (nomatch hin), fun _ => hblk⟩
      · next havail =>
        rw [if_neg havail] at hblk
        exact ⟨h.buf, h.sav, fun _ => hblk⟩
  have hsav := (htracks.buf hmain.blk).2
  refine ⟨hmain, hsav, fun hin => ?_, b.free_alloced_alloced_mem⟩
  exact absurd hsav (Nat.ne_of_gt (htracks.sav hin).2)

end RdbBufptr

/-- The buffer is tracked. -/
def KeepsTrack (mem : Mem) (s : St) (_ : List Event) (t : St) : Prop :=
  s.bptr.Tracks mem → t.bptr.Tracks mem

namespace KeepsTrack

variable {mem : Mem}

theorem chains : Proc.Chains (KeepsTrack mem) where
  refl _ := id
  trans h h' := h' ∘ h

theorem incr (n : Nat) : (DecodeProc.incr n).Follows (KeepsTrack mem) := by
  intro s h
  unfold DecodeProc.incr
  cases hincr : s.bptr.incr n with
  | none => exact h
  | some r => exact h.incr hincr

theorem skip (n : Nat) : (DecodeProc.skip n).Follows (KeepsTrack mem) := by
  intro s h
  rw [DecodeProc.skip, Proc.update_run]
  dsimp only
  cases hincr : s.bptr.incr n with
  | none => exact h
  | some r => exact h.incr hincr

theorem decode (l : RdbLength) : (DecodeProc.decode l).Follows (KeepsTrack mem) := by
  intro s h
  have h' := h.decode l
  unfold DecodeProc.decode
  obtain ⟨err, l', b, hrun⟩ : ∃ err l' b, l.decode s.bptr = (err, l', b) := ⟨_, _, _, rfl⟩
  rw [hrun] at h' ⊢
  cases err <;> exact h'

/-- A blob is opened so in the decoder. -/
theorem decompress (l : RdbLength) : (DecodeProc.decompress E l).Follows (KeepsTrack mem) := by
  intro s h
  unfold DecodeProc.decompress
  cases hrun : s.bptr.decompress E l.zlen l.len with
  | none => exact h
  | some r =>
    obtain ⟨ok, b⟩ := r
    cases ok <;> exact h.decompress hrun

/-- All steps of a header keep track. -/
theorem hdr_steps : HdrSteps E (fun _ => true) (KeepsTrack mem) where
  chains := chains
  incr := incr
  skip := skip
  decode := decode
  call _ _ := id
  consume l _ h := h.consume l
  start_type _ _ := id
  header _ _ _ _ := id

theorem body_steps : BodySteps E (fun _ => true) (KeepsTrack mem) where
  toReadSteps := hdr_steps.toReadSteps
  decompress := decompress
  start_key := .bind chains (fun _ => id) fun _ => .read_bind chains fun _ _ => id
  scan _ h := h.module_scan _

/-- What is taken off at the end of the input is not behind the cursor. -/
theorem decode_trailer : (RdbDecode.decode_trailer E).Follows (KeepsTrack mem) := by
  refine .bind chains (fun _ => id) fun _ => .read_bind chains fun s => .ite (.ret chains _) ?_
  refine .bind chains (fun s h => ?_) fun off => .read_bind chains fun s => .ite (.ret chains _) ?_
  · obtain ⟨res, dec, hrun, -⟩ := decode_ver_off s
    rw [hrun]
    exact h
  · exact .ite (fun s h => ⟨h.buf, h.sav, h.alloced⟩) (skip _)

theorem decode_hdr : (RdbDecode.decode_hdr E).Follows (KeepsTrack mem) := by
  have htrailer : (RdbDecode.decode_trailer E).Follows (KeepsTrack mem) := decode_trailer
  have hrest := hdr_steps.decode_hdr_rest body_steps.toDecodeSteps (fun _ _ => rfl) htrailer
  exact .read_bind chains fun s => .ite (.ret chains _)
    (.ite (.bind chains (fun _ => id) fun _ => hrest s) (hrest s))

/-- Whatever a record makes of the buffer, it is tracked. -/
theorem decode_record : Proc.Follows (KeepsTrack mem) (RdbDecode.decode_hdr E >>= fun _ => RdbDecode.decode_body E) :=
  .bind chains decode_hdr fun _ => body_steps.decode_body (fun _ _ => rfl) fun _ => rfl

end KeepsTrack

/-- The top of the key loop, as long as every record so far has returned. -/
inductive Loops (E : Env) (filter : Option (RdbVal → Bool)) (i₀ : Input) : St → Input → Prop
  | start : Loops E filter i₀ (St.start filter ⟨.input, i₀.mem, 0⟩ i₀.off) i₀
  | next {s u t : St} {i i' : Input} {o : List Event} {b : RdbBufptr} :
    Loops E filter i₀ s i → (decode_hdr E >>= fun _ => decode_body E) s = ⟨.ok (), u, o⟩ → u.bptr.Returns →
      next_key E s = ⟨.ok (), t, o⟩ → i.refill t.bptr = (i', b) → b.avail ≠ 0 →
      Loops E filter i₀ { t with bptr := b } i'

/-- A turn of the key loop that goes through counts the key and releases what was decompressed. -/
theorem next_key_run {s u : St} {o : List Event}
    (h : (decode_hdr E >>= fun _ => decode_body E) s = ⟨.ok (), u, o⟩) : next_key E s =
      ⟨.ok (), ⟨{ u.dec with key_cnt := u.dec.key_cnt + 1 }, u.bptr.free_alloced⟩, o⟩ := by
  have hall := Proc.bind_ok (f := fun _ => do
    DecodeProc.set_dec fun d => { d with key_cnt := d.key_cnt + 1 }
    Proc.update fun s => { s with bptr := s.bptr.free_alloced }) h rfl
  rw [Proc.bind_assoc] at hall
  simp only [List.append_nil] at hall
  exact hall

/-- What the buffer is filled with comes behind what is left, which is moved to the start. -/
theorem RdbBufptr.AtRest.refill {i i' : Input} {b b' : RdbBufptr} (h : b.AtRest i.mem)
    (hrefill : i.refill b = (i', b')) : b'.AtRest i'.mem := by
  unfold Input.refill at hrefill
  split at hrefill
  · cases hrefill
    refine ⟨rfl, h.sav_avail, ?_, h.alloced⟩
    rw [if_neg h.sav]
    exact h.sav
  · cases hrefill
    exact h

/-- A record is decoded from a buffer that is at rest. -/
theorem Loops.at_rest {filter : Option (RdbVal → Bool)} {i₀ i : Input} {s : St} (h : Loops E filter i₀ s i) :
    s.bptr.AtRest i.mem := by
  induction h with
  | start => exact ⟨rfl, rfl, nofun, rfl⟩
  | next _ hrun hret hnext hrefill _ ih =>
    have htracks := KeepsTrack.decode_record (E := E) _ ih.tracks
    rw [hrun] at htracks
    rw [next_key_run hrun] at hnext
    cases hnext
    exact (htracks.free_alloced hret).refill hrefill

/-- In a run of the key loop the cursor returns to the main buffer, right behind what is consumed, if and only
if no text was decompressed or the last one is used up and the main buffer goes on. The input may be mapped or
refilled on the way, and hold anything. -/
theorem free_alloced_returns_iff {filter : Option (RdbVal → Bool)} {i₀ i : Input} {s u : St} {o : List Event}
    (h : Loops E filter i₀ s i) (hrun : (decode_hdr E >>= fun _ => decode_body E) s = ⟨.ok (), u, o⟩) :
    u.bptr.free_alloced.InMain i.mem ↔ u.bptr.Returns := by
  have htracks := KeepsTrack.decode_record (E := E) s h.at_rest.tracks
  rw [hrun] at htracks
  exact htracks.free_alloced_iff

/-- A dump of version 9 without a crc. -/
def dump_of (record : List UInt8) : Input := .map (record ++ [9, 0] ++ List.replicate 8 0) 0 0

/-- The first record of an input. -/
def first_record (i : Input) : Run St Event RdbErrCode Unit :=
  (decode_hdr Env.literal >>= fun _ => decode_body Env.literal) (St.start none ⟨.input, i.mem, 0⟩ i.off)

/-- The record behind the first one. -/
def second_record (i : Input) : Run St Event RdbErrCode Unit :=
  (decode_hdr Env.literal >>= fun _ => decode_body Env.literal)
    ⟨{ (first_record i).st.dec with key_cnt := (first_record i).st.dec.key_cnt + 1 },
      (i.refill (first_record i).st.bptr.free_alloced).2⟩

/-- A file with the string "a" and, compressed, the string "ab". -/
def two_strings : Input :=
  .map (format.header 9 ++ [0, 1, 0x6b, 1, 0x61, 0, 1, 0x6d, 0xc3, 3, 2, 1, 0x61, 0x62, 0xff] ++ List.replicate 8 0) 0 0

/-- The text of the second string is read to its end, and the end of the file is behind it. -/
theorem free_alloced_returns_zipped :
    (second_record two_strings).st.bptr.free_alloced.InMain
      (two_strings.refill (first_record two_strings).st.bptr.free_alloced).1.mem := by
  have hok : (first_record two_strings).res = .ok () ∧ (second_record two_strings).res = .ok () := by
    decide +kernel
  have hfirst : first_record two_strings =
      ⟨.ok (), (first_record two_strings).st, (first_record two_strings).out⟩ := by
    rw [← hok.1]
  have hsecond : second_record two_strings =
      ⟨.ok (), (second_record two_strings).st, (second_record two_strings).out⟩ := by
    rw [← hok.2]
  have hloops := Loops.start.next hfirst (.inl (by decide +kernel)) (next_key_run hfirst) rfl (by decide +kernel)
  exact (free_alloced_returns_iff hloops hsecond).mpr (.inr (by decide +kernel))

/-- The string "ab", compressed, at the end of the buffer. -/
theorem zipped_end_lost : ¬ ∀ (E : Env) (filter : Option (RdbVal → Bool)) (i : Input) (u : St) (o : List Event),
    (decode_hdr E >>= fun _ => decode_body E) (St.start filter ⟨.input, i.mem, 0⟩ i.off) = ⟨.ok (), u, o⟩ →
      u.bptr.free_alloced.InMain i.mem := by
  intro h
  have hok : (first_record (dump_of [0, 0xc3, 3, 2, 1, 0x61, 0x62])).res = .ok () := by
    decide +kernel
  have hrun : first_record (dump_of [0, 0xc3, 3, 2, 1, 0x61, 0x62]) =
      ⟨.ok (), (first_record (dump_of [0, 0xc3, 3, 2, 1, 0x61, 0x62])).st,
        (first_record (dump_of [0, 0xc3, 3, 2, 1, 0x61, 0x62])).out⟩ := by
    rw [← hok]
  have hblk : (first_record (dump_of [0, 0xc3, 3, 2, 1, 0x61, 0x62])).st.bptr.free_alloced.buf.blk = .null := by
    decide +kernel
  have hmain := (h Env.literal none _ _ _ hrun).blk
  rw [hblk] at hmain
  cases hmain

end rdbparser
