import Rdbparser.Decode.Intset

/-! The places of the fields and values of a zipmap. -/

namespace rdbparser

open RdbDecode DecodeProc

/-- The place of a string in a blob, and its length. -/
structure Slice where
  pos : Nat
  len : Nat
  deriving DecidableEq, Repr

namespace Slice

def end_ (x : Slice) : Nat := x.pos + x.len

def str (x : Slice) (p : Mem) : RdbVal := .str ((p.add x.pos).take x.len)

/-- One lies in front of the other. -/
def Before (x y : Slice) : Prop := x.pos < y.pos ∧ x.end_ ≤ y.pos

end Slice

/-- What one turn of the loop hands out, and the free space it has read. -/
structure ZipmapPair where
  field : Slice
  val : Slice
  free : Nat

namespace ZipmapPair

def slices (x : ZipmapPair) : List Slice := [x.field, x.val]

/-- Where the loop goes on: value and free space are added in 32 bits. -/
def next (x : ZipmapPair) : Nat := x.val.pos + (x.val.len + x.free) % 2 ^ 32

end ZipmapPair

/-- The length at a place of a blob of `n` bytes, and the place behind it. -/
def zipmap_len_at (p : Mem) (n pos : Nat) : Option (Nat × Nat) :=
  if n < pos + 1 then none
  else if 254 ≤ (p pos).toNat then
    if n < pos + 1 + 4 then none else some (be_nat ((p.add (pos + 1)).take 4), pos + 1 + 4)
  else some ((p pos).toNat, pos + 1)

/-- What a turn of the loop hands out, if it hands out something. -/
def zipmap_pair_at (p : Mem) (n pos : Nat) : Option ZipmapPair :=
  if p pos = 255 then none
  else
    match zipmap_len_at p n pos with
    | none => none
    | some (len, field) =>
      if n < field + len then none
      else
        match zipmap_len_at p n (field + len) with
        | none => none
        | some (vlen, free) =>
          if n < free + 1 ∨ n < free + 1 + (vlen + (p free).toNat) % 2 ^ 32 then none
          else some ⟨⟨field, len⟩, ⟨free + 1, vlen⟩, (p free).toNat⟩

/-- What the loop hands out from a place on. -/
def zipmap_pairs_from (p : Mem) (n : Nat) : Nat → Nat → List ZipmapPair
  | 0, _ => []
  | fuel + 1, pos =>
    match zipmap_pair_at p n pos with
    | none => []
    | some x => x :: zipmap_pairs_from p n fuel x.next

/-- What is handed out of a blob of `n` bytes; the first byte is the number of pairs. -/
def zipmap_pairs (p : Mem) (n : Nat) : List ZipmapPair := zipmap_pairs_from p n (n - 1) 1

/-- A buffer that is at a place of a blob of `n` bytes. -/
structure RdbBufptr.In (b : RdbBufptr) (p : Ptr) (n pos : Nat) : Prop where
  buf : b.buf = ⟨p.blk, p.mem, pos⟩
  avail : b.avail = n - pos
  le : pos ≤ n

section run

variable {b : RdbBufptr} {p : Ptr} {n pos : Nat} (h : b.In p n pos) (s : St)

include h

theorem local_incr_none {k : Nat} (hk : n < pos + k) : local_incr b k s = ⟨.error .RDB_ERR_TRUNC, s, []⟩ := by
  have havail := h.avail
  have hle := h.le
  rw [local_incr, RdbBufptr.incr_none (by omega)]
  rfl

/-- Where the bytes are there, the local cursor moves over them. -/
theorem local_incr_some {k : Nat} (hk : ¬ n < pos + k) :
    ∃ b' : RdbBufptr, local_incr b k s = ⟨.ok (p.add pos, b'), s, []⟩ ∧ b'.In p n (pos + k) := by
  have havail := h.avail
  refine ⟨{ b with buf := b.buf.add k, avail := b.avail - k, offset := b.offset + k }, ?_, ?_⟩
  · rw [local_incr, RdbBufptr.incr_some (by omega), h.buf]
    rfl
  · refine ⟨by rw [h.buf]; rfl, ?_, Nat.le_of_not_lt hk⟩
    change b.avail - k = _
    omega

/-- The length behind a byte that is read. -/
theorem zipmap_len_run (hn : ¬ n < pos + 1) :
    ∃ b', local_incr b 1 s = ⟨.ok (p.add pos, b'), s, []⟩ ∧
      match zipmap_len_at p.mem n pos with
      | none => zipmap_len b' (p.mem pos).toNat s = ⟨.error .RDB_ERR_TRUNC, s, []⟩
      | some (len, k) => ∃ c : RdbBufptr, zipmap_len b' (p.mem pos).toNat s = ⟨.ok (len, c), s, []⟩ ∧ c.In p n k := by
  obtain ⟨b', hrun, hin⟩ := local_incr_some h s hn
  refine ⟨b', hrun, ?_⟩
  rw [zipmap_len_at, if_neg hn, zipmap_len]
  by_cases hbig : 254 ≤ (p.mem pos).toNat
  · rw [if_pos hbig, if_pos hbig]
    by_cases hlong : n < pos + 1 + 4
    · rw [if_pos hlong]
      exact Proc.bind_error (local_incr_none hin s hlong)
    · rw [if_neg hlong]
      obtain ⟨c, hrun', hin'⟩ := local_incr_some hin s hlong
      exact ⟨c, Proc.bind_quiet hrun', hin'⟩
  · rw [if_neg hbig, if_neg hbig]
    exact ⟨b', rfl, hin⟩

variable (cnt fuel num : Nat)

/-- A turn of the loop: it hands a pair out and goes on behind it, or hands nothing out and is the last. -/
theorem zipmap_loop_turn :
    match zipmap_pair_at p.mem n pos with
    | none => ∃ r, zipmap_loop cnt (fuel + 1) num b s = ⟨r, s, []⟩
    | some x => ∃ b' : RdbBufptr, b'.In p n x.next ∧ zipmap_loop cnt (fuel + 1) num b s =
        (call (.d_hash num cnt (x.field.str p.mem) (x.val.str p.mem)) >>=
          fun _ => zipmap_loop cnt fuel (num + 1) b') s := by
  have havail := h.avail
  have hle := h.le
  have hmem : ∀ k, (p.add k).mem 0 = p.mem k := fun _ => rfl
  rw [zipmap_loop, zipmap_pair_at]
  by_cases hzero : b.avail = 0
  · rw [if_pos hzero, zipmap_len_at, if_pos (show n < pos + 1 by omega)]
    simp only [ite_self]
    exact ⟨_, rfl⟩
  rw [if_neg hzero]
  -- the length of the field
  obtain ⟨b₁, hbyte, hlen⟩ := zipmap_len_run h s (show ¬ n < pos + 1 by omega)
  rw [Proc.bind_quiet hbyte]
  simp only [hmem]
  by_cases hend : p.mem pos = 255
  · rw [if_pos hend, if_pos (show (p.mem pos).toNat = 255 from congrArg UInt8.toNat hend)]
    exact ⟨_, rfl⟩
  have hend' : (p.mem pos).toNat ≠ 255 := fun heq => hend (UInt8.toNat_inj.mp heq)
  rw [if_neg hend, if_neg hend']
  generalize zipmap_len_at p.mem n pos = r at hlen ⊢
  obtain _ | ⟨len, field⟩ := r
  · exact ⟨_, Proc.bind_error hlen⟩
  obtain ⟨b₂, hlen, hin⟩ := hlen
  rw [Proc.bind_quiet hlen]
  dsimp only
  -- the field
  by_cases hfield : n < field + len
  · rw [if_pos hfield]
    exact ⟨_, Proc.bind_error (local_incr_none hin s hfield)⟩
  obtain ⟨b₃, hrun, hin⟩ := local_incr_some hin s hfield
  rw [if_neg hfield, Proc.bind_quiet hrun]
  -- the length of the value
  by_cases hshort : n < field + len + 1
  · rw [zipmap_len_at, if_pos hshort]
    exact ⟨_, Proc.bind_error (local_incr_none hin s hshort)⟩
  obtain ⟨b₄, hbyte', hlen'⟩ := zipmap_len_run hin s hshort
  rw [Proc.bind_quiet hbyte']
  simp only [hmem]
  generalize zipmap_len_at p.mem n (field + len) = r at hlen' ⊢
  obtain _ | ⟨vlen, free⟩ := r
  · exact ⟨_, Proc.bind_error hlen'⟩
  obtain ⟨b₅, hlen', hin⟩ := hlen'
  rw [Proc.bind_quiet hlen']
  dsimp only
  -- the value and the free space behind it
  by_cases hfree : n < free + 1
  · rw [if_pos (.inl hfree)]
    exact ⟨_, Proc.bind_error (local_incr_none hin s hfree)⟩
  obtain ⟨b₆, hrun', hin⟩ := local_incr_some hin s hfree
  rw [Proc.bind_quiet hrun']
  simp only [hmem]
  by_cases hval : n < free + 1 + (vlen + (p.mem free).toNat) % 2 ^ 32
  · rw [if_pos (.inr hval)]
    exact ⟨_, Proc.bind_error (local_incr_none hin s hval)⟩
  obtain ⟨b₇, hlast, hin⟩ := local_incr_some hin s hval
  rw [if_neg (not_or.mpr ⟨hfree, hval⟩), Proc.bind_quiet hlast]
  exact ⟨b₇, hin, rfl⟩

/-- The loop hands out the pairs from where it is on. -/
theorem zipmap_loop_run {d : Dest} (hout : s.dec.out = some d) : ∃ r, zipmap_loop cnt fuel num b s = ⟨r, s,
    (zipmap_pairs_from p.mem n fuel pos).mapIdx fun i x =>
      ⟨d, .d_hash (num + i) cnt (x.field.str p.mem) (x.val.str p.mem), s.bptr.offset⟩⟩ := by
  induction fuel generalizing num b pos with
  | zero => exact ⟨_, rfl⟩
  | succ fuel ih =>
    have hturn := zipmap_loop_turn h s cnt fuel num
    rw [zipmap_pairs_from]
    generalize zipmap_pair_at p.mem n pos = r at hturn ⊢
    obtain _ | x := r
    · exact hturn
    · obtain ⟨b', hin, hrun⟩ := hturn
      obtain ⟨r, hrest⟩ := ih hin (num + 1)
      refine ⟨r, ?_⟩
      rw [hrun, Proc.bind_ok (call_run hout _) hrest, List.mapIdx_cons]
      simp only [Nat.add_assoc, Nat.add_comm 1]
      rfl

end run

/-- The pairs that are handed out of the blob at the cursor, if it is there. -/
def St.zipmap_pairs (s : St) : List ZipmapPair :=
  if s.dec.rlen.len ≤ s.bptr.avail then rdbparser.zipmap_pairs s.bptr.buf.ptr.mem s.dec.rlen.len else []

def Callback.is_hash : Callback → Bool
  | .d_hash .. => true
  | _ => false

/-- The loop of `decode_hash_zipmap` over a blob, behind the number of pairs. -/
def zipmap_blob (b : Ptr) (n : Nat) : DecodeProc Unit :=
  match (RdbBufptr.init ⟨b.blk, b.mem, 0⟩ n).incr 1 with
  | some (b, hptr) => zipmap_loop (b.mem 0).toNat hptr.avail 0 hptr
  | none => zipmap_loop 0 n 0 (RdbBufptr.init ⟨b.blk, b.mem, 0⟩ n)

/-- The decoder of zipmaps as the key, the pairs, and the end of the key. -/
theorem decode_hash_zipmap_eq :
    decode_hash_zipmap = (start_key >>= fun _ => Proc.read >>= fun s => incr s.dec.rlen.len >>= fun b =>
    zipmap_blob b s.dec.rlen.len >>= fun _ => end_key) := by
  unfold decode_hash_zipmap
  refine congrArg (start_key >>= ·) (funext fun _ => congrArg (Proc.read >>= ·) (funext fun s =>
    congrArg (incr s.dec.rlen.len >>= ·) (funext fun b => ?_)))
  rw [zipmap_blob]
  dsimp only
  generalize (RdbBufptr.init ⟨b.blk, b.mem, 0⟩ s.dec.rlen.len).incr 1 = r
  cases r <;> rfl

/-- A zipmap hands out one callback for each pair that the walk finds, and leaves the decoder as it is. -/
theorem zipmap_blob_run (b : Ptr) (n : Nat) {s : St} {d : Dest} (hout : s.dec.out = some d) :
    ∃ r cnt, zipmap_blob b n s = ⟨r, s,
    (zipmap_pairs b.mem n).mapIdx fun i x =>
      ⟨d, .d_hash i cnt (x.field.str b.mem) (x.val.str b.mem), s.bptr.offset⟩⟩ := by
  rw [zipmap_blob]
  by_cases hn : n = 0
  · subst hn
    exact ⟨_, 0, rfl⟩
  · have hin : (RdbBufptr.init ⟨b.blk, b.mem, 0⟩ n).In b n 0 := ⟨rfl, rfl, Nat.zero_le n⟩
    rw [RdbBufptr.incr_some (show 1 ≤ n by omega)]
    obtain ⟨r, hrun⟩ := zipmap_loop_run (b := { RdbBufptr.init ⟨b.blk, b.mem, 0⟩ n with
        buf := ⟨b.blk, b.mem, 1⟩, avail := n - 1, offset := 1 }) ⟨rfl, rfl, by omega⟩ s (b.mem 0).toNat (n - 1) 0 hout
    refine ⟨r, (b.mem 0).toNat, ?_⟩
    simp only [Nat.zero_add] at hrun
    exact hrun

theorem hash_calls {f : Nat → ZipmapPair → Event} (hf : ∀ i x, (f i x).call.is_hash = true) (xs : List ZipmapPair) :
    ((xs.mapIdx f).map Event.call).filter Callback.is_hash = xs.mapIdx fun i x => (f i x).call := by
  rw [map_mapIdx, List.filter_eq_self]
  intro c hc
  obtain ⟨i, hi, rfl⟩ := List.mem_mapIdx.mp hc
  exact hf i _

/-- The fields and values of the pairs are what is handed out. -/
theorem decode_hash_zipmap_calls (s : St) : ∃ cnt, ((decode_hash_zipmap s).out.map Event.call).filter Callback.is_hash =
    s.zipmap_pairs.mapIdx fun i x => .d_hash i cnt (x.field.str s.bptr.buf.ptr.mem) (x.val.str s.bptr.buf.ptr.mem) := by
  rw [decode_hash_zipmap_eq, St.zipmap_pairs]
  by_cases havail : s.dec.rlen.len ≤ s.bptr.avail
  · obtain ⟨b, hincr⟩ := incr_run (s := s.started) havail
    obtain ⟨r, cnt, hrun⟩ := zipmap_blob_run s.bptr.buf.ptr s.dec.rlen.len (s := { s.started with bptr := b }) rfl
    have hrest : (Proc.read >>= fun s => incr s.dec.rlen.len >>= fun b => zipmap_blob b s.dec.rlen.len >>=
        fun _ => end_key)
        s.started = (zipmap_blob s.bptr.buf.ptr s.dec.rlen.len >>= fun _ => end_key) { s.started with bptr := b } :=
      Proc.bind_quiet hincr
    refine ⟨cnt, ?_⟩
    rw [if_pos havail]
    obtain _ | u := r
    · rw [Proc.bind_ok (start_key_run s) (hrest.trans (Proc.bind_error hrun)), List.map_append, List.filter_append,
        hash_calls fun _ _ => rfl]
      rfl
    · rw [Proc.bind_ok (start_key_run s) (hrest.trans (Proc.bind_ok hrun (end_key_run rfl))),
        List.map_append, List.map_append,
        List.filter_append, List.filter_append, hash_calls fun _ _ => rfl]
      exact List.append_nil _
  · have hrest : (Proc.read >>= fun s => incr s.dec.rlen.len >>= fun b => zipmap_blob b s.dec.rlen.len >>=
        fun _ => end_key)
        s.started = ⟨.error .RDB_ERR_TRUNC, s.started, []⟩ := by
      rw [Proc.read_bind_run]
      exact Proc.bind_error (incr_short (s := s.started) (Nat.not_le.mp havail))
    refine ⟨0, ?_⟩
    rw [if_neg havail, Proc.bind_ok (start_key_run s) hrest]
    rfl

section places

variable {p : Mem} {n pos : Nat}

/-- A length that is read moves on by at most five bytes and stays inside. -/
theorem zipmap_len_bounds {len k : Nat} (h : zipmap_len_at p n pos = some (len, k)) :
    pos < k ∧ k ≤ pos + 5 ∧ k ≤ n ∧ len < 2 ^ 32 := by
  unfold zipmap_len_at at h
  split at h
  · cases h
  · split at h
    · split at h
      · cases h
      · obtain ⟨rfl, rfl⟩ := Prod.mk.inj (Option.some.inj h)
        have hlt := be_nat_lt ((p.add (pos + 1)).take 4)
        rw [Mem.take_length] at hlt
        omega
    · obtain ⟨rfl, rfl⟩ := Prod.mk.inj (Option.some.inj h)
      have hlt := (p pos).toNat_lt
      omega

/-- A pair lies behind the place it is read from, the field in front of the value and what is skipped in the blob. -/
theorem zipmap_pair_bounds {x : ZipmapPair} (h : zipmap_pair_at p n pos = some x) :
    (pos < x.field.pos ∧ x.field.pos ≤ pos + 5) ∧ x.field.end_ < x.val.pos ∧ x.next ≤ n ∧
      x.val.len < 2 ^ 32 ∧ x.free < 2 ^ 8 := by
  unfold zipmap_pair_at at h
  split at h
  · cases h
  split at h
  · cases h
  next hfield =>
    split at h
    · cases h
    split at h
    · cases h
    next hval =>
      split at h
      · cases h
      next hin =>
        obtain rfl := Option.some.inj h
        obtain ⟨hlt, hle, -, -⟩ := zipmap_len_bounds hfield
        obtain ⟨hlt', -, -, hlen⟩ := zipmap_len_bounds hval
        refine ⟨⟨hlt, hle⟩, ?_, Nat.not_lt.mp (not_or.mp hin).2, hlen, UInt8.toNat_lt _⟩
        simp only [Slice.end_]
        omega

def zipmap_slices (xs : List ZipmapPair) : List Slice := xs.flatMap ZipmapPair.slices

/-- The slices that are handed out lie behind where the walk is. -/
theorem zipmap_slices_behind (fuel : Nat) {y : Slice} (hy : y ∈ zipmap_slices (zipmap_pairs_from p n fuel pos)) :
    pos < y.pos := by
  induction fuel generalizing pos with
  | zero => exact absurd hy List.not_mem_nil
  | succ fuel ih =>
    rw [zipmap_pairs_from] at hy
    split at hy
    · exact absurd hy List.not_mem_nil
    · next x hx =>
      obtain ⟨⟨hfield, -⟩, hval, -⟩ := zipmap_pair_bounds hx
      have hend : x.field.pos ≤ x.field.end_ := Nat.le_add_right _ _
      have hnext : x.val.pos ≤ x.next := Nat.le_add_right _ _
      rw [zipmap_slices, List.flatMap_cons] at hy
      rcases List.mem_append.mp hy with hy | hy
      · rw [ZipmapPair.slices, List.mem_cons, List.mem_singleton] at hy
        rcases hy with rfl | rfl <;> omega
      · have hrest := ih hy
        omega

/-- Every slice lies in the blob, and in front of those that come later. -/
def Laid (n : Nat) (ys : List Slice) : Prop := (∀ y ∈ ys, y.end_ ≤ n) ∧ ys.Pairwise Slice.Before

/-- No length goes over 32 bits with the free space, unless it is the last and the value is in the blob all the same. -/
def Unwrapped (n : Nat) (xs : List ZipmapPair) : Prop :=
  ∀ pre x post, xs = pre ++ x :: post → x.val.len + x.free < 2 ^ 32 ∨ post = [] ∧ x.val.end_ ≤ n

/-- What is asked of the first pair and of the others. -/
theorem unwrapped_cons {x : ZipmapPair} {xs : List ZipmapPair} :
    Unwrapped n (x :: xs) ↔ (x.val.len + x.free < 2 ^ 32 ∨ xs = [] ∧ x.val.end_ ≤ n) ∧ Unwrapped n xs := by
  constructor
  · intro h
    exact ⟨h [] x xs rfl, fun pre y post hxs => h (x :: pre) y post (by rw [hxs, List.cons_append])⟩
  · rintro ⟨hx, hxs⟩ pre y post heq
    cases pre with
    | nil =>
      obtain ⟨rfl, rfl⟩ := List.cons.inj heq
      exact hx
    | cons z pre => exact hxs pre y post (List.cons.inj heq).2

theorem unwrapped_nil : Unwrapped n [] :=
  fun _ _ _ h => absurd h.symm (List.append_ne_nil_of_right_ne_nil _ (List.cons_ne_nil _ _))

theorem laid_nil : Laid n [] := ⟨fun _ hy => absurd hy List.not_mem_nil, List.Pairwise.nil⟩

/-- The value of a pair lies in the blob and in front of what is found behind it. -/
theorem value_laid_iff {x : ZipmapPair} (hx : zipmap_pair_at p n pos = some x) (fuel : Nat) :
    (x.val.end_ ≤ n ∧ ∀ y ∈ zipmap_slices (zipmap_pairs_from p n fuel x.next), x.val.end_ ≤ y.pos) ↔
      x.val.len + x.free < 2 ^ 32 ∨ zipmap_pairs_from p n fuel x.next = [] ∧ x.val.end_ ≤ n := by
  obtain ⟨-, -, hin, hlen, hfree⟩ := zipmap_pair_bounds hx
  have hnext : x.next = x.val.pos + (x.val.len + x.free) % 2 ^ 32 := rfl
  have hend : x.val.end_ = x.val.pos + x.val.len := rfl
  constructor
  · rintro ⟨hval, hbehind⟩
    by_cases hfits : x.val.len + x.free < 2 ^ 32
    · exact .inl hfits
    · -- the next pair would be found within the value
      right
      refine ⟨?_, hval⟩
      cases fuel with
      | zero => rfl
      | succ fuel =>
        rw [zipmap_pairs_from] at hbehind ⊢
        split
        · rfl
        · next y hy =>
          rw [hy] at hbehind
          obtain ⟨⟨-, hle⟩, -⟩ := zipmap_pair_bounds hy
          have hover := hbehind y.field (List.mem_flatMap.mpr ⟨y, List.mem_cons_self, List.mem_cons_self⟩)
          omega
  · rintro (hfits | ⟨hlast, hval⟩)
    · rw [Nat.mod_eq_of_lt hfits] at hnext
      refine ⟨by omega, fun y hy => ?_⟩
      have hbehind := zipmap_slices_behind fuel hy
      omega
    · rw [hlast]
      exact ⟨hval, fun y hy => absurd hy List.not_mem_nil⟩

/-- The slices lie in order and inside if and only if no length wraps around 32 bits with the free bytes behind it. -/
theorem zipmap_laid_iff (fuel : Nat) : Laid n (zipmap_slices (zipmap_pairs_from p n fuel pos)) ↔
    Unwrapped n (zipmap_pairs_from p n fuel pos) := by
  induction fuel generalizing pos with
  | zero => exact iff_of_true laid_nil unwrapped_nil
  | succ fuel ih =>
    rw [zipmap_pairs_from]
    split
    · exact iff_of_true laid_nil unwrapped_nil
    · next x hx =>
      rw [unwrapped_cons, ← ih, ← value_laid_iff hx fuel]
      obtain ⟨-, hfield, hin, -⟩ := zipmap_pair_bounds hx
      have hnext : x.val.pos ≤ x.next := Nat.le_add_right _ _
      have hpos : x.field.pos ≤ x.field.end_ := Nat.le_add_right _ _
      have hpos' : x.val.pos ≤ x.val.end_ := Nat.le_add_right _ _
      have hslices : zipmap_slices (x :: zipmap_pairs_from p n fuel x.next) =
          x.field :: x.val :: zipmap_slices (zipmap_pairs_from p n fuel x.next) := rfl
      rw [hslices]
      simp only [Laid, List.forall_mem_cons, List.pairwise_cons]
      constructor
      · rintro ⟨⟨-, hval, hrest⟩, -, hbefore, hpair⟩
        exact ⟨⟨hval, fun y hy => (hbefore y hy).2⟩, hrest, hpair⟩
      · rintro ⟨⟨hval, hbehind⟩, hrest, hpair⟩
        refine ⟨⟨by omega, hval, hrest⟩, ⟨⟨by omega, Nat.le_of_lt hfield⟩, fun y hy => ?_⟩, fun y hy => ?_, hpair⟩
        · have hlt := zipmap_slices_behind fuel hy
          exact ⟨by omega, by omega⟩
        · have hlt := zipmap_slices_behind fuel hy
          exact ⟨by omega, hbehind y hy⟩

end places

/-- The strings that are handed out of a zipmap lie in the blob one behind the other, unless a length goes over
32 bits with its free space; and they are the strings the callbacks are called with. Nothing is assumed of the
blob, which need not be a zipmap. -/
theorem zipmap_laid (s : St) :
    (∃ cnt, ((decode_hash_zipmap s).out.map Event.call).filter Callback.is_hash =
      s.zipmap_pairs.mapIdx fun i x => .d_hash i cnt (x.field.str s.bptr.buf.ptr.mem) (x.val.str s.bptr.buf.ptr.mem)) ∧
    (Laid s.dec.rlen.len (zipmap_slices s.zipmap_pairs) ↔ Unwrapped s.dec.rlen.len s.zipmap_pairs) := by
  refine ⟨decode_hash_zipmap_calls s, ?_⟩
  rw [St.zipmap_pairs]
  split
  · exact zipmap_laid_iff _
  · exact iff_of_true laid_nil unwrapped_nil

/-- A decoder in front of a zipmap. -/
def St.zipmap (blob : List UInt8) : St :=
  ⟨{ type := .RDB_HASH_ZIPMAP, rlen := { len := blob.length } },
    RdbBufptr.init ⟨.input, Mem.ofList blob 0, 0⟩ blob.length⟩

/-- The value has 2^32 - 1 bytes and one more that is free, and the blob ends there. -/
theorem zipmap_wraps : ¬ ∀ s : St, Laid s.dec.rlen.len (zipmap_slices s.zipmap_pairs) := by
  intro h
  have hval := (h (St.zipmap [1, 1, 0x61, 0xfe, 0xff, 0xff, 0xff, 0xff, 1])).1 ⟨9, 2 ^ 32 - 1⟩
    (List.mem_of_getElem? (i := 1) (by decide +kernel))
  exact absurd hval (by decide)

end rdbparser
