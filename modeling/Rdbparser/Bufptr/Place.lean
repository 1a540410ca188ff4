import Rdbparser.Format.Record
import Rdbparser.Length.Header

namespace rdbparser

open format

/-- A place in the main buffer, with the bytes left from there, its offset in the buffer and that
of the buffer in the stream. -/
structure Place where
  buf : Cursor
  avail : Nat
  offset : Nat
  start_offset : Nat

namespace Place

def adv (c : Place) (n : Nat) : Place :=
  { c with buf := c.buf.add n, avail := c.avail - n, offset := c.offset + n }

/-- The bytes left at a place. -/
def Views (c : Place) (xs : List UInt8) : Prop := c.avail = xs.length ∧ c.buf.ptr.mem.Starts xs

instance (c : Place) (xs : List UInt8) : Decidable (c.Views xs) :=
  inferInstanceAs (Decidable (_ ∧ _))

@[simp] theorem adv_zero (c : Place) : c.adv 0 = c := rfl

@[simp] theorem adv_adv (c : Place) (m n : Nat) : (c.adv m).adv n = c.adv (m + n) := by
  simp [adv, Nat.sub_sub, Nat.add_assoc]

@[simp] theorem adv_blk (c : Place) (n : Nat) : (c.adv n).buf.blk = c.buf.blk := rfl

@[simp] theorem adv_mem (c : Place) (n : Nat) : (c.adv n).buf.mem = c.buf.mem := rfl

@[simp] theorem adv_pos (c : Place) (n : Nat) : (c.adv n).buf.pos = c.buf.pos + n := rfl

@[simp] theorem adv_avail (c : Place) (n : Nat) : (c.adv n).avail = c.avail - n := rfl

@[simp] theorem adv_offset (c : Place) (n : Nat) : (c.adv n).offset = c.offset + n := rfl

@[simp] theorem adv_start_offset (c : Place) (n : Nat) :
    (c.adv n).start_offset = c.start_offset := rfl

theorem Views.starts {c : Place} {xs ys : List UInt8} (h : c.Views (xs ++ ys)) :
    c.buf.ptr.mem.Starts xs := (Mem.starts_append.mp h.2).1

theorem Views.le {c : Place} {xs ys : List UInt8} (h : c.Views (xs ++ ys)) :
    xs.length ≤ c.avail := by
  rw [h.1, List.length_append]
  omega

/-- Behind bytes that are in front, what is in front is the rest. -/
theorem Views.adv {c : Place} {xs ys : List UInt8} (h : c.Views (xs ++ ys)) :
    (c.adv xs.length).Views ys := by
  refine ⟨?_, ?_⟩
  · rw [adv_avail, h.1, List.length_append]
    omega
  · change (c.buf.add xs.length).ptr.mem.Starts ys
    rw [Cursor.ptr_mem_add]
    exact (Mem.starts_append.mp h.2).2

/-- A place in front of a byte string. -/
theorem ofList_views (blk : Block) (bs : List UInt8) (past : Mem) :
    Views ⟨⟨blk, Mem.ofList bs past, 0⟩, bs.length, 0, 0⟩ bs := by
  refine ⟨rfl, ?_⟩
  rw [Cursor.ptr, Mem.add_zero]
  exact Mem.ofList_starts bs past

/-- Nothing follows the byte string. -/
theorem ofList_views_end (blk : Block) (bs : List UInt8) (past : Mem) :
    Views ⟨⟨blk, Mem.ofList bs past, 0⟩, bs.length, 0, 0⟩ (bs ++ []) := by
  rw [List.append_nil]
  exact ofList_views blk bs past

end Place

namespace RdbBufptr

def cur (b : RdbBufptr) : Place := ⟨b.buf, b.avail, b.offset, b.start_offset⟩

def saved (b : RdbBufptr) : Place := ⟨b.sav, b.sav_avail, b.sav_offset, b.start_offset⟩

/-- The cursor is in the main buffer, at `c`. -/
structure On (b : RdbBufptr) (c : Place) : Prop where
  cur : b.cur = c
  sav_avail : b.sav_avail = 0

/-- Where the cursor is between two elements: in the main buffer, or else at the end of a
decompression buffer, from which `look` and `free_alloced` return to the main buffer as long as
that has bytes left. -/
inductive At (b : RdbBufptr) (c : Place) : Prop
  | main (h : b.On c)
  | hopped (havail : b.avail = 0) (hsav : b.saved = c) (hleft : 0 < b.sav_avail)
      (halloc : b.alloced_mem ≠ [])
  | spent (hc : c.avail = 0) (havail : b.avail = 0) (hsav : b.sav_avail = 0)

theorem On.avail {b : RdbBufptr} {c : Place} (h : b.On c) : b.avail = c.avail :=
  congrArg Place.avail h.cur

theorem On.buf {b : RdbBufptr} {c : Place} (h : b.On c) : b.buf = c.buf := congrArg Place.buf h.cur

theorem On.offset {b : RdbBufptr} {c : Place} (h : b.On c) : b.offset = c.offset :=
  congrArg Place.offset h.cur

theorem pop_on {b : RdbBufptr} : b.pop.On b.saved := ⟨rfl, rfl⟩

theorem incr_none {b : RdbBufptr} {n : Nat} (h : b.avail < n) : b.incr n = none := if_pos h

theorem incr_some {b : RdbBufptr} {n : Nat} (h : n ≤ b.avail) :
    b.incr n = some (b.buf.ptr,
      { b with buf := b.buf.add n, avail := b.avail - n, offset := b.offset + n }) :=
  if_neg (by omega)

/-- Taking bytes off the main buffer. -/
theorem On.incr {b : RdbBufptr} {c : Place} (h : b.On c) {n : Nat} (hn : n ≤ c.avail) :
    ∃ b', b.incr n = some (c.buf.ptr, b') ∧ b'.On (c.adv n) := by
  obtain ⟨rfl, hsav⟩ := h
  exact ⟨_, incr_some hn, rfl, hsav⟩

/-- What `decode_buf` makes of a header is read in the main buffer, wherever the element before it left
the cursor: padding a short buffer with zeros does not change what the header says. -/
theorem At.decode_from {b : RdbBufptr} {c : Place} (h : b.At c) {l l' : RdbLength} {hdr : Header}
    {rest : List UInt8} (hv : c.Views (hdr.bytes ++ rest))
    (hbuf : ∀ p : Mem, p.Starts hdr.bytes → l.decode_buf p = ((hdr.bytes.length : Int), l')) :
    ∃ b', l.decode b = (.RDB_OK, l', b') ∧ b'.On (c.adv hdr.bytes.length) := by
  have hpos := hdr.bytes_length
  have hle := hv.le
  -- the cursor the header is read from, and what is read there
  obtain ⟨p, b₀, hread, hon, hp⟩ : ∃ p b₀,
      (if MAX_RDB_HDRLEN ≤ b.avail then (b.buf.ptr.mem, b) else b.look MAX_RDB_HDRLEN) = (p, b₀) ∧
      b₀.On c ∧ p.Starts hdr.bytes := by
    have hlook : ∀ b₀ : RdbBufptr, b₀.On c →
        Mem.Starts (fun i => if i < MAX_RDB_HDRLEN ∧ i < b₀.avail then b₀.buf.ptr.mem i else 0)
          hdr.bytes := by
      intro b₀ hon
      apply Mem.starts_congr hv.starts
      intro i hi
      have hin : i < MAX_RDB_HDRLEN ∧ i < b₀.avail := by
        rw [hon.avail, MAX_RDB_HDRLEN]
        omega
      simp only [hin, and_self, if_true, hon.buf]
    cases h with
    | main hon =>
      by_cases hlong : MAX_RDB_HDRLEN ≤ b.avail
      · exact ⟨_, b, if_pos hlong, hon, by rw [hon.buf]; exact hv.starts⟩
      · have hpop : ¬ (b.avail = 0 ∧ 0 < b.sav_avail) := by
          rw [hon.sav_avail]
          omega
        refine ⟨_, b, ?_, hon, hlook b hon⟩
        rw [if_neg hlong, look, if_neg hpop]
    | hopped havail hsav hleft _ =>
      have hon : b.pop.On c := hsav ▸ pop_on
      refine ⟨_, b.pop, ?_, hon, hlook b.pop hon⟩
      rw [if_neg (by rw [havail]; decide), look, if_pos ⟨havail, hleft⟩]
    | spent hc => omega
  obtain ⟨b', hincr, hon'⟩ := hon.incr hle
  refine ⟨b', ?_, hon'⟩
  have hneg : ¬ ((hdr.bytes.length : Int) < 0) := by omega
  simp only [RdbLength.decode, hread, hbuf p hp, if_neg hneg, Int.toNat_natCast, hincr]

theorem At.decode {b : RdbBufptr} {c : Place} (h : b.At c) (hdr : Header) {rest : List UInt8}
    (hv : c.Views (hdr.bytes ++ rest)) :
    ∃ b', ({} : RdbLength).decode b = (.RDB_OK, RdbLength.ofHeader hdr, b') ∧
      b'.On (c.adv hdr.bytes.length) :=
  h.decode_from hv fun _ => RdbLength.decode_buf_header hdr

/-- What is taken of a memory that starts with bytes is taken of these, as far as they go. -/
theorem Mem.take_take_of_starts {p : Mem} {z : List UInt8} (h : p.Starts z) (n : Nat)
    (hn : n ≤ z.length) : p.take n = z.take n := by
  have hsplit : p.take z.length = p.take n ++ (p.add n).take (z.length - n) := by
    rw [← Mem.take_add]
    congr 1
    omega
  have htake := congrArg (List.take n) (h.symm.trans hsplit)
  rw [htake]
  simp

/-- The cursor is at the start of a decompression buffer that holds `text`, and is between two
elements at `c` once that is eaten. -/
def Unzipped (text : List UInt8) (b : RdbBufptr) (c : Place) : Prop :=
  ∃ p b', b.incr text.length = some (p, b') ∧ p.mem.Starts text ∧ (∃ id, p.blk = .heap id) ∧
    b'.avail = 0 ∧ b'.At c

/-- Decompressing a blob of the main buffer: once the text is eaten, the cursor is at the end of the
decompression buffer and the place after the blob is saved, unless that was the buffer's end. -/
theorem On.decompress {E : Env} {b : RdbBufptr} {c : Place} (h : b.On c) {z text rest : List UInt8}
    (hv : c.Views (z ++ rest)) (hE : E.Expands z text) :
    ∃ b', b.decompress E z.length text.length = some (true, b') ∧
      b'.Unzipped text (c.adv z.length) := by
  obtain ⟨hbytes, htext, hfits, hroom⟩ := hE
  obtain ⟨rfl, hsav⟩ := h
  have hz : b.cur.buf.ptr.mem.Starts z := hv.starts
  have hin : b.buf.ptr.mem.take (z.length % 2 ^ 32) = z.take (z.length % 2 ^ 32) :=
    Mem.take_take_of_starts hz _ (Nat.mod_le _ _)
  have hincr := incr_some (b := b) (n := z.length) hv.le
  have havail : b.avail = z.length + rest.length := by
    have := hv.1
    rwa [List.length_append] at this
  simp only [RdbBufptr.decompress, hincr, hin, hbytes, if_neg htext, Nat.mod_eq_of_lt hfits, hroom, not_true_eq_false,
    if_false, Nat.not_lt.mpr (Nat.le_add_right PTR_SIZE text.length)]
  refine ⟨_, rfl, _, _, incr_some (Nat.le_refl _), ?_, ⟨_, rfl⟩, Nat.sub_self _, ?_⟩
  · simpa [Cursor.ptr] using Mem.ofList_starts text _
  · by_cases hrest : rest = []
    · apply At.spent
      · have hrest := congrArg List.length hrest
        have hcur : b.cur.avail = b.avail := rfl
        rw [Place.adv_avail]
        simp only [List.length_nil] at hrest
        omega
      · exact Nat.sub_self _
      · simp only [havail, hrest]
        simpa using hsav
    · have hpos := List.length_pos_iff.mpr hrest
      have hleft : 0 < b.avail - z.length := by omega
      simp only [hleft, if_true]
      apply At.hopped
      · exact Nat.sub_self _
      · rfl
      · exact hleft
      · exact List.cons_ne_nil _ _

@[simp] theorem free_alloced_alloced_mem (b : RdbBufptr) : b.free_alloced.alloced_mem = [] := by
  unfold RdbBufptr.free_alloced
  split
  · assumption
  · dsimp only
    split <;> rfl

/-- After an element `free_alloced` leaves the cursor in the main buffer, if that has bytes left. -/
theorem At.free_alloced {b : RdbBufptr} {c : Place} (h : b.At c) (hc : 0 < c.avail) :
    b.free_alloced.On c := by
  unfold RdbBufptr.free_alloced
  cases h with
  | main hon =>
    have hpos : b.avail ≠ 0 := by
      have := hon.avail
      omega
    split
    · exact hon
    · simp only [if_neg hpos]
      exact ⟨hon.cur, hon.sav_avail⟩
  | hopped havail hsav hleft halloc =>
    rw [if_neg halloc]
    simp only [havail, if_true]
    exact hsav ▸ ⟨rfl, rfl⟩
  | spent hc' => omega

end RdbBufptr

end rdbparser
