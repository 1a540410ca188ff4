import Rdbparser.Main
import Rdbparser.Keys.File

namespace rdbparser

open format

namespace Input

/-- The bytes `fread` takes. -/
def got (i : Input) : List UInt8 := i.stdin.take (i.size - i.off)

theorem fread_fst (i : Input) : i.fread.1 = i.got.length := rfl

/-- The memory after `fread` begins with what was read so far. -/
theorem fread_starts (i : Input) : i.fread.2.mem.Starts (i.mem.take i.off ++ i.got) :=
  Mem.ofList_starts _ _

/-- At the end of stdin the buffer keeps what it has. -/
theorem fill_empty {i : Input} (h : i.stdin = []) (fuel : Nat) :
    ∃ mem, fill (fuel + 1) i = { i with mem := mem, eof := true } ∧
      mem.Starts (i.mem.take i.off) := by
  have hgot : i.got = [] := by rw [got, h, List.take_nil]
  have hnone : i.fread.1 = 0 := by rw [fread_fst, hgot, List.length_nil]
  have hstarts := i.fread_starts
  rw [hgot, List.append_nil] at hstarts
  refine ⟨i.fread.2.mem, ?_, hstarts⟩
  rw [fill]
  simp only [hnone, if_true]
  simp only [fread, h, List.drop_nil]

/-- Filling a buffer that has room: it takes as much of stdin as fits, and sets the eof flag only
when nothing is left. -/
theorem fill_buf_stdin_spec (i : Input) (hoff : i.off < i.size)
    (hmagic : i.eof = false ∨ i.fread.2.mem.take 7 = RdbDecode.magic) :
    i.fill_buf_stdin.size = i.size ∧ i.got ++ i.fill_buf_stdin.stdin = i.stdin ∧
      i.fill_buf_stdin.off = i.off + i.got.length ∧
      i.fill_buf_stdin.mem.Starts (i.mem.take i.off ++ i.got) ∧
      (i.fill_buf_stdin.eof = true ∧ i.fill_buf_stdin.stdin = [] ∧ i.fill_buf_stdin.off < i.size ∨
        i.fill_buf_stdin.eof = false ∧ i.fill_buf_stdin.off = i.size) := by
  have hlen : i.got.length = min (i.size - i.off) i.stdin.length := List.length_take
  have hsplit : i.got ++ i.fread.2.stdin = i.stdin := List.take_append_drop _ _
  rw [fill_buf_stdin]
  by_cases hnone : i.stdin = []
  · have hgot : i.got = [] := by rw [got, hnone, List.take_nil]
    obtain ⟨mem, hfill, hmem⟩ := fill_empty hnone i.stdin.length
    rw [hfill]
    simp only [hgot, hnone, List.append_nil, List.length_nil, Nat.add_zero]
    exact ⟨trivial, trivial, trivial, hmem, .inl ⟨trivial, trivial, hoff⟩⟩
  · have hpos : 0 < i.stdin.length := List.length_pos_iff.mpr hnone
    have hgot : ¬ i.fread.1 = 0 := by
      rw [fread_fst]
      omega
    rw [fill]
    simp only [if_neg hgot]
    by_cases hfull : i.fread.2.off + i.fread.1 = i.fread.2.size
    · have hgrow : ¬ (i.fread.2.eof = true ∧ i.fread.2.mem.take 7 ≠ RdbDecode.magic) := by
        rintro ⟨heof, hne⟩
        cases hmagic with
        | inl h => rw [show i.fread.2.eof = i.eof from rfl, h] at heof; contradiction
        | inr h => exact hne h
      rw [if_pos hfull, if_neg hgrow]
      exact ⟨rfl, hsplit, rfl, i.fread_starts, .inr ⟨rfl, hfull⟩⟩
    · -- a short read: the next one finds the end
      have hrest : i.fread.2.stdin = [] := by
        have hshort : ¬ i.off + i.got.length = i.size := hfull
        simp only [fread, List.drop_eq_nil_iff]
        omega
      obtain ⟨fuel, hfuel⟩ : ∃ k, i.stdin.length = k + 1 := ⟨i.stdin.length - 1, by omega⟩
      obtain ⟨mem, hfill, hmem⟩ :=
        fill_empty (i := { i.fread.2 with off := i.fread.2.off + i.fread.1 }) hrest fuel
      rw [if_neg hfull, hfuel, hfill]
      have hshort : i.off + i.got.length < i.size := by
        have hne : ¬ i.off + i.got.length = i.size := hfull
        omega
      refine ⟨rfl, hsplit, rfl, ?_, .inl ⟨rfl, hrest, hshort⟩⟩
      have hkeep : i.fread.2.mem.take (i.fread.2.off + i.fread.1) = i.mem.take i.off ++ i.got := by
        have h := i.fread_starts.take
        rwa [List.length_append, Mem.take_length] at h
      exact hkeep ▸ hmem

/-- The buffer at `c` and what is unread on stdin are together `xs`; the buffer ends at the end of
the file, or else it is full. -/
structure Window (i : Input) (c : Place) (xs : List UInt8) : Prop where
  views : ∃ ys, c.Views ys ∧ ys ++ i.stdin = xs
  ahead : i.eof = true ∧ i.stdin = [] ∨ i.eof = false ∧ c.offset + c.avail = i.size

/-- Where no refill is due: what lies ahead in the buffer is at least half of it. -/
def Settled (i : Input) (c : Place) : Prop := i.eof = true ∨ c.offset ≤ i.size / 2

/-- Bytes that take less than half of the buffer are in it, with a byte that follows. -/
theorem Window.views_append {i : Input} {c : Place} {xs rest : List UInt8}
    (h : i.Window c (xs ++ rest)) (hc : i.Settled c) (hrest : rest ≠ [])
    (hshort : i.eof = true ∨ 2 * xs.length < i.size) :
    ∃ ys, c.Views (xs ++ ys) ∧ ys ++ i.stdin = rest ∧ ys ≠ [] := by
  obtain ⟨zs, hzs, hsplit⟩ := h.views
  cases h.ahead with
  | inl heof =>
    rw [heof.2, List.append_nil] at hsplit
    subst hsplit
    exact ⟨rest, hzs, by rw [heof.2, List.append_nil], hrest⟩
  | inr hfull =>
    have hlong : xs.length < zs.length := by
      have hlen := hzs.1
      have hoff : c.offset ≤ i.size / 2 := hc.resolve_left (by rw [hfull.1]; exact Bool.false_ne_true)
      have hxs := hshort.resolve_left (by rw [hfull.1]; exact Bool.false_ne_true)
      omega
    obtain ⟨ys, rfl, hys⟩ : ∃ ys, zs = xs ++ ys ∧ ys ++ i.stdin = rest := by
      cases List.append_eq_append_iff.mp hsplit with
      | inl hshorter =>
        obtain ⟨as, has, -⟩ := hshorter
        rw [has, List.length_append] at hlong
        omega
      | inr hlonger =>
        obtain ⟨ys, hys, hrest⟩ := hlonger
        exact ⟨ys, hys, hrest.symm⟩
    refine ⟨ys, hzs, hys, ?_⟩
    rintro rfl
    simp at hlong

/-- Something is left in the buffer as long as something is left at all. -/
theorem Window.left {i : Input} {c : Place} {xs : List UInt8} (h : i.Window c xs)
    (hc : i.Settled c) (hxs : xs ≠ []) (hsize : i.eof = true ∨ 0 < i.size) :
    ∃ ys, c.Views ys ∧ ys ++ i.stdin = xs ∧ ys ≠ [] :=
  Window.views_append (show i.Window c ([] ++ xs) from h) hc hxs hsize

theorem Window.adv {i : Input} {c : Place} {xs ys rest : List UInt8} (h : i.Window c (xs ++ rest))
    (hv : c.Views (xs ++ ys)) (hys : ys ++ i.stdin = rest) : i.Window (c.adv xs.length) rest := by
  refine ⟨⟨ys, hv.adv, hys⟩, h.ahead.imp id fun hfull => ⟨hfull.1, ?_⟩⟩
  have hle := hv.le
  rw [Place.adv_offset, Place.adv_avail]
  omega

/-- After a key the loop is where it was or, if it has refilled the buffer, at the start of it; what
is ahead stays the same. -/
theorem Window.refill {i : Input} {c : Place} {xs : List UInt8} (h : i.Window c xs)
    {b : RdbBufptr} (hb : b.On c) :
    ∃ j b' c', i.refill b = (j, b') ∧ b'.On c' ∧ j.Window c' xs ∧ j.Settled c' ∧ j.size = i.size ∧
      (i.eof = true → j.eof = true) ∧ (i.eof = false → j.eof = true → c'.offset + c'.avail < i.size) ∧
      (c' = c ∧ j = i ∨ (i.eof = false ∧ i.size / 2 < c.offset) ∧
        ∃ mem, c' = ⟨⟨.input, mem, 0⟩, c'.avail, 0, c.start_offset + c.offset⟩) := by
  rw [Input.refill]
  by_cases hdue : ¬ i.eof = true ∧ i.size / 2 < b.offset
  · rw [if_pos hdue]
    obtain ⟨ys, hys, hsplit⟩ := h.views
    have heof : i.eof = false := by simpa using hdue.1
    have hfull := (h.ahead.resolve_left fun heof' => hdue.1 heof'.1).2
    have hoff : c.offset = b.offset := hb.offset.symm
    have hmoved : b.buf.ptr.mem.take b.avail = ys := by
      rw [hb.buf, hb.avail, hys.1]
      exact hys.2.take
    -- the buffer with the bytes left moved to its start
    let moved : Input := { i with mem := Mem.ofList ys (i.mem.add b.avail), off := b.avail }
    have hkept : moved.mem.take moved.off = ys := by
      change (Mem.ofList ys _).take b.avail = ys
      rw [hb.avail, hys.1]
      exact Mem.ofList_starts ys _
    obtain ⟨hsize, hgot, hjoff, hjmem, hjeof⟩ := fill_buf_stdin_spec moved
      (by change b.avail < i.size; rw [hb.avail]; omega) (.inl heof)
    rw [hkept] at hjmem
    rw [hmoved]
    have hlen : moved.fill_buf_stdin.off = (ys ++ moved.got).length := by
      rw [hjoff, List.length_append, ← hys.1, ← hb.avail]
    refine ⟨moved.fill_buf_stdin, _,
      ⟨⟨.input, moved.fill_buf_stdin.mem, 0⟩, moved.fill_buf_stdin.off, 0,
        c.start_offset + c.offset⟩, rfl, ⟨?_, hb.sav_avail⟩, ⟨⟨ys ++ moved.got, ⟨hlen, ?_⟩, ?_⟩, ?_⟩,
      .inr (Nat.zero_le _), hsize, ?_, ?_, .inr ⟨⟨heof, ?_⟩, _, rfl⟩⟩
    · simp only [RdbBufptr.cur, Place.mk.injEq, true_and, hb.offset]
      exact ⟨rfl, rfl, congrArg (· + c.offset) (congrArg Place.start_offset hb.cur)⟩
    · rwa [Cursor.ptr, Mem.add_zero]
    · rw [List.append_assoc, hgot]
      exact hsplit
    · rw [hsize]
      exact hjeof.imp (fun h => ⟨h.1, h.2.1⟩) fun hfull' => ⟨hfull'.1, by rw [hfull'.2, Nat.zero_add]⟩
    · intro heof'
      rw [heof] at heof'
      contradiction
    · intro _ hjtrue
      have hlt := (hjeof.resolve_right fun h => by rw [hjtrue] at h; exact Bool.noConfusion h.1).2.2
      rw [Nat.zero_add]
      exact hlt
    · rw [hoff]
      exact hdue.2
  · rw [if_neg hdue]
    refine ⟨i, b, c, rfl, hb, h, ?_, rfl, id, ?_, .inl ⟨rfl, rfl⟩⟩
    · rw [Settled, ← hb.offset]
      by_contra hnot
      exact hdue ⟨fun heof => hnot (.inl heof), by omega⟩
    · intro hfalse htrue
      rw [hfalse] at htrue
      contradiction

end Input

end rdbparser
