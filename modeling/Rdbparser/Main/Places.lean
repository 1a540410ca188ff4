import Rdbparser.Main.Window

namespace rdbparser

open format

/-- The offset in the buffer, and that of the buffer in a file of `total` bytes, behind `n` bytes
taken at `offset`: in the second half of a full buffer, more is read. -/
def next_place (size total n offset start_offset : Nat) : Nat × Nat :=
  if size ≤ total - start_offset ∧ size / 2 < offset + n then (0, start_offset + (offset + n))
  else (offset + n, start_offset)

/-- The places of records of the given lengths. -/
def places (size total : Nat) : Nat → Nat → List Nat → List (Nat × Nat)
  | _, _, [] => []
  | offset, start_offset, n :: ns =>
    (offset, start_offset) ::
      places size total (next_place size total n offset start_offset).1
        (next_place size total n offset start_offset).2 ns

@[simp] theorem places_length (size total offset start_offset : Nat) (ns : List Nat) :
    (places size total offset start_offset ns).length = ns.length := by
  induction ns generalizing offset start_offset with
  | nil => rfl
  | cons n ns ih => rw [places, List.length_cons, ih, List.length_cons]

/-- The buffer a place is in holds a part of the file, from its start offset on. -/
structure Place.Buffers (c : Place) (file : List UInt8) : Prop where
  blk : c.buf.blk = .input
  pos : c.buf.pos = c.offset
  ends : c.start_offset + (c.offset + c.avail) ≤ file.length
  starts : c.buf.mem.Starts ((file.drop c.start_offset).take (c.offset + c.avail))

/-- Further on in the buffer it still is that part of the file. -/
theorem Place.Buffers.adv {c : Place} {file : List UInt8} (h : c.Buffers file) {n : Nat}
    (hn : n ≤ c.avail) : (c.adv n).Buffers file := by
  have hend : c.offset + n + (c.avail - n) = c.offset + c.avail := by omega
  refine ⟨h.blk, congrArg (· + n) h.pos, ?_, ?_⟩
  · rw [adv_start_offset, adv_offset, adv_avail, hend]
    exact h.ends
  · rw [adv_start_offset, adv_offset, adv_avail, hend]
    exact h.starts

namespace Input

/-- The key loop on a file, between two keys: the buffer goes on with what the file has at the place,
and the end of the file is known when the buffer is not full. -/
structure Tracks (i : Input) (c : Place) (file : List UInt8) (size : Nat) : Prop where
  window : i.Window c (file.drop (c.start_offset + c.offset))
  settled : i.Settled c
  buffers : c.Buffers file
  eof : i.eof = true ∧ file.length - c.start_offset < size ∨
    i.eof = false ∧ i.size = size ∧ size ≤ file.length - c.start_offset

/-- Further on in the buffer, if no refill is due there. -/
theorem Tracks.adv {i : Input} {c : Place} {file xs ys rest : List UInt8} {size : Nat}
    (h : i.Tracks c file size) (hdrop : file.drop (c.start_offset + c.offset) = xs ++ rest)
    (hv : c.Views (xs ++ ys)) (hys : ys ++ i.stdin = rest) (hc : i.Settled (c.adv xs.length)) :
    i.Tracks (c.adv xs.length) file size := by
  have hwindow := h.window
  rw [hdrop] at hwindow
  refine ⟨?_, hc, h.buffers.adv hv.le, h.eof⟩
  have hrest : file.drop (c.start_offset + (c.offset + xs.length)) = rest := by
    rw [← Nat.add_assoc, ← List.drop_drop, hdrop, List.drop_left]
  rw [Place.adv_start_offset, Place.adv_offset, hrest]
  exact hwindow.adv hv hys

/-- The buffer after a key. -/
theorem Tracks.refill {i : Input} {c : Place} {file xs ys rest : List UInt8} {size : Nat}
    (h : i.Tracks c file size) (hdrop : file.drop (c.start_offset + c.offset) = xs ++ rest)
    (hv : c.Views (xs ++ ys)) (hys : ys ++ i.stdin = rest) {b : RdbBufptr}
    (hb : b.On (c.adv xs.length)) :
    ∃ j b' c', i.refill b = (j, b') ∧ b'.On c' ∧ j.Tracks c' file size ∧
      (c'.offset, c'.start_offset) =
        next_place size file.length xs.length c.offset c.start_offset ∧
      file.drop (c'.start_offset + c'.offset) = rest ∧ j.size = i.size ∧
      (i.eof = true → j.eof = true) := by
  have hwindow := h.window
  rw [hdrop] at hwindow
  have hrest : file.drop (c.start_offset + (c.offset + xs.length)) = rest := by
    rw [← Nat.add_assoc, ← List.drop_drop, hdrop, List.drop_left]
  have hbuffers := h.buffers.adv hv.le
  obtain ⟨j, b', c', hrefill, hon, hw, hsettled, hsize, heof, hfull, hcase⟩ :=
    (hwindow.adv hv hys).refill hb
  cases hcase with
  | inl hstay =>
    obtain ⟨rfl, rfl⟩ := hstay
    have hnext : ¬ (size ≤ file.length - c.start_offset ∧ size / 2 < c.offset + xs.length) := by
      rintro ⟨hle, hlt⟩
      cases h.eof with
      | inl heof => omega
      | inr hmore =>
        have hoff := hsettled.resolve_left (by rw [hmore.1]; exact Bool.false_ne_true)
        rw [hmore.2.1, Place.adv_offset] at hoff
        omega
    refine ⟨j, b', _, hrefill, hon, h.adv hdrop hv hys hsettled, ?_, hrest, rfl, id⟩
    rw [next_place, if_neg hnext]
    rfl
  | inr hmove =>
    obtain ⟨⟨hmore, hdue⟩, mem, hc'⟩ := hmove
    obtain ⟨-, hisize, hle⟩ := h.eof.resolve_left fun heof => by
      rw [hmore] at heof
      exact Bool.false_ne_true heof.1
    rw [hisize, Place.adv_offset] at hdue
    obtain ⟨zs, hzs, hsplit⟩ := hw.views
    have hoffset : c'.offset = 0 := by rw [hc']
    have hstart : c'.start_offset = c.start_offset + (c.offset + xs.length) := by rw [hc']; rfl
    have hlen : file.length = c.start_offset + (c.offset + xs.length) + rest.length := by
      have hdroplen := congrArg List.length hrest
      have hends := hbuffers.ends
      rw [List.length_drop] at hdroplen
      simp only [Place.adv_start_offset, Place.adv_offset, Place.adv_avail] at hends
      omega
    have hzs' : (file.drop c'.start_offset).take (c'.offset + c'.avail) = zs := by
      rw [hstart, hrest, ← hsplit, hoffset, Nat.zero_add, hzs.1, List.take_left]
    refine ⟨j, b', c', hrefill, hon, ⟨?_, hsettled, ⟨?_, ?_, ?_, ?_⟩, ?_⟩, ?_, ?_, hsize, heof⟩
    · rw [hstart, hoffset, Nat.add_zero, hrest]
      exact hw
    · rw [hc']
    · rw [hc']
    · rw [hstart, hoffset, hlen, ← hsplit, hzs.1, List.length_append]
      omega
    · rw [hzs']
      have hstarts := hzs.2
      rw [hc', Cursor.ptr, Mem.add_zero] at hstarts
      rw [hc']
      exact hstarts
    · have havail := hzs.1
      have hsum := congrArg List.length hsplit
      rw [List.length_append] at hsum
      rw [hstart, hlen]
      cases hw.ahead with
      | inl hlast =>
        have hlt := hfull hmore hlast.1
        rw [hlast.2, List.length_nil] at hsum
        exact .inl ⟨hlast.1, by omega⟩
      | inr hmore' => exact .inr ⟨hmore'.1, hsize.trans hisize, by omega⟩
    · rw [next_place, if_pos ⟨hle, hdue⟩, hoffset, hstart]
    · rw [hstart, hoffset, Nat.add_zero, hrest]

/-- A mapped file. -/
theorem map_tracks (file : List UInt8) (past : Mem) (size : Nat) :
    (map file past size).Tracks ⟨⟨.input, (map file past size).mem, 0⟩, (map file past size).off, 0, 0⟩
      file (file.length + 1) := by
  have hstarts : (map file past size).mem.Starts file := Mem.ofList_starts file past
  refine ⟨⟨⟨file, ⟨rfl, ?_⟩, List.append_nil file⟩, .inl ⟨rfl, rfl⟩⟩, .inl rfl,
    ⟨rfl, rfl, ?_, ?_⟩, .inl ⟨rfl, Nat.lt_succ_self _⟩⟩
  · rw [Cursor.ptr, Mem.add_zero]
    exact hstarts
  · exact Nat.le_of_eq (by simp [map])
  · simpa [map] using hstarts

end Input

end rdbparser
