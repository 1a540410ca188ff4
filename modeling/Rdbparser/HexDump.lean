import Rdbparser.Bytes

/-! The bytes around an error, as they are displayed. -/

namespace rdbparser

def hex_chars (n : Nat) : UInt8 := UInt8.ofNat (if n < 10 then 0x30 + n else 0x61 + (n - 10))

/-- A line of 80 bytes; `hex` and `ascii` are where the next of its 16 bytes is put. -/
structure HexDump where
  line : List UInt8
  boff : Nat
  hex : Nat
  ascii : Nat
  stream_off : Nat

namespace HexDump

/-- `line[ i ] = c`, which is none outside of the line. -/
def put (row : List UInt8) (i : Nat) (c : UInt8) : Option (List UInt8) :=
  if i < row.length then some (row.set i c) else none

/-- The digits of the offset, from the second last on. -/
def offset_loop : Nat → Nat → List UInt8 → List UInt8
  | 0, k, row => if 0 < k then row.set 0 (hex_chars (k % 16)) else row
  | j + 1, k, row => if 0 < k then offset_loop j (k / 16) (row.set (j + 1) (hex_chars (k % 16))) else row

def blank_line : List UInt8 := List.replicate 79 0x20 ++ [0]

def init_line (stream_off : Nat) : List UInt8 :=
  offset_loop 4 (stream_off / 16) (blank_line.set 5 (hex_chars (stream_off % 16)))

def flush_line (h : HexDump) : HexDump :=
  { line := init_line (h.stream_off + h.boff), boff := 0, hex := 9, ascii := 61, stream_off := h.stream_off + h.boff }

def init (off : Nat) : HexDump := flush_line { line := [], boff := 0, hex := 0, ascii := 0, stream_off := off }

/-- The byte as it is, if it can be printed. -/
def put_ascii (row : List UInt8) (i : Nat) (b : UInt8) : Option (List UInt8) :=
  if 0x20 ≤ b ∧ b ≤ 127 then put row i b else some row

/-- A byte of a line. -/
def fill_byte (h : HexDump) (b : UInt8) : Option HexDump := do
  let row ← put h.line h.hex (hex_chars (b.toNat / 16))
  let row ← put row (h.hex + 1) (hex_chars (b.toNat % 16))
  let row ← put_ascii row h.ascii b
  let boff := h.boff + 1
  some { h with line := row, boff := boff, hex := if boff % 4 = 0 then h.hex + 4 else h.hex + 3, ascii := h.ascii + 1 }

/-- The offset that is reached, and the line with the bytes up to it. -/
def fill_line (ptr : Mem) (off len : Nat) (h : HexDump) : Option (Nat × HexDump) :=
  if off < len ∧ h.boff < 16 then do
    let h ← h.fill_byte (ptr off)
    fill_line ptr (off + 1) len h
  else some (off, h)
termination_by len - off

/-- The text of a line as it is printed. -/
def text (h : HexDump) : List UInt8 := h.line.takeWhile (· ≠ 0)

/-- The lines from an offset on, of which there are at most `fuel`. -/
def print_loop (b : Mem) (last : Nat) : Nat → Nat → HexDump → Option (List (List UInt8))
  | 0, off, _ => if off < last then none else some []
  | fuel + 1, off, h =>
    if off < last then do
      let (off, h) ← h.fill_line b off last
      let lines ← print_loop b last fuel off h.flush_line
      pure (h.text :: lines)
    else some []

end HexDump

/-- The lines of a dump of the bytes from `off` to `last`. -/
def print_hex (off last : Nat) (b : Mem) : Option (List (List UInt8)) :=
  HexDump.print_loop b last (last - off) off (.init off)

namespace HexDump

/-- Where the digits of a byte are. -/
def hex_at (k : Nat) : Nat := 9 + 3 * k + k / 4

def read_digit (c : UInt8) : Option Nat := (List.range 16).find? fun n => hex_chars n = c

/-- The byte at a place of a line. -/
def read_byte (row : List UInt8) (k : Nat) : Option UInt8 := do
  let hi ← read_digit (← row[hex_at k]?)
  let lo ← read_digit (← row[hex_at k + 1]?)
  pure (UInt8.ofNat (16 * hi + lo))

/-- The bytes that are read in a line. -/
def read_line (row : List UInt8) : List UInt8 := (List.range 16).filterMap (read_byte row)

/-- The line shows some bytes. -/
structure Shows (h : HexDump) (bs : List UInt8) : Prop where
  size : h.line.length = 80
  boff : h.boff = bs.length
  room : bs.length ≤ 16
  hex : h.hex = hex_at bs.length
  ascii : h.ascii = 61 + bs.length
  text : ∀ i < 79, ∃ c, h.line[i]? = some c ∧ c ≠ 0
  last : h.line[79]? = some 0
  shown : ∀ k b, bs[k]? = some b →
    h.line[hex_at k]? = some (hex_chars (b.toNat / 16)) ∧ h.line[hex_at k + 1]? = some (hex_chars (b.toNat % 16))
  blank : ∀ k, bs.length ≤ k → k < 16 → h.line[hex_at k]? = some 0x20

theorem hex_chars_ne {n : Nat} (h : n < 16) : hex_chars n ≠ 0 := by
  have hall : ∀ n : Fin 16, hex_chars n ≠ 0 := by decide
  exact hall ⟨n, h⟩

theorem read_digit_hex {n : Nat} (h : n < 16) : read_digit (hex_chars n) = some n := by
  have hall : ∀ n : Fin 16, read_digit (hex_chars n) = some n.val := by decide
  exact hall ⟨n, h⟩

theorem nibbles_lt (b : UInt8) : b.toNat / 16 < 16 ∧ b.toNat % 16 < 16 := by
  have hlt : b.toNat < 256 := b.toNat_lt
  omega

theorem offset_loop_length (j k : Nat) (row : List UInt8) : (offset_loop j k row).length = row.length := by
  induction j generalizing k row with
  | zero => rw [offset_loop]; split <;> simp
  | succ j ih => rw [offset_loop]; split <;> simp [ih]

/-- The digits are in front of what follows. -/
theorem offset_loop_get {j i : Nat} (h : j < i) (k : Nat) (row : List UInt8) : (offset_loop j k row)[i]? = row[i]? := by
  induction j generalizing k row with
  | zero =>
    rw [offset_loop]
    split
    · rw [List.getElem?_set_ne (by omega)]
    · rfl
  | succ j ih =>
    rw [offset_loop]
    split
    · rw [ih (by omega), List.getElem?_set_ne (by omega)]
    · rfl

/-- There is no zero in the line but the last byte. -/
def Filled (row : List UInt8) : Prop := ∀ i < 79, ∃ c, row[i]? = some c ∧ c ≠ 0

/-- A line that is filled up to its end still is when a byte is stored that is no end itself. -/
theorem Filled.set {row : List UInt8} (h : Filled row) (j : Nat) {c : UInt8} (hc : c ≠ 0) : Filled (row.set j c) := by
  intro i hi
  obtain ⟨d, hd, hne⟩ := h i hi
  obtain ⟨hlen, -⟩ := List.getElem?_eq_some_iff.mp hd
  by_cases hij : j = i
  · subst hij
    exact ⟨c, by simp [hlen], hc⟩
  · exact ⟨d, by rw [List.getElem?_set_ne hij, hd], hne⟩

/-- The digits of the offset are stored inside of the line. -/
theorem Filled.offset_loop {row : List UInt8} (h : Filled row) (j k : Nat) : Filled (offset_loop j k row) := by
  have hdigit : hex_chars (k % 16) ≠ 0 := hex_chars_ne (Nat.mod_lt _ (by decide))
  induction j generalizing k row with
  | zero =>
    rw [HexDump.offset_loop]
    split
    · exact h.set 0 hdigit
    · exact h
  | succ j ih =>
    rw [HexDump.offset_loop]
    split
    · exact ih (h.set _ hdigit) _ (hex_chars_ne (Nat.mod_lt _ (by decide)))
    · exact h

/-- A line without bytes. -/
theorem flush_line_shows (h : HexDump) : h.flush_line.Shows [] := by
  have hblank : ∀ i < 79, blank_line[i]? = some 0x20 := by
    intro i hi
    rw [blank_line, List.getElem?_append_left (by simpa using hi), List.getElem?_replicate, if_pos hi]
  have hget : ∀ i, 5 < i → h.flush_line.line[i]? = blank_line[i]? := by
    intro i hi
    rw [flush_line, init_line, offset_loop_get (by omega), List.getElem?_set_ne (by omega)]
  have hfilled : Filled blank_line := fun i hi => ⟨0x20, hblank i hi, by decide⟩
  refine ⟨?_, rfl, Nat.zero_le _, rfl, rfl, ?_, ?_, ?_, ?_⟩
  · rw [flush_line, init_line, offset_loop_length, List.length_set]
    rfl
  · exact (hfilled.set 5 (hex_chars_ne (Nat.mod_lt _ (by decide)))).offset_loop _ _
  · rw [hget 79 (by decide)]
    rfl
  · intro k b hk
    cases hk
  · intro k _ hk
    have hat : 5 < hex_at k ∧ hex_at k < 79 := by
      unfold hex_at
      omega
    rw [hget _ hat.1, hblank _ hat.2]

/-- A byte is shown at its place, as it is or as a dot, and no other place is changed. -/
theorem put_ascii_run {row : List UInt8} (hline : Filled row) {a : Nat} (ha : a < row.length) (b : UInt8) :
    ∃ row', put_ascii row a b = some row' ∧ row'.length = row.length ∧
      (∀ i, i ≠ a → row'[i]? = row[i]?) ∧ Filled row' := by
  by_cases hb : 0x20 ≤ b ∧ b ≤ 127
  · have hne : b ≠ 0 := by
      rintro rfl
      exact absurd hb.1 (by decide)
    refine ⟨row.set a b, by rw [put_ascii, if_pos hb, put, if_pos ha], List.length_set, ?_, hline.set a hne⟩
    intro i hi
    exact List.getElem?_set_ne (Ne.symm hi)
  · exact ⟨row, by rw [put_ascii, if_neg hb], rfl, fun _ _ => rfl, hline⟩

/-- A byte that is put in a line, which is inside it. -/
theorem fill_byte_shows {h : HexDump} {bs : List UInt8} (hs : h.Shows bs) (hroom : bs.length < 16) (b : UInt8) :
    ∃ g, h.fill_byte b = some g ∧ g.Shows (bs ++ [b]) ∧ g.stream_off = h.stream_off := by
  have hat : hex_at bs.length + 1 < 61 := by
    unfold hex_at
    omega
  have hhi : hex_chars (b.toNat / 16) ≠ 0 := hex_chars_ne (nibbles_lt b).1
  have hlo : hex_chars (b.toNat % 16) ≠ 0 := hex_chars_ne (nibbles_lt b).2
  have hfilled : Filled h.line := hs.text
  obtain ⟨row, hput, hlength, hother, hfill⟩ := put_ascii_run
    ((hfilled.set (hex_at bs.length) hhi).set (hex_at bs.length + 1) hlo) (a := 61 + bs.length)
    (by rw [List.length_set, List.length_set, hs.size]; omega) b
  rw [List.length_set, List.length_set, hs.size] at hlength
  have hhex : ∀ i, i ≠ 61 + bs.length → i ≠ hex_at bs.length → i ≠ hex_at bs.length + 1 → row[i]? = h.line[i]? := by
    intro i ha hi hi'
    rw [hother i ha, List.getElem?_set_ne (Ne.symm hi'), List.getElem?_set_ne (Ne.symm hi)]
  refine ⟨⟨row, h.boff + 1, if (h.boff + 1) % 4 = 0 then h.hex + 4 else h.hex + 3, h.ascii + 1, h.stream_off⟩, ?_,
    ?_, rfl⟩
  · rw [fill_byte, hs.hex, hs.ascii, put, if_pos (by rw [hs.size]; omega)]
    simp only [Option.bind_eq_bind, Option.bind_some]
    rw [put, if_pos (by rw [List.length_set, hs.size]; omega)]
    simp only [Option.bind_some, hput]
  · refine ⟨hlength, ?_, ?_, ?_, ?_, hfill, ?_, ?_, ?_⟩
    · rw [List.length_append]
      exact congrArg (· + 1) hs.boff
    · rw [List.length_append]
      exact hroom
    · rw [List.length_append, List.length_singleton, hs.boff, hs.hex]
      unfold hex_at
      dsimp only
      split <;> omega
    · rw [List.length_append, hs.ascii]
      rfl
    · rw [hhex 79 (by omega) (by omega) (by omega), hs.last]
    · intro k c hc
      by_cases hk : k < bs.length
      · rw [List.getElem?_append_left hk] at hc
        have hbefore : hex_at k + 1 < hex_at bs.length := by
          unfold hex_at
          omega
        rw [hhex _ (by omega) (by omega) (by omega), hhex _ (by omega) (by omega) (by omega)]
        exact hs.shown k c hc
      · have hlen : k < (bs ++ [b]).length := (List.getElem?_eq_some_iff.mp hc).1
        rw [List.length_append, List.length_singleton] at hlen
        obtain rfl : k = bs.length := by omega
        rw [List.getElem?_concat_length] at hc
        obtain rfl := Option.some.inj hc
        rw [hother _ (by omega), hother _ (by omega), List.getElem?_set_ne (by omega), List.getElem?_set_self
          (by rw [hs.size]; omega), List.getElem?_set_self (by rw [List.length_set, hs.size]; omega)]
        exact ⟨rfl, rfl⟩
    · intro k hk hk'
      rw [List.length_append, List.length_singleton] at hk
      have hafter : hex_at bs.length + 1 < hex_at k ∧ hex_at k < 61 := by
        unfold hex_at
        omega
      rw [hhex _ (by omega) (by omega) (by omega)]
      exact hs.blank k (by omega) hk'

/-- A line is filled until it is full, or there are no bytes left. -/
theorem fill_line_shows {h : HexDump} {bs : List UInt8} (hs : h.Shows bs) (ptr : Mem) (off len : Nat) :
    ∃ g, h.fill_line ptr off len = some (off + min (len - off) (16 - bs.length), g) ∧
      g.Shows (bs ++ (ptr.add off).take (min (len - off) (16 - bs.length))) := by
  induction hleft : len - off generalizing h bs off with
  | zero =>
    refine ⟨h, ?_, ?_⟩
    · rw [fill_line, if_neg (by omega), Nat.zero_min, Nat.add_zero]
    · rw [Nat.zero_min, Mem.take_zero, List.append_nil]
      exact hs
  | succ n ih =>
    by_cases hroom : bs.length < 16
    · obtain ⟨g, hfill, hg, -⟩ := fill_byte_shows hs hroom (ptr off)
      obtain ⟨g', hrest, hg'⟩ := ih hg (off + 1) (by omega)
      rw [List.length_append, List.length_singleton] at hrest hg'
      have hmin : min (n + 1) (16 - bs.length) = min n (16 - (bs.length + 1)) + 1 := by omega
      refine ⟨g', ?_, ?_⟩
      · rw [fill_line, if_pos ⟨by omega, by rw [hs.boff]; exact hroom⟩, hfill, hmin]
        simp only [Option.bind_eq_bind, Option.bind_some, hrest]
        rw [Nat.add_assoc, Nat.add_comm 1]
      · rw [hmin, Mem.take_succ, ← List.singleton_append, ← List.append_assoc, Mem.add_add, Mem.add_apply, Nat.add_zero]
        exact hg'
    · refine ⟨h, ?_, ?_⟩
      · rw [fill_line, if_neg (by rw [hs.boff]; omega), show 16 - bs.length = 0 by omega, Nat.min_zero, Nat.add_zero]
      · rw [show 16 - bs.length = 0 by omega, Nat.min_zero, Mem.take_zero, List.append_nil]
        exact hs

/-- What is printed is all of the line but the zero at its end. -/
theorem Shows.text_get {h : HexDump} {bs : List UInt8} (hs : h.Shows bs) {i : Nat} (hi : i < 79) :
    h.text[i]? = h.line[i]? := by
  have hdrop : h.line.drop 79 = [0] := by
    have hlen : (h.line.drop 79).length = 1 := by rw [List.length_drop, hs.size]
    obtain ⟨c, hc⟩ := List.length_eq_one_iff.mp hlen
    have hlast : (h.line.drop 79)[0]? = some 0 := by rw [List.getElem?_drop]; exact hs.last
    rw [hc] at hlast ⊢
    exact congrArg (fun c => [c]) (Option.some.inj hlast)
  have hall : ∀ c ∈ h.line.take 79, decide (c ≠ 0) = true := by
    intro c hc
    obtain ⟨i, hi, hget⟩ := List.mem_take_iff_getElem.mp hc
    obtain ⟨d, hd, hne⟩ := hs.text i (by omega)
    rw [List.getElem?_eq_some_iff] at hd
    obtain ⟨_, rfl⟩ := hd
    exact decide_eq_true (hget ▸ hne)
  have htext : h.text = h.line.take 79 := by
    rw [HexDump.text]
    conv_lhs => rw [← List.take_append_drop 79 h.line, List.takeWhile_append_of_pos hall, hdrop]
    exact List.append_nil _
  rw [htext, List.getElem?_take, if_pos hi]

theorem filterMap_range (bs : List UInt8) (n : Nat) : (List.range n).filterMap (fun k => bs[k]?) = bs.take n := by
  induction n with
  | zero => rfl
  | succ n ih =>
    rw [List.range_succ, List.filterMap_append, ih, List.take_add_one]
    cases h : bs[n]? <;> simp [h]

/-- The bytes of a line are read in it. -/
theorem Shows.read_line {h : HexDump} {bs : List UInt8} (hs : h.Shows bs) : read_line h.text = bs := by
  have hread : ∀ k ∈ List.range 16, read_byte h.text k = bs[k]? := by
    intro k hk
    have hk : k < 16 := List.mem_range.mp hk
    have hat : hex_at k + 1 < 79 := by
      unfold hex_at
      omega
    rw [read_byte, hs.text_get (Nat.lt_of_succ_lt hat), hs.text_get hat]
    cases hb : bs[k]? with
    | none =>
      rw [hs.blank k (List.getElem?_eq_none_iff.mp hb) hk]
      rfl
    | some b =>
      obtain ⟨hhi, hlo⟩ := hs.shown k b hb
      rw [hhi, hlo]
      simp only [Option.bind_eq_bind, Option.bind_some, read_digit_hex (nibbles_lt b).1,
        read_digit_hex (nibbles_lt b).2, Option.pure_def]
      rw [Nat.div_add_mod, UInt8.ofNat_toNat]
  rw [HexDump.read_line, List.filterMap_congr hread, filterMap_range, List.take_of_length_le hs.room]

/-- The lines from an offset on, beginning with an empty one. -/
theorem print_loop_read {h : HexDump} (hs : h.Shows []) (b : Mem) (last fuel off : Nat) (hfuel : last - off ≤ fuel) :
    ∃ lines, print_loop b last fuel off h = some lines ∧ lines.flatMap read_line = (b.add off).take (last - off) ∧
      ∀ row ∈ lines, (read_line row).length ≤ 16 := by
  induction fuel generalizing h off with
  | zero =>
    have hend : last - off = 0 := Nat.le_zero.mp hfuel
    refine ⟨[], by rw [print_loop, if_neg (by omega)], ?_, List.forall_mem_nil _⟩
    rw [hend]
    rfl
  | succ fuel ih =>
    by_cases hoff : off < last
    · obtain ⟨g, hfill, hg⟩ := fill_line_shows hs b off last
      rw [List.length_nil, Nat.sub_zero] at hfill hg
      rw [List.nil_append] at hg
      obtain ⟨lines, hrest, hread, hshort⟩ := ih (flush_line_shows g) (off + min (last - off) 16) (by omega)
      refine ⟨g.text :: lines, ?_, ?_, ?_⟩
      · rw [print_loop, if_pos hoff, hfill]
        simp only [Option.bind_eq_bind, Option.bind_some, hrest, Option.pure_def]
      · rw [List.flatMap_cons, hg.read_line, hread, ← Mem.add_add, ← Mem.take_add]
        congr 1
        omega
      · refine List.forall_mem_cons.mpr ⟨?_, hshort⟩
        rw [hg.read_line]
        exact hg.room
    · have hend : last - off = 0 := by omega
      refine ⟨[], by rw [print_loop, if_neg hoff], ?_, List.forall_mem_nil _⟩
      rw [hend]
      rfl

end HexDump

/-- The bytes that are displayed around the one at `off`, of `end_off`. -/
def error_window (off end_off : Nat) : Nat × Nat :=
  let lo := (if off < 256 then 0 else off - 256) / 16 * 16
  (lo, if lo + 512 < end_off then lo + 512 else end_off)

/-- The dump around an error is read back: it has the bytes of a window of at most 512 that the one at the error
is in, and no line is stored to outside of its 80 bytes. Nothing is assumed of the bytes, nor of how many there
are on either side. -/
theorem error_window_read (b : Mem) {off end_off : Nat} (hoff : off < end_off) :
    (error_window off end_off).1 ≤ off ∧ off < (error_window off end_off).2 ∧ (error_window off end_off).2 ≤ end_off ∧
      (error_window off end_off).2 ≤ (error_window off end_off).1 + 512 ∧
      ∃ lines, print_hex (error_window off end_off).1 (error_window off end_off).2 b = some lines ∧
        lines.flatMap HexDump.read_line =
          (b.add (error_window off end_off).1).take ((error_window off end_off).2 - (error_window off end_off).1) ∧
        ∀ row ∈ lines, (HexDump.read_line row).length ≤ 16 := by
  obtain ⟨lo, hi, hwindow⟩ : ∃ lo hi, error_window off end_off = (lo, hi) := ⟨_, _, rfl⟩
  have hbounds : lo ≤ off ∧ off < hi ∧ hi ≤ end_off ∧ hi ≤ lo + 512 := by
    rw [error_window, Prod.mk.injEq] at hwindow
    obtain ⟨rfl, rfl⟩ := hwindow
    split <;> split <;> omega
  rw [hwindow]
  exact ⟨hbounds.1, hbounds.2.1, hbounds.2.2.1, hbounds.2.2.2,
    HexDump.print_loop_read (HexDump.flush_line_shows _) b hi (hi - lo) lo (Nat.le_refl _)⟩

/-- In a thousand bytes: 512 of them are dumped, from the 33rd on. -/
theorem error_window_read_long :
    (error_window 300 1000).1 ≤ 300 ∧ 300 < (error_window 300 1000).2 ∧ (error_window 300 1000).2 ≤ 1000 ∧
      (error_window 300 1000).2 ≤ (error_window 300 1000).1 + 512 ∧
      ∃ lines, print_hex (error_window 300 1000).1 (error_window 300 1000).2 UInt8.ofNat = some lines ∧
        lines.flatMap HexDump.read_line =
          (Mem.add UInt8.ofNat (error_window 300 1000).1).take ((error_window 300 1000).2 - (error_window 300 1000).1) ∧
        ∀ row ∈ lines, (HexDump.read_line row).length ≤ 16 :=
  error_window_read UInt8.ofNat (by decide)

end rdbparser
