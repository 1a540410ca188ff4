import Mathlib.Logic.Function.Iterate
import Rdbparser.Encode.Zip

/-! Zip lists that are written and traversed from the tail. -/

namespace rdbparser.RdbZipEncode

open format RdbZipList ZipLinkEnc

/-- The link to the entry before, at the entry at `i`. -/
def prev_link (p : Mem) (i : Nat) : Nat := zlink_val (zlink_prev (p i)) (p.add i)

/-- Where the link leads. -/
def entry_before (p : Mem) (i : Nat) : Nat := i - prev_link p i

/-- Where the entry for the string `k` begins. -/
def entry_start (out : Mem) (args : List LinkArg) (k : Nat) : Nat := ((args.take k).foldl append (init out)).off

/-- Fewer entries take no more bytes. -/
theorem entries_size_take (n : Nat) (lens : List Nat) (k : Nat) :
    entries_size n (lens.take k) ≤ entries_size n lens := by
  induction lens generalizing n k with
  | nil =>
    rw [List.take_nil]
  | cons len lens ih =>
    cases k with
    | zero => exact Nat.zero_le _
    | succ k => exact Nat.add_le_add_left (ih _ k) _

variable {out : Mem} {args : List LinkArg}

/-- Where an entry of a ziplist starts is told by the lengths of the ones in front of it. -/
theorem entry_start_eq (hfits : 10 + entries_size 0 (args.map fun a => a.text.length) + 1 < 2 ^ 32) (k : Nat) :
    entry_start out args k = 10 + entries_size 0 ((args.take k).map fun a => a.text.length) := by
  have hle := entries_size_take 0 (args.map fun a => a.text.length) k
  rw [← List.map_take] at hle
  obtain ⟨es, -, helems, hlens, hwritten⟩ := appends_written (e := init out) (args.take k) (.of_room out 10)
    (show 0 + zlink_size ZIP_END = 0 by decide) (by decide) (by
    rw [Mem.take_length]
    omega)
  have hcount : es.length = (args.take k).length := by simpa using congrArg List.length helems
  have hlen := hlens es.length
  rw [List.take_length, hcount, List.take_length] at hlen
  rw [entry_start, hwritten.off_eq, List.length_append, Mem.take_length, hlen]

theorem Linked.append {n : Nat} {es : List ZipEntry} {x y : ZipEntry} {rest : List ZipEntry}
    (h : Linked n (es ++ x :: y :: rest)) :
    y.prev.val = x.bytes.length := by
  induction es generalizing n with
  | nil => exact h.2.1
  | cons z es ih => exact ih h.2

theorem exists_split {α : Type} {as : List α} {k : Nat} (h : k + 1 < as.length) :
    ∃ a b rest, as = as.take k ++ a :: b :: rest ∧ as.take (k + 1) = as.take k ++ [a] :=
  ⟨as[k], as[k + 1], as.drop (k + 2),
    by rw [← List.drop_eq_getElem_cons h, ← List.drop_eq_getElem_cons, List.take_append_drop],
    List.take_succ_eq_append_getElem _⟩

/-- A link is read where its entry begins. -/
theorem prev_link_starts {p : Mem} {i : Nat} {x : ZipEntry} (h : (p.add i).Starts x.bytes) :
    prev_link p i = x.prev.val := by
  rw [ZipEntry.bytes, Mem.starts_append] at h
  exact zlink_val_prev x.prev h.1

/-- The header is in front of the entries. -/
theorem zlist_header {l : format.ZipList} {p : Mem} (h : p.Starts l.bytes) : le_nat (p.take 4) = l.zlbytes % 2 ^ 32 ∧
    le_nat ((p.add 4).take 4) = l.zltail % 2 ^ 32 ∧ le_nat ((p.add 8).take 2) = l.zllen % 2 ^ 16 := by
  rw [format.ZipList.bytes, Mem.starts_append, ZipList.header, Mem.starts_append, Mem.starts_append] at h
  obtain ⟨⟨hbytes, htail, hllen⟩, -⟩ := h
  have htake := hbytes.take
  have htake4 := htail.take
  have htake8 := hllen.take
  simp only [le_bytes_length, Mem.add_add] at htake htake4 htake8
  rw [htake, htake4, htake8, le_nat_le_bytes, le_nat_le_bytes, le_nat_le_bytes]
  exact ⟨rfl, rfl, rfl⟩

/-- The entries are behind the header, one behind the other. -/
theorem zlist_entry {l : format.ZipList} {p : Mem} (h : p.Starts l.bytes) {es rest : List ZipEntry} {x : ZipEntry}
    (hl : l.entries = es ++ x :: rest) : (p.add (10 + (es.flatMap ZipEntry.bytes).length)).Starts x.bytes := by
  have hheader : l.header.length = 10 := by
    simp only [format.ZipList.header, List.length_append, le_bytes_length]
  rw [format.ZipList.bytes, Mem.starts_append, hl, List.flatMap_append, List.flatMap_cons,
    List.append_assoc, List.append_assoc,
    Mem.starts_append, Mem.starts_append, hheader, Mem.add_add] at h
  exact h.2.2.1

/-- An append begins where the one before has ended. -/
theorem append_prev_off (e : RdbZipEncode) (a : LinkArg) : (e.append a).prev_off = e.off := by
  have hprev : ∀ (e : RdbZipEncode) (val : Nat), (e.encode_prev val).prev_off = e.prev_off := by
    intro e val
    unfold encode_prev
    split <;> rfl
  have hlen : ∀ (e : RdbZipEncode) (n : Nat), (e.encode_len n).prev_off = e.prev_off := by
    intro e n
    unfold encode_len
    split <;> rfl
  cases a with
  | whole data sz => exact (hlen _ _).trans (hprev _ _)
  | two data data2 sz sz2 => exact (hlen _ _).trans (hprev _ _)

/-- The offset of the last entry is kept for the header. -/
theorem foldl_append_prev_off (hne : args ≠ []) : (args.foldl append (init out)).prev_off = entry_start out args
    (args.length - 1) := by
  rw [entry_start, ← List.dropLast_eq_take]
  conv => lhs; rw [← List.dropLast_append_getLast hne, List.foldl_append]
  exact append_prev_off _ _

/-- What is written is traversed from the tail, entry by entry, by the links: as many steps as there are entries
in front of the last one lead to the first, which links to none. The strings may be of any lengths that fit the
list, and nothing is assumed of the memory it is written to. -/
theorem zip_encode_back (out : Mem) (args : List LinkArg) (count : Nat) (hne : args ≠ [])
    (hfits : 10 + entries_size 0 (args.map fun a => a.text.length) + 1 < 2 ^ 32) :
    le_nat ((encode out args count).p.take 4) = (encode out args count).off ∧
    le_nat (((encode out args count).p.add 8).take 2) = min count 0xffff ∧
    (∀ j < args.length, (entry_before (encode out args count).p)^[j]
      (le_nat (((encode out args count).p.add 4).take 4)) =
      entry_start out args (args.length - 1 - j)) ∧
    (∀ k < args.length, entry_start out args k = 10 ↔ k = 0) ∧ prev_link (encode out args count).p 10 = 0 := by
  obtain ⟨l, htail, hlinked, hlens, helems, hllen, hsize, hstarts, hoff⟩ := encode_written out args count hfits
  have hcount : l.entries.length = args.length := by simpa using congrArg List.length helems
  have hstart : ∀ k, entry_start out args k = 10 + ((l.entries.take k).flatMap ZipEntry.bytes).length := fun k => by
    rw [entry_start_eq hfits, hlens]
  have hprev : ∀ k, k + 1 < args.length →
      entry_before (encode out args count).p (entry_start out args (k + 1)) = entry_start out args k := by
    intro k hk
    obtain ⟨x, y, rest, hsplit, htake⟩ := exists_split (hcount ▸ hk)
    have hnext : l.entries = (l.entries.take k ++ [x]) ++ y :: rest := by rw [List.append_assoc]; exact hsplit
    have hy := zlist_entry hstarts hnext
    have hval : y.prev.val = x.bytes.length := (hsplit ▸ hlinked).append
    rw [entry_before, hstart (k + 1), hstart k, htake, prev_link_starts hy, hval, List.flatMap_append,
      List.length_append,
      List.flatMap_singleton]
    omega
  obtain ⟨hzlbytes, hzltail, hzllen⟩ := zlist_header hstarts
  have hlast : entry_start out args (args.length - 1) = _ := entry_start_eq hfits (args.length - 1)
  have hlt := entries_size_take 0 (args.map fun a => a.text.length) (args.length - 1)
  rw [← List.map_take] at hlt
  have hpos : 0 < args.length := List.length_pos_iff.mpr hne
  refine ⟨?_, ?_, ?_, ?_, ?_⟩
  · rw [hzlbytes, hoff, l.bytes_length]
    exact Nat.mod_eq_of_lt l.fits
  · rw [hzllen, hllen]
    omega
  · intro j hj
    induction j with
    | zero =>
      rw [Function.iterate_zero_apply, hzltail, htail, foldl_append_prev_off hne, Nat.mod_eq_of_lt (by omega)]
      rfl
    | succ j ih =>
      rw [Function.iterate_succ_apply', ih (Nat.lt_of_succ_lt hj)]
      have hstep := hprev (args.length - 1 - (j + 1)) (by omega)
      rwa [show args.length - 1 - (j + 1) + 1 = args.length - 1 - j by omega] at hstep
  · intro k hk
    rw [entry_start_eq hfits]
    cases k with
    | zero => exact ⟨fun _ => rfl, fun _ => rfl⟩
    | succ k =>
      obtain ⟨a, args, rfl⟩ := List.exists_cons_of_ne_nil hne
      have hsize : 0 < entry_size 0 a.text.length := by
        rw [entry_size, if_pos (show 0 < 0xfe by decide)]
        omega
      rw [List.take_succ_cons, List.map_cons, entries_size]
      omega
  · obtain ⟨x, es, hl⟩ := List.exists_cons_of_ne_nil (List.ne_nil_of_length_pos (hcount ▸ hpos))
    have hx : ((encode out args count).p.add 10).Starts x.bytes :=
      zlist_entry hstarts (show l.entries = [] ++ x :: es from hl)
    rw [hl] at hlinked
    rw [prev_link_starts hx]
    exact hlinked.1

theorem zip_encode_back_two : le_nat ((encode 0 two_args 2).p.take 4) = (encode 0 two_args 2).off ∧
    le_nat (((encode 0 two_args 2).p.add 8).take 2) = 2 ∧
    (∀ j < 2, (entry_before (encode 0 two_args 2).p)^[j] (le_nat (((encode 0 two_args 2).p.add 4).take 4)) =
      entry_start 0 two_args (1 - j)) ∧
    (∀ k < 2, entry_start 0 two_args k = 10 ↔ k = 0) ∧ prev_link (encode 0 two_args 2).p 10 = 0 :=
  zip_encode_back 0 two_args 2 (by decide) (by decide)

end rdbparser.RdbZipEncode
