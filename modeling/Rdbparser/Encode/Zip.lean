import Mathlib.Algebra.BigOperators.Group.List.Basic
import Rdbparser.Decode.Lists
import Rdbparser.Encode.Written
import Rdbparser.ZipList.Walk

/-! Zip lists that are written and read back. -/

namespace rdbparser.RdbZipEncode

open format RdbZipList ZipLinkEnc

def append (e : RdbZipEncode) : LinkArg → RdbZipEncode
  | .whole data sz => e.append_link data sz
  | .two data data2 sz sz2 => e.append_link_two data data2 sz sz2

/-- What is written for the strings. -/
def encode (out : Mem) (args : List LinkArg) (count : Nat) : RdbZipEncode :=
  (args.foldl append (init out)).append_end count

/-- The size of an entry for a string of `len` bytes, behind one of `prev` bytes. -/
def entry_size (prev len : Nat) : Nat :=
  (if prev < 0xfe then 1 else 5) + (if len < 2 ^ 6 then 1 else if len < 2 ^ 14 then 2 else 5) + len

/-- The size of the entries for strings of these lengths, behind an entry of `prev` bytes. -/
def entries_size : Nat → List Nat → Nat
  | _, [] => 0
  | prev, len :: lens => entry_size prev len + entries_size (entry_size prev len) lens

variable {e : RdbZipEncode} {xs : List UInt8}

theorem put_written (h : Written e.p e.off xs) (bs : List UInt8) (hfits : xs.length + bs.length < 2 ^ 32) :
    Written (e.put bs).p (e.put bs).off (xs ++ bs) := h.store bs hfits

/-- The link to the entry before. -/
theorem append_prev_written (h : Written e.p e.off xs) {n : Nat} (hn : e.link_sz + zlink_size e.prev = n)
    (hfits : xs.length + (if n < 0xfe then 1 else 5) < 2 ^ 32) (hlt : n < 2 ^ 32) :
    ∃ prev : ZipPrev, prev.val = n ∧ prev.bytes.length = (if n < 0xfe then 1 else 5) ∧
      Written e.append_prev.p e.append_prev.off (xs ++ prev.bytes) ∧
        zlink_size e.append_prev.prev = prev.bytes.length := by
  rw [append_prev, hn, u32_of_lt hlt]
  by_cases hsmall : n < 0xfe
  · have hcode : zprev_code n = LEN_8 := if_pos hsmall
    rw [if_pos hsmall] at hfits ⊢
    rw [hcode]
    refine ⟨.len8 n hsmall, rfl, rfl, ?_, zlink_size_eq _⟩
    exact put_written (e := { e with prev_off := e.off, prev := LEN_8 }) h [UInt8.ofNat n] (by
      rw [List.length_singleton]
      omega)
  · have hcode : zprev_code n = LEN_32 := by
      have hmask : n &&& 0xffffffff = n := (and_mask_eq (k := 32)).mpr hlt
      rw [zprev_code, if_neg hsmall, if_pos hmask]
    rw [if_neg hsmall] at hfits ⊢
    rw [hcode]
    refine ⟨.len32 n hlt, rfl, by rw [ZipPrev.bytes, List.length_cons, le_bytes_length], ?_, ?_⟩
    · have hmark := put_written (e := { e with prev_off := e.off, prev := LEN_32 }) h [0xfe] (by
        rw [List.length_singleton]
        omega)
      have hval := put_written hmark (le_bytes 4 n) (by
        rw [List.length_append, le_bytes_length, List.length_singleton]
        omega)
      rw [List.append_assoc] at hval
      exact hval
    · rw [ZipPrev.bytes, List.length_cons, le_bytes_length]
      exact zlink_size_eq _

/-- The length of a string in the shortest form. -/
def str_form (n : Nat) : ZipStrForm := if n < 2 ^ 6 then .len6 else if n < 2 ^ 14 then .len14 else .len32

theorem str_form_fits {n : Nat} (h : n < 2 ^ 32) : n < (str_form n).bound := by
  unfold str_form
  split
  · assumption
  · split
    · assumption
    · exact h

/-- The opcode of a string takes one, two or five bytes. -/
theorem str_form_length (n : Nat) :
    ((str_form n).bytes n).length = if n < 2 ^ 6 then 1 else if n < 2 ^ 14 then 2 else 5 := by
  unfold str_form
  split
  · rfl
  · split
    · rfl
    · rw [ZipStrForm.bytes, List.length_cons, be_bytes_length]

/-- The opcode that is chosen is the shortest that the length fits. -/
theorem znext_str_code_eq {n : Nat} (h : n < 2 ^ 32) : znext_str_code n = str_enc (str_form n) := by
  have hmask6 : n &&& 0x3f = n ↔ n < 2 ^ 6 := and_mask_eq (k := 6)
  have hmask14 : n &&& 0x3fff = n ↔ n < 2 ^ 14 := and_mask_eq (k := 14)
  have hmask32 : n &&& 0xffffffff = n ↔ n < 2 ^ 32 := and_mask_eq (k := 32)
  simp only [znext_str_code, hmask6, hmask14, hmask32, if_pos h, str_form]
  split
  · rfl
  · split <;> rfl

/-- The opcode of a string is put down with its length in 6, 14 or 32 bits. -/
theorem encode_len_written (h : Written e.p e.off xs) {n : Nat} (hn : n < 2 ^ 32)
    (hnext : e.next = str_enc (str_form n))
    (hfits : xs.length + ((str_form n).bytes n).length < 2 ^ 32) :
    Written (e.encode_len n).p (e.encode_len n).off (xs ++ (str_form n).bytes n) := by
  rw [encode_len, hnext]
  by_cases h6 : n < 2 ^ 6
  · have hform : str_form n = .len6 := if_pos h6
    rw [hform] at hfits ⊢
    exact put_written h _ hfits
  · by_cases h14 : n < 2 ^ 14
    · have hform : str_form n = .len14 := by rw [str_form, if_neg h6, if_pos h14]
      have hbytes : ZipStrForm.len14.bytes n =
          [(0x40 : UInt8) ||| UInt8.ofNat (n >>> 8), UInt8.ofNat (n &&& 0xff)] := by
        have hhi : ∀ n < 64, (0x40 : UInt8) ||| UInt8.ofNat n = UInt8.ofNat (0x40 + n) := by decide
        rw [ofNat_and_0xff, Nat.shiftRight_eq_div_pow, hhi (n / 2 ^ 8) (by omega)]
        rfl
      rw [hform, hbytes] at hfits ⊢
      have hhi := put_written h [(0x40 : UInt8) ||| UInt8.ofNat (n >>> 8)] (by
        simp only [List.length_cons, List.length_nil] at hfits ⊢
        omega)
      have hlo := put_written hhi [UInt8.ofNat (n &&& 0xff)] (by
        simp only [List.length_append, List.length_cons, List.length_nil] at hfits ⊢
        omega)
      rwa [List.append_assoc] at hlo
    · have hform : str_form n = .len32 := by rw [str_form, if_neg h6, if_neg h14]
      rw [hform] at hfits ⊢
      rw [ZipStrForm.bytes, List.length_cons, be_bytes_length] at hfits
      have hmark := put_written h [0x80] (by
        rw [List.length_singleton]
        omega)
      have hval := put_written hmark (be_bytes 4 n) (by
        rw [List.length_append, be_bytes_length, List.length_singleton]
        omega)
      rwa [List.append_assoc] at hval

theorem str_enc_size (form : ZipStrForm) (n : Nat) : zlink_size (str_enc form) = (form.bytes n).length := by
  rw [zlink_size_eq]
  cases form with
  | len6 => rfl
  | len14 => rfl
  | len32 => rw [ZipStrForm.bytes, List.length_cons, be_bytes_length]; rfl

/-- The codes are kept for the size of the entry. -/
theorem encode_len_codes (e : RdbZipEncode) (n : Nat) :
    (e.encode_len n).next = e.next ∧ (e.encode_len n).prev = e.prev := by
  unfold encode_len
  split <;> exact ⟨rfl, rfl⟩

/-- An entry as it is written. -/
def entry (prev : ZipPrev) (text : List UInt8) (h : text.length < 2 ^ 32) : ZipEntry :=
  ⟨prev, .str (str_form text.length) text (str_form_fits h)⟩

/-- An entry is put down behind what is there, with the link to the one in front of it and its own opcode. -/
theorem append_written (a : LinkArg) (h : Written e.p e.off xs) {n : Nat} (hn : e.link_sz + zlink_size e.prev = n)
    (hlt : n < 2 ^ 32) (hfits : xs.length + entry_size n a.text.length < 2 ^ 32) :
    ∃ x : ZipEntry, x.prev.val = n ∧ x.item.elem = .str a.text ∧ x.bytes.length = entry_size n a.text.length ∧
      Written (e.append a).p (e.append a).off (xs ++ x.bytes) ∧
      (e.append a).link_sz + zlink_size (e.append a).prev = x.bytes.length := by
  have hsize : entry_size n a.text.length = (if n < 0xfe then 1 else 5) +
      ((str_form a.text.length).bytes a.text.length).length + a.text.length := by rw [str_form_length]; rfl
  rw [hsize] at hfits
  have htext : a.text.length < 2 ^ 32 := by omega
  obtain ⟨prev, hval, hprev, hwritten, hcode⟩ := append_prev_written h hn (by omega) hlt
  rw [← hprev] at hfits hsize
  refine ⟨entry prev a.text htext, hval, rfl, ?_, ?_⟩
  · rw [hsize, entry, ZipEntry.bytes, ZipItem.bytes, List.length_append, List.length_append, Nat.add_assoc]
  have hlen := encode_len_written
    (e := { e.append_prev with next := str_enc (str_form a.text.length) }) hwritten htext rfl
    (by rw [List.length_append]; omega)
  have hbytes : xs ++ (entry prev a.text htext).bytes =
      xs ++ prev.bytes ++ (str_form a.text.length).bytes a.text.length ++ a.text := by
    rw [entry, ZipEntry.bytes, ZipItem.bytes, List.append_assoc, List.append_assoc]
  have hlink : ∀ sz, sz = a.text.length → u32 (zlink_size (str_enc (str_form a.text.length)) + sz) +
      zlink_size e.append_prev.prev = (entry prev a.text htext).bytes.length := by
    rintro sz rfl
    have hform := str_enc_size (str_form a.text.length) a.text.length
    rw [hcode, u32_of_lt (by omega), entry, ZipEntry.bytes, ZipItem.bytes, List.length_append, List.length_append]
    dsimp only
    omega
  rw [hbytes]
  cases a with
  | whole data sz =>
    have hsz : (LinkArg.whole data sz).text.length = sz := Mem.take_length data sz
    rw [hsz] at hlen hfits hlink ⊢
    have hdata := hlen.store (data.take sz) (by
      rw [List.length_append, List.length_append, Mem.take_length]
      omega)
    obtain ⟨hnext, hsame⟩ := encode_len_codes { e.append_prev with next := str_enc (str_form sz) } sz
    rw [append, append_link, znext_str_code_eq (hsz ▸ htext), encode_next]
    refine ⟨hdata, ?_⟩
    rw [← hlink sz rfl]
    simp only [put, hnext, hsame]
  | two data data2 sz sz2 =>
    have hsz : (LinkArg.two data data2 sz sz2).text.length = sz + sz2 := by
      rw [LinkArg.text, List.length_append, Mem.take_length, Mem.take_length]
    rw [hsz] at hlen hfits hlink htext ⊢
    have hdata := hlen.store_two data data2 sz sz2 (by
      rw [List.length_append, List.length_append]
      omega)
    rw [u32_of_lt htext] at hdata
    obtain ⟨hnext, hsame⟩ := encode_len_codes { e.append_prev with next := str_enc (str_form (sz + sz2)) } (sz + sz2)
    rw [append, append_link_two, u32_of_lt htext, znext_str_code_eq htext, encode_next_two, u32_of_lt htext]
    refine ⟨hdata, ?_⟩
    rw [← hlink (sz + sz2) rfl]
    simp only [hnext, hsame, Nat.add_assoc]

/-- Each entry holds the size of the one before, the first of them `n`. -/
def Linked : Nat → List ZipEntry → Prop
  | _, [] => True
  | n, x :: es => x.prev.val = n ∧ Linked x.bytes.length es

/-- The entries for a sequence of strings. -/
theorem appends_written (args : List LinkArg) (h : Written e.p e.off xs) {n : Nat}
    (hn : e.link_sz + zlink_size e.prev = n)
    (hlt : n < 2 ^ 32) (hfits : xs.length + entries_size n (args.map fun a => a.text.length) < 2 ^ 32) :
    ∃ es : List ZipEntry, Linked n es ∧ (es.map fun x => x.item.elem) = (args.map fun a => .str a.text) ∧
      (∀ k, ((es.take k).flatMap ZipEntry.bytes).length = entries_size n ((args.take k).map fun a => a.text.length)) ∧
      Written (args.foldl append e).p (args.foldl append e).off (xs ++ es.flatMap ZipEntry.bytes) := by
  induction args generalizing e xs n with
  | nil =>
    refine ⟨[], trivial, rfl, fun k => ?_, by rwa [List.flatMap_nil, List.append_nil]⟩
    rw [List.take_nil, List.take_nil]
    rfl
  | cons a args ih =>
    rw [List.map_cons, entries_size] at hfits
    obtain ⟨x, hval, helem, hlen, hwritten, hlink⟩ := append_written a h hn hlt (by omega)
    obtain ⟨es, hlinked, helems, hlens, hrest⟩ := ih hwritten (hlink.trans hlen) (by omega) (by
      rw [List.length_append]
      omega)
    refine ⟨x :: es, ⟨hval, hlen ▸ hlinked⟩, ?_, fun k => ?_, ?_⟩
    · rw [List.map_cons, List.map_cons, helem, helems]
    · cases k with
      | zero => rfl
      | succ k =>
        rw [List.take_succ_cons, List.take_succ_cons, List.flatMap_cons, List.length_append, hlens, hlen,
          List.map_cons, entries_size]
    · rwa [List.flatMap_cons, ← List.append_assoc]

/-- The end marker, and the header in front of it all. -/
theorem append_end_written {hdr body : List UInt8} (hhdr : hdr.length = 10) (h : Written e.p e.off (hdr ++ body))
    (hfits : 10 + body.length + 1 < 2 ^ 32) (count : Nat) :
    Written (e.append_end count).p (e.append_end count).off (le_bytes 4 (10 + body.length + 1) ++
      (le_bytes 4 e.prev_off ++ (le_bytes 2 (min count 0xffff) ++ (body ++ [0xff])))) := by
  have hend := put_written h [0xff] (by
    rw [List.length_append, hhdr, List.length_singleton]
    exact hfits)
  obtain ⟨h4, h8, h10, rfl, hl4, hl8, hl10⟩ : ∃ h4 h8 h10 : List UInt8, hdr = h4 ++ (h8 ++ h10) ∧
      h4.length = 4 ∧ h8.length = 4 ∧ h10.length = 2 :=
    ⟨hdr.take 4, (hdr.drop 4).take 4, (hdr.drop 4).drop 4, by rw [List.take_append_drop, List.take_append_drop],
      by rw [List.length_take]; omega, by rw [List.length_take, List.length_drop]; omega,
      by rw [List.length_drop, List.length_drop]; omega⟩
  have hoff : (e.put [0xff]).off = 10 + body.length + 1 := by
    rw [hend.off_eq, List.length_append, List.length_append, hhdr, List.length_singleton]
  have hmin : (if count ≤ 0xffff then count else 0xffff) = min count 0xffff := by
    split <;> omega
  rw [List.append_assoc, List.append_assoc, List.append_assoc] at hend
  have hbytes := Written.store_inside [] (le_bytes 4 (10 + body.length + 1)) hend (by rw [le_bytes_length, hl4])
  have htail := Written.store_inside (le_bytes 4 (10 + body.length + 1)) (le_bytes 4 e.prev_off) hbytes
    (by rw [le_bytes_length, hl8])
  rw [← List.append_assoc, le_bytes_length] at htail
  have hllen := Written.store_inside _ (le_bytes 2 (min count 0xffff)) htail (by rw [le_bytes_length, hl10])
  rw [hoff, List.append_assoc, List.length_append, le_bytes_length, le_bytes_length] at hllen
  rw [append_end, hoff, hmin]
  exact hllen

/-- What is written for a sequence of strings is a zip list of them. -/
theorem encode_written (out : Mem) (args : List LinkArg) (count : Nat)
    (hfits : 10 + entries_size 0 (args.map fun a => a.text.length) + 1 < 2 ^ 32) :
    ∃ l : format.ZipList, l.zltail = (args.foldl append (init out)).prev_off ∧ Linked 0 l.entries ∧
      (∀ k, ((l.entries.take k).flatMap ZipEntry.bytes).length =
        entries_size 0 ((args.take k).map fun a => a.text.length)) ∧
      (l.entries.map fun x => x.item.elem) = (args.map fun a => .str a.text) ∧
      l.zllen = min count 0xffff ∧ l.bytes.length = 10 + entries_size 0 (args.map fun a => a.text.length) + 1 ∧
      Written (encode out args count).p (encode out args count).off l.bytes := by
  obtain ⟨es, hlinked, helems, hlens, hwritten⟩ := appends_written (e := init out) args (.of_room out 10)
    (show 0 + zlink_size ZIP_END = 0 by decide) (by decide) (by
    rw [Mem.take_length]
    exact Nat.lt_of_succ_lt hfits)
  have hlen : (es.flatMap ZipEntry.bytes).length = entries_size 0 (args.map fun a => a.text.length) := by
    have hcount : es.length = args.length := by simpa using congrArg List.length helems
    have hall := hlens args.length
    rwa [List.take_length, ← hcount, List.take_length] at hall
  rw [← hlen] at hfits ⊢
  refine ⟨⟨(args.foldl append (init out)).prev_off, min count 0xffff, es, hfits⟩, rfl, hlinked, hlens, helems, rfl,
    ZipList.bytes_length _, ?_⟩
  have hend := append_end_written (Mem.take_length out 10) hwritten hfits count
  rw [ZipList.bytes, ZipList.header, List.append_assoc, List.append_assoc]
  exact hend

/-- The list is walked string by string, up to the end marker. -/
theorem of_layout_finds (l : format.ZipList) {b : Ptr} (hb : b.mem.Starts l.bytes) {args : List LinkArg}
    (helems : (l.entries.map fun x => x.item.elem) = args.map fun a => .str a.text) :
    (of_layout l b).walk.Finds (fun i => i + 1 = l.bytes.length ∧ b.mem i = 0xff) (of_layout l b).start
      (args.map fun a => .str a.text) := by
  refine ⟨_, ?_, (of_layout_yields l hb).stops fun hlast => ⟨?_, hlast⟩⟩
  · rw [List.map_map, ← helems]
    rfl
  · rw [List.map_map, l.bytes_length, ZipList.zlbytes, List.length_flatMap]
    rfl

/-- There are no more strings than bytes. -/
theorem length_le_zlbytes (l : format.ZipList) {args : List LinkArg}
    (helems : (l.entries.map fun x => x.item.elem) = args.map fun a => .str a.text) : args.length ≤ l.zlbytes := by
  have hlen : l.entries.length = args.length := by simpa using congrArg List.length helems
  have hle : l.entries.length ≤ (l.entries.flatMap ZipEntry.bytes).length := by
    rw [List.length_flatMap, ← List.length_map (f := fun e : ZipEntry => e.bytes.length)]
    apply List.length_le_sum_of_one_le
    intro n hn
    obtain ⟨e, -, rfl⟩ := List.mem_map.mp hn
    have hpos := e.item.bytes_pos
    rw [ZipEntry.bytes, List.length_append]
    omega
  rw [ZipList.zlbytes]
  omega

/-- There are no more pairs than elements. -/
theorem pairs_length_le {α : Type} (as : List α) : (pairs as).length ≤ as.length := by
  induction as using pairs.induct with
  | case1 a b as ih =>
    rw [pairs, List.length_cons, List.length_cons, List.length_cons]
    omega
  | case2 as hshort =>
    rw [pairs.eq_2 as hshort]
    exact Nat.zero_le _

/-- What was written is decoded as the strings it was written for, by a walk over the list and by the decoders
of lists, hashes and sorted sets. The strings may be in one part or in two and of any lengths that fit the list;
`count` need not be their number. -/
theorem zip_encode_decode (out : Mem) (args : List LinkArg) (count : Nat)
    (hfits : 10 + entries_size 0 (args.map fun a => a.text.length) + 1 < 2 ^ 32) :
    (encode out args count).off = 10 + entries_size 0 (args.map fun a => a.text.length) + 1 ∧
    (∀ blk, ∃ z, RdbZipList.init ⟨blk, (encode out args count).p⟩ (encode out args count).off = some z ∧
      z.first = z.next z.start ∧
      z.walk.Finds (fun i => i + 1 = (encode out args count).off ∧ (encode out args count).p i = 0xff) z.start
        (args.map fun a => .str a.text)) ∧
    ∀ s : St, s.dec.rlen.len = (encode out args count).off → s.dec.rlen.len ≤ s.bptr.avail →
      s.bptr.buf.ptr.mem.Starts ((encode out args count).p.take (encode out args count).off) →
      (s.dec.type = .RDB_LIST_ZIPLIST → HandsOut RdbDecode.decode_ziplist s
        (args.mapIdx fun i a => .d_list i (min count 0xffff) (.str a.text))) ∧
      (args.length % 2 = 0 →
        (s.dec.type = .RDB_HASH_ZIPLIST → HandsOut RdbDecode.decode_ziplist s
          ((pairs args).mapIdx fun i p => .d_hash i (min count 0xffff / 2) (.str p.1.text) (.str p.2.text))) ∧
        (s.dec.type = .RDB_ZSET_ZIPLIST → HandsOut RdbDecode.decode_ziplist s
          ((pairs args).mapIdx fun i p => .d_zset i (min count 0xffff / 2) (.str p.1.text) (.str p.2.text)))) := by
  obtain ⟨l, -, -, -, helems, hllen, hsize, hstarts, hoff⟩ := encode_written out args count hfits
  have hcount : l.zllen % 2 ^ 16 = min count 0xffff := by
    rw [hllen]
    omega
  have hfuel := length_le_zlbytes l helems
  refine ⟨hoff.trans hsize, ?_⟩
  rw [hoff]
  refine ⟨fun blk => ⟨_, init_bytes l hstarts, rfl, of_layout_finds l hstarts helems⟩, fun s hlen havail hin => ?_⟩
  rw [hstarts.take] at hin
  have hinit : RdbZipList.init s.bptr.buf.ptr s.dec.rlen.len = some (of_layout l s.bptr.buf.ptr) := by
    rw [hlen]
    exact init_bytes l hin
  have hfinds := of_layout_finds l hin helems
  refine ⟨fun htype => ?_, fun heven => ?_⟩
  · have hrun := decode_ziplist_list havail hinit rfl hfinds (by rwa [List.length_map]) htype
    rw [mapIdx_map, show (of_layout l s.bptr.buf.ptr).zllen = min count 0xffff from hcount] at hrun
    exact hrun
  · have hpairs : (args.map fun a => ListPackElem.str a.text) =
        ((pairs args).map fun p => (ListPackElem.str p.1.text, ListPackElem.str p.2.text)).flatMap fun p =>
          [p.1, p.2] := by
      rw [List.flatMap_map]
      conv => lhs; rw [← pairs_flatMap args heven, List.map_flatMap]
      rfl
    rw [hpairs] at hfinds
    have hle := (pairs_length_le args).trans hfuel
    have hrun : ∀ d_pair : Nat → RdbVal → RdbVal → Callback,
        ziplist_elems (of_layout l s.bptr.buf.ptr) s.bptr.buf.ptr s.dec.type =
          RdbDecode.pair_loop (of_layout l s.bptr.buf.ptr).next s.bptr.buf.ptr d_pair l.zlbytes 0
            (of_layout l s.bptr.buf.ptr).first.2 →
        HandsOut RdbDecode.decode_ziplist s
          ((pairs args).mapIdx fun i p => d_pair i (.str p.1.text) (.str p.2.text)) := by
      intro d_pair htype
      have h := decode_ziplist_pairs havail hinit rfl hfinds (by rwa [List.length_map]) htype
      rwa [mapIdx_map] at h
    refine ⟨fun htype => hrun (.d_hash · (min count 0xffff / 2)) ?_,
      fun htype => hrun (.d_zset · (min count 0xffff / 2)) ?_⟩
    · rw [htype, ← hcount]
      rfl
    · rw [htype, ← hcount]
      rfl

/-- The decoder of a hash in front of them. -/
def two_args_hash : St :=
  ⟨{ data_out := true, type := .RDB_HASH_ZIPLIST, rlen := { len := 18 } },
    RdbBufptr.init ⟨.input, Mem.ofList [18, 0, 0, 0, 13, 0, 0, 0, 2, 0, 0, 1, 0x61, 3, 2, 0x62, 0x63, 0xff] 0, 0⟩ 18⟩

/-- A field "a" and its value "bc". -/
theorem zip_encode_decode_two :
    HandsOut RdbDecode.decode_ziplist two_args_hash [.d_hash 0 1 (.str [0x61]) (.str [0x62, 0x63])] ∧
    ∀ blk, ∃ z, RdbZipList.init ⟨blk, (encode 0 two_args 2).p⟩ (encode 0 two_args 2).off = some z ∧
      z.first = z.next z.start ∧
      z.walk.Finds (fun i => i + 1 = (encode 0 two_args 2).off ∧ (encode 0 two_args 2).p i = 0xff) z.start
        [.str [0x61], .str [0x62, 0x63]] := by
  obtain ⟨hoff, hinit, hdecode⟩ := zip_encode_decode 0 two_args 2 (by decide)
  refine ⟨((hdecode two_args_hash ?_ ?_ ?_).2 rfl).1 rfl, hinit⟩
  · rw [hoff]
    decide
  · decide
  · decide +kernel

end rdbparser.RdbZipEncode
