import Rdbparser.Encode.Written
import Rdbparser.ListPack.Read

/-! List packs that are written and read back: the sizes behind the elements, the header, and the strings. -/

namespace rdbparser.RdbListPackEncode

open format RdbListPack ListPackEnc

/-- A group that is not the last one read is marked. -/
theorem group_mark (n : Nat) : (0x80 : UInt8) ||| UInt8.ofNat (n &&& 0x7f) = UInt8.ofNat (0x80 + n % 128) := by
  have hlow : ∀ m < 128, (0x80 : UInt8) ||| UInt8.ofNat m = UInt8.ofNat (0x80 + m) := by decide +kernel
  rw [show (0x7f : Nat) = 2 ^ 7 - 1 from rfl, Nat.and_two_pow_sub_one_eq_mod, hlow _ (Nat.mod_lt n (by decide))]

/-- The loop stores the size from its low end on, each group in front of the last. -/
theorem back_loop_store {fuel n k i off : Nat} {p : Mem} (hlen : (lpback fuel n).length = k + 1) (hoff : i + k ≤ off)
    (hi : 0 < i) (hlt : off < 2 ^ 32) :
    (back_loop off k i n p).2.store (sub32 off (i + k)) [UInt8.ofNat (back_loop off k i n p).1] =
      p.store (off - (i + k)) (lpback fuel n) := by
  induction fuel generalizing n k i p with
  | zero =>
    obtain rfl : k = 0 := by
      rw [lpback, List.length_singleton] at hlen
      omega
    rw [sub32_of_le hoff (by omega) hlt]
    rfl
  | succ fuel ih =>
    by_cases hn : n < 128
    · rw [lpback, if_pos hn, List.length_singleton] at hlen
      obtain rfl : k = 0 := by omega
      rw [lpback, if_pos hn, sub32_of_le hoff (by omega) hlt]
      rfl
    · rw [lpback, if_neg hn, List.length_append, List.length_singleton] at hlen
      have hpos := lpback_pos fuel (n / 128)
      obtain ⟨j, rfl⟩ : ∃ j, k = j + 1 := ⟨k - 1, by omega⟩
      have hrest := ih (n := n / 128) (k := j) (i := i + 1) (p := p.store (off - i) [UInt8.ofNat (0x80 + n % 128)])
        (by omega) (by omega) (by omega)
      rw [back_loop, group_mark, Nat.shiftRight_eq_div_pow, sub32_of_le (b := i) (by omega) hi hlt, lpback,
        if_neg hn, ← Mem.store_front]
      rw [show i + 1 + j = i + (j + 1) by omega] at hrest
      rw [show off - (i + (j + 1)) + (lpback fuel (n / 128)).length = off - i by omega]
      exact hrest

variable {e : RdbListPackEncode} {xs : List UInt8}

theorem put_written (h : Written e.p e.off xs) (bs : List UInt8) (hfits : xs.length + bs.length < 2 ^ 32) :
    Written (e.put bs).p (e.put bs).off (xs ++ bs) := h.store bs hfits

/-- Two parts are put down one behind the other. -/
theorem put_put_written (h : Written e.p e.off xs) (bs cs : List UInt8)
    (hfits : xs.length + (bs ++ cs).length < 2 ^ 32) :
    Written ((e.put bs).put cs).p ((e.put bs).put cs).off (xs ++ (bs ++ cs)) := by
  rw [List.length_append] at hfits
  have hcs := put_written (put_written h bs (by omega)) cs (by
    rw [List.length_append]
    omega)
  rwa [List.append_assoc] at hcs

/-- The size behind an element is stored as a whole. -/
theorem encode_back_eq (hfits : e.off + (lpback 9 e.link_sz).length < 2 ^ 32) :
    e.encode_back = { e.put (lpback 9 e.link_sz) with items := u32 (e.items + 1) } := by
  have hpos := lpback_pos 9 e.link_sz
  obtain ⟨k, hk⟩ : ∃ k, (lpback 9 e.link_sz).length = k + 1 := ⟨(lpback 9 e.link_sz).length - 1, by omega⟩
  have hoff : u32 (e.off + (k + 1)) = e.off + (k + 1) := u32_of_lt (by omega)
  have hback := @back_loop_store _ _ _ 1 (e.off + (k + 1)) e.p hk (by omega) (by decide) (by omega)
  rw [Nat.add_comm 1 k, Nat.add_sub_cancel] at hback
  rw [encode_back, put, lpback_size_eq, hk, hoff, Nat.add_sub_cancel]
  dsimp only
  rw [hback]

theorem encode_back_written (h : Written e.p e.off xs) (hfits : xs.length + (lpback 9 e.link_sz).length < 2 ^ 32) :
    Written e.encode_back.p e.encode_back.off (xs ++ lpback 9 e.link_sz) := by
  rw [encode_back_eq (h.off_eq ▸ hfits)]
  exact put_written h _ hfits

/-- What `append_link` writes for the length of a string. -/
def str_code (n : Nat) : List UInt8 :=
  if n < 2 ^ 6 then [UInt8.ofNat (0x80 + n)]
  else if n < 2 ^ 12 then [UInt8.ofNat (0xe0 + n / 256), UInt8.ofNat n]
  else 0xf0 :: be_bytes 4 n

/-- The code of a length. -/
def str_enc (n : Nat) : ListPackEnc :=
  if n < 2 ^ 6 then LP_6BIT_STR else if n < 2 ^ 12 then LP_12BIT_STR else LP_32BIT_STR

theorem str_code_length (n : Nat) : (str_code n).length = lp_size (str_enc n) := by
  rw [str_code, str_enc, lp_size_eq]
  split
  · rfl
  · split
    · rfl
    · rw [List.length_cons, be_bytes_length]

theorem lpnext_str_code_eq {n : Nat} (h : n < 2 ^ 32) : lpnext_str_code n = str_enc n := by
  have hmask6 : n &&& 0x3f = n ↔ n < 2 ^ 6 := and_mask_eq (k := 6)
  have hmask12 : n &&& 0xfff = n ↔ n < 2 ^ 12 := and_mask_eq (k := 12)
  have hmask32 : n &&& 0xffffffff = n ↔ n < 2 ^ 32 := and_mask_eq (k := 32)
  simp only [lpnext_str_code, hmask6, hmask12, hmask32, if_pos h, str_enc]

theorem encode_len_link (e : RdbListPackEncode) (n : Nat) : (e.encode_len n).link_sz = u32 (lp_size e.next + n) := by
  unfold encode_len
  split <;> rfl

/-- The opcode of a string is put down with its length in 6, 12 or 32 bits. -/
theorem encode_len_written (h : Written e.p e.off xs) {n : Nat} (hnext : e.next = str_enc n)
    (hfits : xs.length + (str_code n).length < 2 ^ 32) :
    Written (e.encode_len n).p (e.encode_len n).off (xs ++ str_code n) := by
  rw [encode_len, hnext, str_enc]
  by_cases h6 : n < 2 ^ 6
  · have hcode : str_code n = [UInt8.ofNat (0x80 + n)] := if_pos h6
    have hmark : ∀ n < 2 ^ 6, (0x80 : UInt8) ||| UInt8.ofNat n = UInt8.ofNat (0x80 + n) := by decide
    rw [hcode] at hfits ⊢
    rw [if_pos h6]
    dsimp only
    rw [hmark n h6]
    exact put_written h _ hfits
  · by_cases h12 : n < 2 ^ 12
    · have hcode : str_code n = [UInt8.ofNat (0xe0 + n / 256), UInt8.ofNat n] := by rw [str_code, if_neg h6, if_pos h12]
      have hmark : ∀ n < 2 ^ 4, (0xe0 : UInt8) ||| UInt8.ofNat n = UInt8.ofNat (0xe0 + n) := by decide
      rw [hcode] at hfits ⊢
      rw [if_neg h6, if_pos h12]
      dsimp only
      rw [ofNat_and_0xff, Nat.shiftRight_eq_div_pow, hmark (n / 2 ^ 8) (by omega)]
      exact put_put_written h [UInt8.ofNat (0xe0 + n / 256)] [UInt8.ofNat n] hfits
    · have hcode : str_code n = 0xf0 :: be_bytes 4 n := by rw [str_code, if_neg h6, if_neg h12]
      rw [hcode] at hfits ⊢
      rw [if_neg h6, if_neg h12]
      exact put_put_written h [0xf0] (be_bytes 4 n) hfits

/-- The end marker, and the header in front of it all. -/
theorem append_end_written {hdr body : List UInt8} (hhdr : hdr.length = 6) (h : Written e.p e.off (hdr ++ body))
    (hfits : 6 + body.length + 1 < 2 ^ 32) :
    Written e.append_end.p e.append_end.off (listpack (min e.items 0xffff) body) := by
  have hend := put_written h [0xff] (by
    rw [List.length_append, hhdr, List.length_singleton]
    exact hfits)
  obtain ⟨h4, h6, rfl, hl4, hl6⟩ : ∃ h4 h6 : List UInt8, hdr = h4 ++ h6 ∧ h4.length = 4 ∧ h6.length = 2 :=
    ⟨hdr.take 4, hdr.drop 4, (List.take_append_drop 4 hdr).symm, by rw [List.length_take]; omega,
      by rw [List.length_drop]; omega⟩
  have hoff : (e.put [0xff]).off = 6 + body.length + 1 := by
    rw [hend.off_eq, List.length_append, List.length_append, hhdr, List.length_singleton]
  have hmin : (if e.items ≤ 0xffff then e.items else 0xffff) = min e.items 0xffff := by
    split <;> omega
  rw [List.append_assoc, List.append_assoc] at hend
  have hbytes := Written.store_inside [] (le_bytes 4 (6 + body.length + 1)) hend (by rw [le_bytes_length, hl4])
  have hlplen := Written.store_inside (le_bytes 4 (6 + body.length + 1)) (le_bytes 2 (min e.items 0xffff)) hbytes
    (by rw [le_bytes_length, hl6])
  rw [le_bytes_length, hoff] at hlplen
  rw [append_end, hoff, show (e.put [0xff]).items = e.items from rfl, hmin]
  exact hlplen

/-! The strings. -/

def append (e : RdbListPackEncode) : LinkArg → RdbListPackEncode
  | .whole data sz => e.append_link data sz
  | .two data data2 sz sz2 => e.append_link_two data data2 sz sz2

/-- What is written for the strings. -/
def encode (out : Mem) (args : List LinkArg) : RdbListPackEncode := (args.foldl append (init out)).append_end

/-- A string that has a code. -/
structure LpStr where
  text : List UInt8
  fits : text.length < 2 ^ 32

/-- The code of the length, the string and the size of both. -/
def LpStr.bytes (x : LpStr) : List UInt8 :=
  str_code x.text.length ++ x.text ++ lpback 9 ((str_code x.text.length).length + x.text.length)

/-- The size of an element for a string of this length. -/
def str_size (n : Nat) : Nat := (str_code n).length + n + (lpback 9 ((str_code n).length + n)).length

theorem LpStr.bytes_length (x : LpStr) : x.bytes.length = str_size x.text.length := by
  rw [LpStr.bytes, List.length_append, List.length_append, str_size]

/-- A string is put down behind what is there, with its opcode in front and its back length behind. -/
theorem append_written (a : LinkArg) (h : Written e.p e.off xs) (hfits : xs.length + str_size a.text.length < 2 ^ 32) :
    ∃ x : LpStr, x.text = a.text ∧ Written (e.append a).p (e.append a).off (xs ++ x.bytes) := by
  have hsize : str_size a.text.length = (str_code a.text.length).length + a.text.length +
      (lpback 9 ((str_code a.text.length).length + a.text.length)).length := rfl
  have htext : a.text.length < 2 ^ 32 := by omega
  refine ⟨⟨a.text, htext⟩, rfl, ?_⟩
  rw [LpStr.bytes]
  dsimp only
  have hlen := encode_len_written (e := { e with next := str_enc a.text.length }) h rfl (by omega)
  have hlink := encode_len_link { e with next := str_enc a.text.length } a.text.length
  dsimp only at hlink
  rw [← str_code_length, u32_of_lt (by omega)] at hlink
  cases a with
  | whole data sz =>
    have hsz : (LinkArg.whole data sz).text.length = sz := Mem.take_length data sz
    rw [hsz] at hlen hlink hfits hsize htext ⊢
    have hdata := put_written hlen (data.take sz) (by
      rw [List.length_append, Mem.take_length]
      omega)
    rw [append, append_link, lpnext_str_code_eq htext, encode_next, ← List.append_assoc, ← List.append_assoc, ← hlink]
    refine encode_back_written hdata ?_
    change _ + (lpback 9 (encode_len _ sz).link_sz).length < _
    rw [hlink, List.length_append, List.length_append, hsz]
    omega
  | two data data2 sz sz2 =>
    have hsz : (LinkArg.two data data2 sz sz2).text.length = sz + sz2 := by
      rw [LinkArg.text, List.length_append, Mem.take_length, Mem.take_length]
    rw [hsz] at hlen hlink hfits hsize htext ⊢
    have hdata := hlen.store_two data data2 sz sz2 (by
      rw [List.length_append]
      omega)
    rw [u32_of_lt htext] at hdata
    rw [append, append_link_two, u32_of_lt htext, lpnext_str_code_eq htext, encode_next_two, u32_of_lt htext,
      ← List.append_assoc, ← List.append_assoc, ← hlink]
    refine encode_back_written hdata ?_
    change _ + (lpback 9 (encode_len _ (sz + sz2)).link_sz).length < _
    rw [hlink, List.length_append, List.length_append, hsz]
    omega

/-- The elements for a sequence of strings. -/
theorem appends_written (args : List LinkArg) (h : Written e.p e.off xs)
    (hfits : xs.length + (args.map fun a => str_size a.text.length).sum < 2 ^ 32) :
    ∃ es : List LpStr, es.map LpStr.text = args.map LinkArg.text ∧
      Written (args.foldl append e).p (args.foldl append e).off (xs ++ es.flatMap LpStr.bytes) := by
  induction args generalizing e xs with
  | nil => exact ⟨[], rfl, by rwa [List.flatMap_nil, List.append_nil]⟩
  | cons a args ih =>
    rw [List.map_cons, List.sum_cons] at hfits
    obtain ⟨x, htext, hwritten⟩ := append_written a h (by omega)
    have hlen : x.bytes.length = str_size a.text.length := by rw [x.bytes_length, htext]
    obtain ⟨es, htexts, hrest⟩ := ih hwritten (by
      rw [List.length_append]
      omega)
    refine ⟨x :: es, by rw [List.map_cons, List.map_cons, htext, htexts], ?_⟩
    rwa [List.flatMap_cons, ← List.append_assoc]

/-- The length that is read. -/
def str_read (n : Nat) : Nat := if n < 2 ^ 12 then n else le_nat (be_bytes 4 n)

/-- What the decoder takes for the opcode and the length of a string that is written. A length of 32 bits is written
big endian and read little endian. -/
theorem lp_code_str {n : Nat} (hn : n < 2 ^ 32) {p : Mem} (hp : p.Starts (str_code n)) :
    lp_code (p 0) = str_enc n ∧ lp_val (str_enc n) p = str_read n := by
  rw [str_code] at hp
  rw [str_enc, str_read]
  by_cases h6 : n < 2 ^ 6
  · rw [if_pos h6] at hp ⊢
    have h0 : p 0 = UInt8.ofNat (0x80 + n) := (Mem.starts_cons.mp hp).1
    have hbyte : ∀ n < 2 ^ 6, lp_code (UInt8.ofNat (0x80 + n)) = LP_6BIT_STR ∧
        (UInt8.ofNat (0x80 + n)).toNat &&& 0x3f = n := by
      decide
    rw [if_pos (show n < 2 ^ 12 by omega), lp_val, h0]
    exact hbyte n h6
  · by_cases h12 : n < 2 ^ 12
    · rw [if_neg h6, if_pos h12] at hp ⊢
      obtain ⟨h0, h1⟩ := Mem.starts_cons.mp hp
      have h1 : p 1 = UInt8.ofNat n := (Mem.starts_cons.mp h1).1
      have hbyte : ∀ n < 2 ^ 4, lp_code (UInt8.ofNat (0xe0 + n)) = LP_12BIT_STR ∧
          (UInt8.ofNat (0xe0 + n)).toNat &&& 0xf = n := by
        decide
      have hlo : (UInt8.ofNat n).toNat = n % 256 := UInt8.toNat_ofNat'
      obtain ⟨hcode, hhi⟩ := hbyte (n / 256) (by omega)
      rw [if_pos h12, lp_val, h0, h1, hhi, hlo, shiftLeft_or (by omega)]
      exact ⟨hcode, by omega⟩
    · rw [if_neg h6, if_neg h12] at hp ⊢
      obtain ⟨h0, h1⟩ := Mem.starts_cons.mp hp
      have htake : (p.add 1).take 4 = be_bytes 4 n := by simpa using h1.take
      rw [if_neg h12, lp_val, l32, htake, h0]
      exact ⟨by decide, rfl⟩

theorem str_enc_string (n : Nat) : is_immed (str_enc n) = false := by
  rw [str_enc]
  split
  · rfl
  · split <;> rfl

/-- What is found at a string. -/
theorem next_lpstr (x : LpStr) {l : RdbListPack} {lval : RdbListValue}
    (hp : (l.base.mem.add (l.walk.pos lval)).Starts x.bytes) (hend : l.walk.pos lval + x.bytes.length ≤ l.end_) :
    ∃ t, l.walk.next lval = (decide (l.walk.pos t ≤ l.end_), t) ∧
      l.walk.found t = .str ((l.base.mem.add (l.walk.pos lval + (str_code x.text.length).length)).take
        (str_read x.text.length)) ∧
      l.walk.pos t = l.walk.pos lval + ((str_code x.text.length).length + str_read x.text.length +
        (lpback 9 ((str_code x.text.length).length + str_read x.text.length)).length) := by
  have hpos := lpback_pos 9 ((str_code x.text.length).length + x.text.length)
  rw [LpStr.bytes, List.append_assoc, Mem.starts_append] at hp
  rw [x.bytes_length, str_size] at hend
  obtain ⟨hcode, hval⟩ := lp_code_str x.fits hp.1
  rw [Mem.add_apply, Nat.add_zero] at hcode
  have hsize := str_code_length x.text.length
  have hnext := next_str hcode (str_enc_string _) hval (by omega) (by omega)
  rw [lpback_size_eq, ← hsize] at hnext
  refine ⟨(l.walk.next lval).2, ?_, ?_, ?_⟩ <;> rw [hnext] <;> rfl

/-- A string is found where it lies and skipped by its size, if its length is read as it was written. -/
theorem next_lpstr_read (x : LpStr) (hx : str_read x.text.length = x.text.length) {l : RdbListPack}
    {lval : RdbListValue}
    (hp : (l.base.mem.add (l.walk.pos lval)).Starts x.bytes) (hend : l.walk.pos lval + x.bytes.length ≤ l.end_) :
    ∃ t, l.walk.next lval = (true, t) ∧ l.walk.found t = .str x.text ∧
      l.walk.pos t = l.walk.pos lval + x.bytes.length := by
  obtain ⟨t, hnext, hfound, hpos⟩ := next_lpstr x hp hend
  rw [hx] at hfound hpos
  rw [LpStr.bytes, List.append_assoc, Mem.starts_append, Mem.starts_append, Mem.add_add] at hp
  have hlen : l.walk.pos t = l.walk.pos lval + x.bytes.length := hpos.trans (by rw [x.bytes_length, str_size])
  rw [decide_eq_true (hlen ▸ hend)] at hnext
  exact ⟨t, hnext, by rw [hfound, hp.2.1.take], hlen⟩

/-- Otherwise a string of another length is found, if any. -/
theorem next_lpstr_other (x : LpStr) (hx : str_read x.text.length ≠ x.text.length) {l : RdbListPack}
    {lval t : RdbListValue}
    (hp : (l.base.mem.add (l.walk.pos lval)).Starts x.bytes) (hend : l.walk.pos lval + x.bytes.length ≤ l.end_)
    (hnext : l.walk.next lval = (true, t)) : l.walk.found t ≠ .str x.text := by
  obtain ⟨t', hnext', hfound, -⟩ := next_lpstr x hp hend
  obtain rfl := (Prod.mk.inj (hnext'.symm.trans hnext)).2
  rw [hfound, ne_eq, ListPackElem.str.injEq]
  intro htext
  have hlen := congrArg List.length htext
  rw [Mem.take_length] at hlen
  exact hx hlen

/-- So the length is the same only below 2^12, or where its four bytes are the same in both orders. -/
theorem str_read_eq {n : Nat} (hn : n < 2 ^ 32) : str_read n = n ↔ n < 2 ^ 12 ∨ be_bytes 4 n = le_bytes 4 n := by
  rw [str_read]
  by_cases h12 : n < 2 ^ 12
  · rw [if_pos h12]
    exact iff_of_true rfl (.inl h12)
  · rw [if_neg h12, or_iff_right h12]
    constructor
    · intro h
      have hbytes := le_bytes_le_nat (be_bytes 4 n)
      rw [be_bytes_length, h] at hbytes
      exact hbytes.symm
    · intro h
      rw [h, le_nat_le_bytes, Nat.mod_eq_of_lt (by omega)]

/-- What is written for a sequence of strings is a list pack of them. -/
theorem encode_written (out : Mem) (args : List LinkArg)
    (hfits : 6 + (args.map fun a => str_size a.text.length).sum + 1 < 2 ^ 32) :
    ∃ (es : List LpStr) (lplen : Nat), es.map LpStr.text = args.map LinkArg.text ∧
      (es.flatMap LpStr.bytes).length = (args.map fun a => str_size a.text.length).sum ∧
      Written (encode out args).p (encode out args).off (listpack lplen (es.flatMap LpStr.bytes)) := by
  obtain ⟨es, htexts, hwritten⟩ := appends_written (e := init out) args (.of_room out 6) (by
    rw [Mem.take_length]
    exact Nat.lt_of_succ_lt hfits)
  have hlen : (es.flatMap LpStr.bytes).length = (args.map fun a => str_size a.text.length).sum := by
    have hsizes := congrArg (List.map fun text => str_size text.length) htexts
    rw [List.map_map, List.map_map] at hsizes
    rw [List.length_flatMap, List.map_congr_left fun x _ => x.bytes_length]
    exact congrArg List.sum hsizes
  exact ⟨es, _, htexts, hlen, append_end_written (Mem.take_length out 6) hwritten (by rwa [hlen])⟩

/-- The strings are found in a list pack of them if and only if their lengths are read as they were written. -/
theorem listpack_strings_iff {lplen : Nat} {es : List LpStr} (hfits : 6 + (es.flatMap LpStr.bytes).length + 1 < 2 ^ 32)
    {b : Ptr} (hb : b.mem.Starts (listpack lplen (es.flatMap LpStr.bytes))) :
    (∃ l, RdbListPack.init b (listpack lplen (es.flatMap LpStr.bytes)).length = some l ∧ l.first = l.next l.start ∧
      l.walk.Finds (fun i => i + 1 = (listpack lplen (es.flatMap LpStr.bytes)).length ∧ b.mem i = 0xff) l.start
        (es.map fun x => .str x.text)) ↔
    ∀ x ∈ es, str_read x.text.length = x.text.length :=
  listpack_finds_iff (fun x : LpStr => .str x.text) (fun x => str_read x.text.length = x.text.length)
    (fun x _ _ hx hp hend => next_lpstr_read x hx hp (Nat.le_of_lt hend))
    (fun x _ _ hx hp hend _ => next_lpstr_other x hx hp (Nat.le_of_lt hend)) hfits hb

/-- What was written is read back as the strings it was written for, if and only if the length of each of them
is read as it was written: those of 32 bits are written high byte first and read low byte first. Only the size
of the list has to fit; nothing is assumed of the memory it is written to. -/
theorem list_encode_strings_iff (out : Mem) (args : List LinkArg)
    (hfits : 6 + (args.map fun a => str_size a.text.length).sum + 1 < 2 ^ 32) (blk : Block) :
    (encode out args).off = 6 + (args.map fun a => str_size a.text.length).sum + 1 ∧
    ((∃ l, RdbListPack.init ⟨blk, (encode out args).p⟩ (encode out args).off = some l ∧ l.first = l.next l.start ∧
      l.walk.Finds (fun i => i + 1 = (encode out args).off ∧ (encode out args).p i = 0xff) l.start
        (args.map fun a => .str a.text)) ↔
      ∀ a ∈ args, a.text.length < 2 ^ 12 ∨ be_bytes 4 a.text.length = le_bytes 4 a.text.length) := by
  obtain ⟨es, lplen, htexts, hlen, hstarts, hoff⟩ := encode_written out args hfits
  have hiff := listpack_strings_iff (hlen ▸ hfits) (b := ⟨blk, (encode out args).p⟩) hstarts
  have hvalues : (args.map fun a => ListPackElem.str a.text) = es.map fun x => .str x.text := by
    have h := congrArg (List.map ListPackElem.str) htexts
    rw [List.map_map, List.map_map] at h
    exact h.symm
  have hgood : (∀ a ∈ args, a.text.length < 2 ^ 12 ∨ be_bytes 4 a.text.length = le_bytes 4 a.text.length) ↔
      ∀ x ∈ es, x.text.length < 2 ^ 12 ∨ be_bytes 4 x.text.length = le_bytes 4 x.text.length := by
    have h : (∀ text ∈ args.map LinkArg.text, text.length < 2 ^ 12 ∨ be_bytes 4 text.length = le_bytes 4 text.length) ↔
        ∀ x ∈ es, x.text.length < 2 ^ 12 ∨ be_bytes 4 x.text.length = le_bytes 4 x.text.length := by
      rw [← htexts, List.forall_mem_map]
    rwa [List.forall_mem_map] at h
  rw [hoff, hvalues]
  refine ⟨by rw [listpack_length, hlen], hiff.trans ?_⟩
  exact (forall₂_congr fun x _ => str_read_eq x.fits).trans hgood.symm

/-- A whole string and one in two parts. -/
theorem list_encode_strings_two :
    ∃ l, RdbListPack.init ⟨.input, (encode 0 two_args).p⟩ (encode 0 two_args).off = some l ∧
    l.first = l.next l.start ∧
    l.walk.Finds (fun i => i + 1 = (encode 0 two_args).off ∧ (encode 0 two_args).p i = 0xff) l.start
      [.str [0x61], .str [0x62, 0x63]] :=
  (list_encode_strings_iff 0 two_args (by decide) .input).2.mpr (by decide)

/-- A string of 4096 bytes is not found. -/
theorem list_encode_4096 : ¬ ∀ (out : Mem) (args : List LinkArg) (blk : Block),
    6 + (args.map fun a => str_size a.text.length).sum + 1 < 2 ^ 32 →
    ∃ l, RdbListPack.init ⟨blk, (encode out args).p⟩ (encode out args).off = some l ∧ l.first = l.next l.start ∧
      l.walk.Finds (fun i => i + 1 = (encode out args).off ∧ (encode out args).p i = 0xff) l.start
        (args.map fun a => .str a.text) := by
  intro h
  have hlen : (LinkArg.whole 0 4096).text.length = 4096 := Mem.take_length 0 4096
  have hfits : 6 + ([LinkArg.whole 0 4096].map fun a => str_size a.text.length).sum + 1 < 2 ^ 32 := by
    rw [List.map_cons, hlen]
    decide
  obtain ⟨es, lplen, htexts, hsize, hstarts, hoff⟩ := encode_written 0 [.whole 0 4096] hfits
  obtain ⟨x, rfl, htext⟩ : ∃ x, es = [x] ∧ x.text = (LinkArg.whole 0 4096).text := by
    obtain ⟨x, rfl⟩ := List.length_eq_one_iff.mp (by simpa using congrArg List.length htexts)
    exact ⟨x, rfl, by simpa using htexts⟩
  have hfound := h 0 [.whole 0 4096] .input hfits
  rw [hoff, List.map_cons, ← htext] at hfound
  have hread := (listpack_strings_iff (hsize ▸ hfits) (b := ⟨.input, (encode 0 [.whole 0 4096]).p⟩) hstarts).mp hfound x
    List.mem_cons_self
  rw [htext, hlen] at hread
  exact absurd hread (by decide)

end rdbparser.RdbListPackEncode
