import Rdbparser.Encode.Mixed
import Rdbparser.Encode.Zip

/-! Passes for the size: they reach the offset of the passes that write, which store nothing past it. -/

namespace rdbparser

theorem u32_sum {a b c d : Nat} (h : a + (b + c + d) < 2 ^ 32) : u32 (a + u32 (b + u32 (c + d))) = a + (b + c + d) := by
  unfold u32
  omega

/-- `off` goes on by `n` bytes if there is room for them, and nothing is stored behind these. -/
def Grows (p : Mem) (off : Nat) (p' : Mem) (off' n : Nat) : Prop :=
  off + n < 2 ^ 32 → off' = off + n ∧ ∀ i, off + n ≤ i → p' i = p i

namespace Grows

variable {p p' p'' : Mem} {off off' off'' m n : Nat}

theorem refl (p : Mem) (off : Nat) : Grows p off p off 0 := fun _ => ⟨rfl, fun _ _ => rfl⟩

theorem trans (h : Grows p off p' off' m) (h' : Grows p' off' p'' off'' n) : Grows p off p'' off'' (m + n) := by
  intro hfits
  obtain ⟨rfl, hsame⟩ := h (by omega)
  obtain ⟨rfl, hsame'⟩ := h' (by omega)
  refine ⟨Nat.add_assoc off m n, fun i hi => ?_⟩
  rw [hsame' i (by omega), hsame i (by omega)]

theorem store (p : Mem) (off : Nat) (bs : List UInt8) :
    Grows p off (p.store off bs) (u32 (off + bs.length)) bs.length :=
  fun hfits => ⟨u32_of_lt hfits, fun _ _ => if_neg (by omega)⟩

/-- Two parts behind one another. -/
theorem store_two (p : Mem) (off : Nat) (data data2 : Mem) (sz sz2 : Nat) :
    Grows p off (if 0 < sz2 then (p.store off (data.take sz)).store (u32 (off + sz)) (data2.take sz2)
      else p.store off (data.take sz)) (u32 (off + u32 (sz + sz2))) (sz + sz2) := by
  intro hfits
  rw [u32_of_lt (n := sz + sz2) (by omega), u32_of_lt hfits, u32_of_lt (n := off + sz) (by omega)]
  refine ⟨rfl, fun i hi => ?_⟩
  have hfirst : p.store off (data.take sz) i = p i := if_neg (by rw [Mem.take_length]; omega)
  split
  · rw [Mem.store, if_neg (by rw [Mem.take_length]; omega), hfirst]
  · exact hfirst

end Grows

namespace RdbZipEncode

open RdbZipList ZipLinkEnc

variable {e : RdbZipEncode}

theorem put_grows (e : RdbZipEncode) (bs : List UInt8) : Grows e.p e.off (e.put bs).p (e.put bs).off bs.length :=
  .store _ _ _

theorem zprev_code_size {n : Nat} (h : n < 2 ^ 32) : zlink_size (zprev_code n) = if n < 0xfe then 1 else 5 := by
  have hmask : n &&& 0xffffffff = n := (and_mask_eq (k := 32)).mpr h
  rw [zprev_code, if_pos hmask]
  split <;> exact zlink_size_eq _

theorem znext_str_code_size {n : Nat} (h : n < 2 ^ 32) :
    zlink_size (znext_str_code n) = if n < 2 ^ 6 then 1 else if n < 2 ^ 14 then 2 else 5 := by
  rw [znext_str_code_eq h, str_enc_size _ n, str_form_length]

/-- The link to the entry before takes one byte, or five. -/
theorem encode_prev_grows {val : Nat} (hval : val < 2 ^ 32) (hprev : e.prev = zprev_code val) :
    Grows e.p e.off (e.encode_prev val).p (e.encode_prev val).off (if val < 0xfe then 1 else 5) := by
  have hmask : val &&& 0xffffffff = val := (and_mask_eq (k := 32)).mpr hval
  rw [encode_prev, hprev, zprev_code, if_pos hmask]
  by_cases hsmall : val < 0xfe
  · rw [if_pos hsmall, if_pos hsmall]
    exact put_grows _ _
  · rw [if_neg hsmall, if_neg hsmall]
    have h := (put_grows e [0xfe]).trans (put_grows _ (le_bytes 4 val))
    rwa [le_bytes_length] at h

/-- The opcode of a string takes the bytes that its length calls for. -/
theorem encode_len_grows {sz : Nat} (hsz : sz < 2 ^ 32) (hnext : e.next = znext_str_code sz) :
    Grows e.p e.off (e.encode_len sz).p (e.encode_len sz).off
      (if sz < 2 ^ 6 then 1 else if sz < 2 ^ 14 then 2 else 5) := by
  rw [encode_len, hnext, znext_str_code_eq hsz, str_form]
  by_cases h6 : sz < 2 ^ 6
  · rw [if_pos h6, if_pos h6]
    exact put_grows _ _
  · by_cases h14 : sz < 2 ^ 14
    · rw [if_neg h6, if_neg h6, if_pos h14, if_pos h14]
      exact (put_grows e _).trans (put_grows _ _)
    · rw [if_neg h6, if_neg h6, if_neg h14, if_neg h14]
      have h := (put_grows e [0x80]).trans (put_grows _ (be_bytes 4 sz))
      rwa [be_bytes_length] at h

/-- An entry takes the bytes of its link, of its opcode and of its text. -/
theorem append_grows (a : LinkArg) {n : Nat} (hn : e.link_sz + zlink_size e.prev = n) (hlt : n < 2 ^ 32)
    (htext : a.text.length < 2 ^ 32) :
    Grows e.p e.off (e.append a).p (e.append a).off (entry_size n a.text.length) := by
  have hprev : Grows e.p e.off e.append_prev.p e.append_prev.off (if n < 0xfe then 1 else 5) := by
    rw [append_prev, hn, u32_of_lt hlt]
    exact encode_prev_grows (e := { e with prev_off := e.off, prev := zprev_code n }) hlt rfl
  have hlen := encode_len_grows (e := { e.append_prev with next := znext_str_code a.text.length }) htext rfl
  rw [entry_size]
  cases a with
  | whole data sz =>
    have hsz : (LinkArg.whole data sz).text.length = sz := Mem.take_length data sz
    have hdata := put_grows ({ e.append_prev with next := znext_str_code sz }.encode_len sz) (data.take sz)
    rw [Mem.take_length] at hdata
    rw [hsz] at hlen ⊢
    exact (hprev.trans hlen).trans hdata
  | two data data2 sz sz2 =>
    have hsz : (LinkArg.two data data2 sz sz2).text.length = sz + sz2 := by
      rw [LinkArg.text, List.length_append, Mem.take_length, Mem.take_length]
    rw [hsz] at hlen htext ⊢
    have hdata := Grows.store_two ({ e.append_prev with next := znext_str_code (sz + sz2) }.encode_len (sz + sz2)).p
      ({ e.append_prev with next := znext_str_code (sz + sz2) }.encode_len (sz + sz2)).off data data2 sz sz2
    rw [u32_of_lt htext] at hdata
    rw [append, append_link_two, encode_next_two, u32_of_lt htext]
    exact (hprev.trans hlen).trans hdata

/-- A pass for the size and one that writes, at the same place. -/
structure Alike (c e : RdbZipEncode) : Prop where
  prev : c.prev = e.prev
  link_sz : c.link_sz = e.link_sz
  off : c.off = e.off

/-- The link is kept with its code. -/
theorem append_prev_codes (e : RdbZipEncode) :
    e.append_prev.prev = zprev_code (u32 (e.link_sz + zlink_size e.prev)) := by
  unfold append_prev encode_prev
  dsimp only
  split <;> rfl

/-- The codes are those of the pass for the size. -/
theorem append_codes (e : RdbZipEncode) (a : LinkArg) (htext : a.text.length < 2 ^ 32) :
    (e.append a).prev = zprev_code (u32 (e.link_sz + zlink_size e.prev)) ∧
      (e.append a).link_sz = u32 (zlink_size (znext_str_code a.text.length) + a.text.length) := by
  obtain ⟨hnext, hprev⟩ := encode_len_codes { e.append_prev with next := znext_str_code a.text.length } a.text.length
  cases a with
  | whole data sz =>
    have hsz : (LinkArg.whole data sz).text.length = sz := Mem.take_length data sz
    rw [hsz] at hnext hprev ⊢
    refine ⟨hprev.trans (append_prev_codes e), ?_⟩
    change u32 (zlink_size (encode_len _ sz).next + sz) = _
    rw [hnext]
  | two data data2 sz sz2 =>
    have hsz : (LinkArg.two data data2 sz sz2).text.length = sz + sz2 := by
      rw [LinkArg.text, List.length_append, Mem.take_length, Mem.take_length]
    rw [hsz] at hnext hprev htext ⊢
    rw [append, append_link_two, encode_next_two, u32_of_lt htext]
    refine ⟨hprev.trans (append_prev_codes e), ?_⟩
    change u32 (zlink_size (encode_len _ (sz + sz2)).next + sz + sz2) = _
    rw [hnext, Nat.add_assoc]

/-- Both passes go on alike. -/
theorem Alike.append {c : RdbZipEncode} (h : Alike c e) (a : LinkArg) {n : Nat}
    (hn : e.link_sz + zlink_size e.prev = n) (hlt : n < 2 ^ 32)
    (hfits : e.off + entry_size n a.text.length < 2 ^ 32) : Alike (c.calc_link a.text.length) (e.append a) := by
  have hsize : entry_size n a.text.length = (if n < 0xfe then 1 else 5) +
    (if a.text.length < 2 ^ 6 then 1 else if a.text.length < 2 ^ 14 then 2 else 5) + a.text.length := rfl
  have htext : a.text.length < 2 ^ 32 := by omega
  obtain ⟨hprev, hlink⟩ := append_codes e a htext
  obtain ⟨hoff, -⟩ := append_grows a hn hlt htext hfits
  rw [calc_link, h.prev, h.link_sz, h.off]
  refine ⟨hprev.symm, hlink.symm, ?_⟩
  rw [hoff, hn, u32_of_lt hlt, zprev_code_size hlt, znext_str_code_size htext, hsize]
  exact u32_sum (hsize ▸ hfits)

/-- The pass for the size and the one that writes stay at the same offset, entry by entry. -/
theorem appends_alike (args : List LinkArg) {c : RdbZipEncode} (h : Alike c e) {n : Nat}
    (hn : e.link_sz + zlink_size e.prev = n)
    (hlt : n < 2 ^ 32) (hfits : e.off + entries_size n (args.map fun a => a.text.length) < 2 ^ 32) :
    Alike (args.foldl (fun e a => e.calc_link a.text.length) c) (args.foldl append e) ∧
      Grows e.p e.off (args.foldl append e).p (args.foldl append e).off
        (entries_size n (args.map fun a => a.text.length)) := by
  induction args generalizing c e n with
  | nil => exact ⟨h, .refl _ _⟩
  | cons a args ih =>
    rw [List.map_cons, entries_size] at hfits ⊢
    have hsize : entry_size n a.text.length = (if n < 0xfe then 1 else 5) +
      (if a.text.length < 2 ^ 6 then 1 else if a.text.length < 2 ^ 14 then 2 else 5) + a.text.length := rfl
    have htext : a.text.length < 2 ^ 32 := by omega
    have hgrows := append_grows a hn hlt htext
    obtain ⟨hprev, hlink⟩ := append_codes e a htext
    obtain ⟨hoff, -⟩ := hgrows (by omega)
    obtain ⟨halike, hrest⟩ := ih (n := entry_size n a.text.length) (h.append a hn hlt (by omega)) (by
      rw [hprev, hlink, hn, u32_of_lt hlt, zprev_code_size hlt, znext_str_code_size htext, hsize, u32_of_lt]
      · omega
      · omega) (by omega) (by omega)
    exact ⟨halike, hgrows.trans hrest⟩

/-- What is stored for the header and the end marker is in front of what is behind them. -/
theorem append_end_grows (e : RdbZipEncode) (count : Nat) (hoff : 10 ≤ e.off) :
    Grows e.p e.off (e.append_end count).p (e.append_end count).off 1 := by
  intro hfits
  obtain ⟨hend, hsame⟩ := put_grows e [0xff] hfits
  refine ⟨hend, fun i hi => ?_⟩
  rw [← hsame i hi]
  change ((((e.put [0xff]).p.store 0 _).store 4 _).store 8 _) i = _
  rw [Mem.store, if_neg (by rw [le_bytes_length]; omega), Mem.store, if_neg (by rw [le_bytes_length]; omega),
    Mem.store, if_neg (by rw [le_bytes_length]; omega)]

/-- The pass for the size. -/
def calc_size (out : Mem) (args : List LinkArg) : RdbZipEncode :=
  (args.foldl (fun e a => e.calc_link a.text.length) (init out)).calc_end

/-- So the size that is calculated for a ziplist is the one that is written, and no byte behind it is touched. -/
theorem zip_calc_encode (out out' : Mem) (args : List LinkArg) (count : Nat)
    (hfits : 10 + entries_size 0 (args.map fun a => a.text.length) + 1 < 2 ^ 32) :
    (calc_size out' args).off = (encode out args count).off ∧
    ∀ i, (encode out args count).off ≤ i → (encode out args count).p i = out i := by
  obtain ⟨halike, hgrows⟩ := appends_alike args (e := init out) (c := init out') ⟨rfl, rfl, rfl⟩
    (show 0 + zlink_size ZIP_END = 0 by decide) (by decide) (Nat.lt_of_succ_lt hfits)
  obtain ⟨hoff, -⟩ := hgrows (Nat.lt_of_succ_lt hfits)
  have hend := append_end_grows (args.foldl append (init out)) count (hoff ▸ Nat.le_add_right _ _)
  obtain ⟨hall, hsame⟩ := (hgrows.trans hend) hfits
  obtain ⟨hoff', -⟩ := hend (hoff ▸ hfits)
  refine ⟨?_, fun i hi => hsame i (hall ▸ hi)⟩
  rw [encode, hoff', calc_size, calc_end, halike.off]
  exact u32_of_lt (hoff ▸ hfits)

end RdbZipEncode

namespace RdbListPackEncode

open RdbListPack ListPackEnc format

variable {e : RdbListPackEncode}

theorem put_grows (e : RdbListPackEncode) (bs : List UInt8) :
    Grows e.p e.off (e.put bs).p (e.put bs).off bs.length := .store _ _ _

theorem puts_grows (parts : List (List UInt8)) (e : RdbListPackEncode) :
    Grows e.p e.off (parts.foldl put e).p (parts.foldl put e).off parts.flatten.length := by
  induction parts generalizing e with
  | nil => exact .refl _ _
  | cons bs parts ih =>
    rw [List.flatten_cons, List.length_append]
    exact (put_grows e bs).trans (ih (e.put bs))

theorem encode_back_grows (e : RdbListPackEncode) :
    Grows e.p e.off e.encode_back.p e.encode_back.off (lpback 9 e.link_sz).length := by
  intro hfits
  rw [encode_back_eq hfits]
  exact put_grows e _ hfits

theorem encode_back_behind {p : Mem} {off n : Nat} (h : Grows p off e.p e.off n) (hlink : e.link_sz = n) :
    Grows p off e.encode_back.p e.encode_back.off (n + (lpback 9 n).length) := by
  subst hlink
  exact h.trans (encode_back_grows e)

/-- The same for the opcode of a listpack. -/
theorem encode_len_grows {sz : Nat} (hnext : e.next = str_enc sz) :
    Grows e.p e.off (e.encode_len sz).p (e.encode_len sz).off (str_code sz).length := by
  rw [encode_len, hnext, str_enc, str_code]
  by_cases h6 : sz < 2 ^ 6
  · rw [if_pos h6, if_pos h6]
    exact put_grows _ _
  · by_cases h12 : sz < 2 ^ 12
    · rw [if_neg h6, if_neg h6, if_pos h12, if_pos h12]
      have h := (put_grows e [(0xe0 : UInt8) ||| UInt8.ofNat (sz >>> 8)]).trans
        (put_grows _ [UInt8.ofNat (sz &&& 0xff)])
      exact h
    · rw [if_neg h6, if_neg h6, if_neg h12, if_neg h12]
      have h := (put_grows e [0xf0]).trans (put_grows _ (be_bytes 4 sz))
      rw [List.length_cons, Nat.add_comm]
      exact h

/-- The size of what is behind is that of the code and the data. -/
theorem link_size {n : Nat} (h : (str_code n).length + n < 2 ^ 32) :
    u32 (lp_size (lpnext_str_code n) + n) = (str_code n).length + n := by
  rw [lpnext_str_code_eq (by omega), ← str_code_length, u32_of_lt h]

/-- An element takes its own bytes and those of its back length, for strings, for two parts of one, and for integers.
-/
theorem append_arg_grows (x : LpArg) : Grows e.p e.off (e.append_arg x).p (e.append_arg x).off x.bytes.length := by
  intro hfits
  have hsum := hfits
  rw [LpArg.bytes, List.length_append] at hsum
  revert hfits
  cases x with
  | str arg =>
    have hbody : (LpArg.str arg).body.length = (str_code arg.text.length).length + arg.text.length := List.length_append
    rw [hbody] at hsum
    have htext : arg.text.length < 2 ^ 32 := by omega
    have hlen := encode_len_grows (e := { e with next := str_enc arg.text.length }) rfl
    have hlink := encode_len_link { e with next := str_enc arg.text.length } arg.text.length
    dsimp only at hlink
    rw [← str_code_length, u32_of_lt (by omega)] at hlink
    rw [LpArg.bytes, List.length_append, hbody, append_arg]
    cases arg with
    | whole data sz =>
      have hsz : (LinkArg.whole data sz).text.length = sz := Mem.take_length data sz
      rw [hsz] at hlen hlink htext ⊢
      have hdata := put_grows ({ e with next := str_enc sz }.encode_len sz) (data.take sz)
      rw [Mem.take_length] at hdata
      rw [append, append_link, lpnext_str_code_eq htext, encode_next]
      exact encode_back_behind (hlen.trans hdata) hlink
    | two data data2 sz sz2 =>
      have hsz : (LinkArg.two data data2 sz sz2).text.length = sz + sz2 := by
        rw [LinkArg.text, List.length_append, Mem.take_length, Mem.take_length]
      rw [hsz] at hlen hlink htext ⊢
      have hdata := Grows.store_two ({ e with next := str_enc (sz + sz2) }.encode_len (sz + sz2)).p
        ({ e with next := str_enc (sz + sz2) }.encode_len (sz + sz2)).off data data2 sz sz2
      rw [u32_of_lt htext] at hdata
      rw [append, append_link_two, encode_next_two, u32_of_lt htext, lpnext_str_code_eq htext]
      exact encode_back_behind (hlen.trans hdata) hlink
  | int val =>
    have hcode := puts_grows (imm_parts val.toInt (imm_form val.toInt)) { e with next := int_enc (imm_form val.toInt) }
    rw [append_arg, append_immediate_int, lpnext_imm_code_eq, encode_immediate_int_parts, ← imm_code_length,
      LpArg.bytes, List.length_append]
    exact encode_back_behind hcode rfl

/-- The pass for the size moves by as many bytes. -/
theorem calc_arg_off (x : LpArg) (hfits : e.off + x.bytes.length < 2 ^ 32) :
    (e.calc_arg x).off = e.off + x.bytes.length := by
  rw [LpArg.bytes, List.length_append, ← lpback_size_eq] at hfits ⊢
  have hsum : ∀ n, n = x.body.length →
      u32 (e.off + u32 (lpback_size n + n)) = e.off + (x.body.length + lpback_size x.body.length) := by
    rintro n rfl
    unfold u32
    omega
  cases x with
  | str arg =>
    have hbody : (LpArg.str arg).body.length = (str_code arg.text.length).length + arg.text.length := List.length_append
    exact hsum _ (hbody ▸ link_size (by omega))
  | int val =>
    refine hsum (lp_size (lpnext_imm_code val.toInt)) ?_
    rw [LpArg.body, imm_code_length, lpnext_imm_code_eq]

/-- So both passes are at the same offset behind any elements. -/
theorem args_sized (xs : List LpArg) {c : RdbListPackEncode} (hoff : c.off = e.off)
    (hfits : e.off + (xs.flatMap LpArg.bytes).length < 2 ^ 32) :
    (xs.foldl calc_arg c).off = (xs.foldl append_arg e).off ∧
      Grows e.p e.off (xs.foldl append_arg e).p (xs.foldl append_arg e).off (xs.flatMap LpArg.bytes).length := by
  induction xs generalizing c e with
  | nil => exact ⟨hoff, .refl _ _⟩
  | cons x xs ih =>
    rw [List.flatMap_cons, List.length_append] at hfits ⊢
    have hgrows := append_arg_grows x (e := e)
    obtain ⟨happend, -⟩ := hgrows (by omega)
    have hcalc := calc_arg_off x (e := c) (by omega)
    obtain ⟨hsame, hrest⟩ := ih (e := e.append_arg x) (c := c.calc_arg x) (by omega) (by omega)
    exact ⟨hsame, hgrows.trans hrest⟩

/-- The end is a byte more, and the header is stored where there was room for it. -/
theorem append_end_grows (e : RdbListPackEncode) (hoff : 6 ≤ e.off) :
    Grows e.p e.off e.append_end.p e.append_end.off 1 := by
  intro hfits
  obtain ⟨hend, hsame⟩ := put_grows e [0xff] hfits
  refine ⟨hend, fun i hi => ?_⟩
  rw [← hsame i hi]
  change (((e.put [0xff]).p.store 0 _).store 4 _) i = _
  rw [Mem.store, if_neg (by rw [le_bytes_length]; omega), Mem.store, if_neg (by rw [le_bytes_length]; omega)]

/-- The size that is calculated for a listpack is the one that is written, and no byte behind it is touched. -/
theorem list_calc_encode (out out' : Mem) (xs : List LpArg) (hfits : 6 + (xs.flatMap LpArg.bytes).length + 1 < 2 ^ 32) :
    (calc_args out' xs).off = (encode_args out xs).off ∧
    ∀ i, (encode_args out xs).off ≤ i → (encode_args out xs).p i = out i := by
  obtain ⟨hsame, hgrows⟩ := args_sized xs (e := init out) (c := init out') rfl (Nat.lt_of_succ_lt hfits)
  obtain ⟨hoff, -⟩ := hgrows (Nat.lt_of_succ_lt hfits)
  have hend := append_end_grows (xs.foldl append_arg (init out)) (hoff ▸ Nat.le_add_right _ _)
  obtain ⟨hall, hkept⟩ := (hgrows.trans hend) hfits
  obtain ⟨hoff', -⟩ := hend (hoff ▸ hfits)
  refine ⟨?_, fun i hi => hkept i (hall ▸ hi)⟩
  rw [encode_args, hoff', calc_args, calc_end, hsame]
  exact u32_of_lt (hoff ▸ hfits)

end RdbListPackEncode

/-- Both passes end at one offset, past which nothing is stored. The passes may be made over different memory,
the strings and integers may be in any order, and only the size of the list has to fit. -/
theorem calc_encode (out out' : Mem) :
    (∀ (args : List LinkArg) (count : Nat),
      10 + RdbZipEncode.entries_size 0 (args.map fun a => a.text.length) + 1 < 2 ^ 32 →
      (RdbZipEncode.calc_size out' args).off = (RdbZipEncode.encode out args count).off ∧
      ∀ i, (RdbZipEncode.encode out args count).off ≤ i → (RdbZipEncode.encode out args count).p i = out i) ∧
    ∀ xs : List LpArg, 6 + (xs.flatMap LpArg.bytes).length + 1 < 2 ^ 32 →
      (RdbListPackEncode.calc_args out' xs).off = (RdbListPackEncode.encode_args out xs).off ∧
      ∀ i, (RdbListPackEncode.encode_args out xs).off ≤ i → (RdbListPackEncode.encode_args out xs).p i = out i :=
  ⟨fun args count => RdbZipEncode.zip_calc_encode out out' args count, RdbListPackEncode.list_calc_encode out out'⟩

theorem calc_encode_three : ((RdbZipEncode.calc_size 0 two_args).off = (RdbZipEncode.encode 0 two_args 2).off ∧
      ∀ i, (RdbZipEncode.encode 0 two_args 2).off ≤ i → (RdbZipEncode.encode 0 two_args 2).p i = (0 : Mem) i) ∧
    (RdbListPackEncode.calc_args 0 RdbListPackEncode.three_args).off =
      (RdbListPackEncode.encode_args 0 RdbListPackEncode.three_args).off ∧
      ∀ i, (RdbListPackEncode.encode_args 0 RdbListPackEncode.three_args).off ≤ i →
        (RdbListPackEncode.encode_args 0 RdbListPackEncode.three_args).p i = (0 : Mem) i :=
  ⟨(calc_encode 0 0).1 two_args 2 (by decide), (calc_encode 0 0).2 RdbListPackEncode.three_args (by decide)⟩

end rdbparser
