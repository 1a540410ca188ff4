import Mathlib.Data.List.Forall2
import Rdbparser.Restore.Record
import Rdbparser.Main.Records
import Rdbparser.Pcre

namespace rdbparser

open format resp RdbDecode

/-! Lengths of numbers, and what a length line that is cut can be told by. -/

/-- The only number that is its own count of digits. -/
theorem decimal_length_eq {n : Nat} (h : (decimal n).length = n) : n = 1 := by
  have hpos := decimal_pos n
  by_contra hne
  obtain ⟨k, rfl⟩ : ∃ k, n = k + 2 := ⟨n - 2, by omega⟩
  have hk : k < 10 ^ k := Nat.lt_pow_self (by decide)
  have hlt : k + 2 < 10 ^ (k + 1) := by
    rw [Nat.pow_succ]
    omega
  have hle := (decimal_le_iff (Nat.succ_pos k)).mpr hlt
  omega

/-- The line of a number has no zero byte, so one that is cut by the buffer is not it. -/
theorem zero_not_mem_line (n : Nat) : (0 : UInt8) ∉ line 0x24 n := by
  intro h
  rcases List.mem_cons.mp h with h | h
  · cases h
  · rcases List.mem_append.mp h with h | h
    · exact absurd (decimal_digit h).1 (by decide)
    · revert h
      decide

/-- What is printed for a length is its line, or cut short by a zero. -/
theorem len_text_cases {m : Nat} {t : List UInt8} (hm : m < 2 ^ 63) (h : len_text m = some t) :
    m < 10 ^ 12 ∧ t = line 0x24 m ∨ t.length = (line 0x24 m).length ∧ 0 ∈ t := by
  have hival : sext 64 m = m := Int.bmod_eq_of_le_mul_two (by omega) (by omega)
  have hpos : ¬ (m : Int) < 0 := by omega
  have htext : (0x24 :: (int_text (sext 64 m) ++ CRLF) : List UInt8) = line 0x24 m := by
    rw [hival, int_text, if_neg hpos, Int.natAbs_natCast, line]
  simp only [len_text, htext] at h
  split at h
  · next hfits =>
    refine .inl ⟨?_, (Option.some.inj h).symm⟩
    rw [← decimal_le_iff (by decide)]
    simp only [line, List.length_cons, List.length_append, CRLF, List.length_nil] at hfits
    omega
  · split at h
    · next hfull =>
      obtain rfl := Option.some.inj h
      refine .inr ⟨?_, List.mem_append_right _ (List.mem_singleton_self 0)⟩
      rw [List.length_append, List.length_take, hfull]
      rfl
    · cases h

/-- A length that is printed as the line of another number, or shorter, is that number. -/
theorem len_text_line {m n : Nat} {t xs ys : List UInt8} (hm : m < 2 ^ 63) (h : len_text m = some t)
    (hmn : m ≤ n) (heq : t ++ xs = line 0x24 n ++ ys) : m < 10 ^ 12 ∧ m = n ∧ xs = ys := by
  cases len_text_cases hm h with
  | inl hline =>
    obtain ⟨hsmall, rfl⟩ := hline
    exact ⟨hsmall, line_append_inj heq⟩
  | inr hcut =>
    have hle : t.length ≤ (line 0x24 n).length := by
      rw [hcut.1]
      have := decimal_mono hmn
      simp only [line, List.length_cons, List.length_append]
      omega
    have hmem : (0 : UInt8) ∈ line 0x24 n := by
      have hprefix : t <+: line 0x24 n := List.prefix_of_prefix_length_le ⟨xs, heq⟩ ⟨ys, rfl⟩ hle
      exact hprefix.subset hcut.2
    exact absurd hmem (zero_not_mem_line n)

/-- An integer that is printed as the line of a number is that number. -/
theorem len_text_int (i : StoredInt) {n : Nat} {t xs ys : List UInt8}
    (h : len_text (twos 64 i.val) = some t) (heq : t ++ xs = line 0x24 n ++ ys) : i.val = n := by
  have hbounds : -(2 ^ 31) ≤ i.val ∧ i.val < 2 ^ 31 := by
    have hlo := i.lo
    have hhi := i.hi
    cases hf : i.form <;> simp only [hf, IntForm.nbyte] at hlo hhi <;> omega
  have hival : sext 64 (twos 64 i.val) = i.val := sext_twos (by omega) (by omega)
  have hdigits : (decimal i.val.natAbs).length ≤ 10 := by
    rw [decimal_le_iff (by decide)]
    omega
  have hfits : (0x24 :: (int_text i.val ++ CRLF) : List UInt8).length < 16 := by
    rw [int_text]
    split <;> simp only [List.length_cons, List.length_append, CRLF, List.length_nil] <;> omega
  simp only [len_text, hival, if_pos hfits, Option.some.injEq] at h
  subst h
  rw [int_text] at heq
  split at heq
  · -- a sign is no digit
    obtain ⟨b, bs, hb⟩ := List.exists_cons_of_length_pos (decimal_pos n)
    have hdigit := decimal_digit (n := n) (b := b) (by rw [hb]; exact List.mem_cons_self)
    simp only [line, hb, List.cons_append, List.cons.injEq, true_and] at heq
    rw [← heq.1] at hdigit
    exact absurd hdigit.1 (by decide)
  · have hnum := (line_append_inj (show line 0x24 i.val.natAbs ++ xs = _ from heq)).1
    omega

/-- As many bytes of a key are written as its length says, if they can be read at all. -/
theorem RdbString.fwrite_length {k : RdbString} {alloced_mem : List Nat} {key : List UInt8}
    (h : k.fwrite alloced_mem = some key) : key.length = k.s_len := by
  unfold fwrite at h
  split at h
  · next hzero =>
    obtain rfl := Option.some.inj h
    exact hzero.symm
  · split at h
    · cases h
    · split at h
      · obtain rfl := Option.some.inj h
        exact Mem.take_length _ _
      · cases h
    all_goals
      obtain rfl := Option.some.inj h
      exact Mem.take_length _ _

variable {E : Env} {V : Type} [Encoding E V] {filter : Option (RdbVal → Bool)} {prev : Dest}
  {c : Place} {r : Record E V} {t : St} {o : List Event}

/-- The pieces of a command that is written, from a buffer that starts at `buf`. -/
theorem RestoreOutput.command_some {out : RestoreOutput} {s : St} {buf : Cursor} {start end_ : Nat}
    {cmd : List UInt8}
    (hbuf : { s.bptr.buf with pos := s.bptr.buf.pos - s.bptr.offset } = buf)
    (hfile : s.dec.is_rdb_file = true) (hreplace : out.use_replace = true)
    (hcmd : out.command E s start end_ = some cmd) :
    ∃ key_len key data_len, len_text s.dec.key.s_len = some key_len ∧
      s.dec.key.fwrite s.bptr.alloced_mem = some key ∧
      data_start buf true s.dec.key start ≤ end_ ∧
      len_text ((end_ - data_start buf true s.dec.key start + 11) % 2 ^ 64) = some data_len ∧
      cmd = command_of ((buf.add out.type_offset).ptr.mem 0)
        ((buf.add (data_start buf true s.dec.key start)).ptr.mem.take
          (end_ - data_start buf true s.dec.key start)) key_len key data_len := by
  rw [command] at hcmd
  split at hcmd
  · cases hcmd
  · simp only [hbuf, hfile] at hcmd
    split at hcmd
    · cases hcmd
    · next hend =>
      simp only [Option.bind_eq_bind, Option.bind_eq_some_iff, Option.pure_def, Option.some.injEq]
        at hcmd
      obtain ⟨key_len, hkey_len, key, hkey, data_len, hdata_len, rfl⟩ := hcmd
      refine ⟨key_len, key, data_len, hkey_len, hkey, by omega, hdata_len, ?_⟩
      have hdata : (buf.add (data_start buf true s.dec.key start)).ptr.mem.Starts
          ((buf.add (data_start buf true s.dec.key start)).ptr.mem.take
            (end_ - data_start buf true s.dec.key start)) := by
        rw [Mem.Starts, Mem.take_length]
      have htext := command_text_eq (E := E) (show (buf.add out.type_offset).ptr.mem 0 = _ from rfl) hdata
        hreplace key_len key data_len
      rwa [Mem.take_length] at htext

/-- Where a command is the one of a key and a dump, its pieces are theirs. -/
theorem RestoreOutput.command_of_inj {a b : UInt8} {data data' key_len key key' data_len : List UInt8}
    {m m' : Nat} (hm : m < 2 ^ 63) (hkey_len : len_text m = some key_len) (hkey : key.length = m)
    (hle : m ≤ key'.length) (hm' : m' < 2 ^ 63) (hdata_len : len_text m' = some data_len)
    (hle' : m' ≤ (dump b data').length)
    (h : command_of a data key_len key data_len = command_of b data'
      (line 0x24 key'.length) key' (line 0x24 (dump b data').length)) :
    m < 10 ^ 12 ∧ key = key' ∧ m' < 10 ^ 12 ∧ m' = (dump b data').length ∧
      dump a data = dump b data' := by
  obtain ⟨hsmall, hlen, h⟩ := len_text_line hm hkey_len hle
    (List.append_cancel_left (List.append_cancel_left h))
  obtain ⟨hkeys, h⟩ := List.append_inj h (hkey.trans hlen)
  obtain ⟨hsmall', hlen', h⟩ := len_text_line hm' hdata_len hle'
    (List.append_cancel_left (List.append_cancel_left h))
  exact ⟨hsmall, hkeys, hsmall', hlen', List.append_cancel_right h⟩

/-- What is printed for a record is its command if and only if both of its lengths have room for their line. -/
theorem format.Record.printed_iff {r : Record E V} (hkey : r.key.text.length < 2 ^ 63)
    (hdata : (dump (Encoding.type_byte r.value) r.data).length < 2 ^ 63) :
    r.printed = some r.command ↔ r.key.text.length < 10 ^ 12 ∧
      (dump (Encoding.type_byte r.value) r.data).length < 10 ^ 12 := by
  constructor
  · intro h
    rw [Record.printed, Option.bind_eq_some_iff] at h
    obtain ⟨key_len, hkey_len, h⟩ := h
    obtain ⟨data_len, hdata_len, heq⟩ := Option.map_eq_some_iff.mp h
    rw [r.command_eq] at heq
    obtain ⟨hkey', -, hdata', -⟩ := RestoreOutput.command_of_inj hkey hkey_len rfl (Nat.le_refl _) hdata hdata_len
      (Nat.le_refl _) heq
    exact ⟨hkey', hdata'⟩
  · rintro ⟨hkey', hdata'⟩
    exact r.printed_eq hkey' hdata'

/-- A key that is not stored raw has no command that is its own: the number of an integer is taken for the length
of the key, and the text of a compressed one is freed before it is written. -/
theorem KeyDone.key_command_ne {file : List UInt8} (h : KeyDone filter prev c r t o)
    (hbuf : c.Buffers file) (hlong : file.length < 2 ^ 63) (hstart : c.start_offset = 0)
    (hheader : 9 ≤ c.offset) {rest : List UInt8} (hv : c.Views (r.bytes ++ rest))
    (hmatch : verdict filter r.key.val = .data_out) (hraw : r.key.is_raw ≠ true) {out : RestoreOutput}
    (hreplace : out.use_replace = true) : out.key_command E o t ≠ some r.command := by
  intro hcmd
  have hends := hbuf.ends
  rw [h.write_restore_cmd, hstart, if_pos ⟨hmatch, Nat.zero_le _⟩] at hcmd
  simp only [Nat.sub_zero] at hcmd
  obtain ⟨hposition, hbuffer⟩ := h.buffer hbuf.pos
  have hmem := r.in_buffer hbuf.pos hv
  obtain ⟨key_len, key, data_len, hkey_len, hkey, hle, hdata_len, heq⟩ :=
    RestoreOutput.command_some hbuffer h.ready.file
      (by rw [RestoreOutput.callbacks_use_replace, hreplace]) hcmd
  rw [r.command_eq] at heq
  obtain ⟨k₀, hholds⟩ := h.key
  cases hkind : r.key with
  | raw len text hlen =>
    rw [hkind] at hraw
    exact hraw rfl
  | int i =>
    have hhdr : ((({ c.buf with pos := 0 } : Cursor).add
        (r.type_at c.offset + 1)).ptr.mem).Starts r.key.hdr.bytes := by
      have hkeydata := (Mem.starts_cons.mp hmem).2
      rw [StoredStr.bytes, List.append_assoc, Mem.add_add] at hkeydata
      simpa [Cursor.ptr, Cursor.add] using (Mem.starts_append.mp hkeydata).1
    rw [RestoreOutput.data_start_eq r.key t.dec.key hhdr] at hle hdata_len
    have hend := r.end_at c.offset
    have hat : c.offset ≤ r.type_at c.offset := Nat.le_add_right _ _
    have hsmall := hv.le
    have hpos := r.key.bytes_length_pos
    have hdump := dump_length (Encoding.type_byte r.value) r.data
    rw [hkind] at hholds
    have hs_len : t.dec.key.s_len = twos 64 i.val := by rw [hholds]; rfl
    have hbytes : r.key.bytes.length = r.key.hdr.bytes.length := by
      rw [hkind, StoredStr.bytes, List.length_append]
      rfl
    have htext : r.key.text = int_text i.val := by rw [hkind]; rfl
    rw [hs_len] at hkey_len hle hdata_len
    -- the integer is taken for the length of its text, which it is for 1 only
    have hval := len_text_int i hkey_len (List.append_cancel_left (List.append_cancel_left heq.symm))
    have hone : r.key.text.length = 1 := by
      generalize hn : r.key.text.length = n at hval
      have hdecimal : r.key.text = decimal n := by
        rw [htext, hval, int_text, if_neg (by omega), Int.natAbs_natCast]
      exact decimal_length_eq (by rw [← hdecimal, hn])
    have htwos : twos 64 i.val = 1 := by
      rw [hval, hone]
      rfl
    rw [htwos] at hkey_len hle hdata_len
    rw [Nat.mod_eq_of_lt (by omega)] at hle hdata_len
    rw [Nat.mod_eq_of_lt (by omega)] at hdata_len
    have hkeylen := (RdbString.fwrite_length hkey).trans (hs_len.trans htwos)
    obtain ⟨-, -, -, hdata', -⟩ := RestoreOutput.command_of_inj (by omega) hkey_len hkeylen
      (by omega) (by omega) hdata_len (by omega) heq.symm
    omega
  | lzf zlen len z text hzlen hlen hlzf =>
    rw [hkind] at hholds
    obtain ⟨p, id, hset, -, hblk⟩ := hholds
    have htext : text.length ≠ 0 := fun h => hlzf.nonempty (List.eq_nil_of_length_eq_zero h)
    rw [h.alloced, RdbString.fwrite, hset, if_neg (by exact htext)] at hkey
    simp [RdbString.set_str, hblk] at hkey

/-- The commands that are written right: those for keys stored raw, of lengths that can be printed. The record lies
in a buffer that starts with the file; nothing is assumed of its value. -/
theorem KeyDone.key_command_iff {file : List UInt8} (h : KeyDone filter prev c r t o)
    (hbuf : c.Buffers file) (hlong : file.length < 2 ^ 63) (hstart : c.start_offset = 0)
    (hheader : 9 ≤ c.offset) {rest : List UInt8} (hv : c.Views (r.bytes ++ rest))
    (hmatch : verdict filter r.key.val = .data_out) {out : RestoreOutput}
    (hreplace : out.use_replace = true) :
    out.key_command E o t = some r.command ↔ r.key.is_raw = true ∧ r.key.text.length < 10 ^ 12 ∧
      (dump (Encoding.type_byte r.value) r.data).length < 10 ^ 12 := by
  have hends := hbuf.ends
  by_cases hraw : r.key.is_raw = true
  · have hsmall := hv.le
    have hend := r.end_at c.offset
    have hdump := dump_length (Encoding.type_byte r.value) r.data
    have hkey : r.key.text.length ≤ r.key.bytes.length := by
      obtain ⟨len, text, hlen, hkey⟩ := StoredStr.eq_raw hraw
      rw [hkey, StoredStr.bytes, List.length_append]
      exact Nat.le_add_left _ _
    have hat : c.offset ≤ r.type_at c.offset := Nat.le_add_right _ _
    have hpos := r.key.bytes_length_pos
    rw [h.key_command_printed hbuf.pos hstart hv (by omega) hbuf.blk hraw hreplace, if_pos hmatch,
      r.printed_iff (by omega) (by omega)]
    exact (and_iff_right hraw).symm
  · have hne := h.key_command_ne hbuf hlong hstart hheader hv hmatch hraw hreplace
    exact iff_of_false hne fun hall => hraw hall.1

/-- The records of a mapped file lie behind its header in the one buffer there is. -/
theorem places_mapped (total offset : Nat) (lens : List Nat) :
    ∀ p ∈ places (total + 1) total offset 0 lens, offset ≤ p.1 ∧ p.2 = 0 := by
  induction lens generalizing offset with
  | nil => simp [places]
  | cons n lens ih =>
    intro p hp
    have hnext : next_place (total + 1) total n offset 0 = (offset + n, 0) := by
      rw [next_place, if_neg (by omega)]
    rw [places, hnext] at hp
    cases hp with
    | head => exact ⟨Nat.le_refl _, rfl⟩
    | tail _ hp =>
      have hle := ih (offset + n) p hp
      exact ⟨by omega, hle.2⟩

/-- A record that is let through and whose command is written right. -/
def format.Record.Restorable (r : Record E V) : Prop :=
  r.key.is_raw = true ∧ r.key.text.length < 10 ^ 12 ∧
    (dump (Encoding.type_byte r.value) r.data).length < 10 ^ 12

/-- What is to be written for a record. -/
def format.Record.restored (verdict : RdbVal → Dest) (r : Record E V) : List UInt8 :=
  if verdict r.key.val = .data_out then r.command else []

/-- What holds of the command for each record, by its place, holds of the commands in order. -/
theorem KeysDone.commands_forall {file : List UInt8} {rs : List (Record E V × Nat × Nat)}
    {ks : List (List Event × St)} (h : KeysDone filter file prev rs ks) {out : RestoreOutput}
    (hreplace : out.use_replace = true)
    {P : Record E V × Nat × Nat → Option (List UInt8) → Prop}
    (hkey : ∀ {prev c r t o rest} {out : RestoreOutput}, c.Buffers file → c.Views (r.bytes ++ rest) →
      KeyDone filter prev c r t o → out.use_replace = true →
      P (r, c.offset, c.start_offset) (out.key_command E o t)) :
    List.Forall₂ P rs (RestoreOutput.commands E out ks) := by
  induction rs generalizing prev ks out with
  | nil =>
    obtain rfl : ks = [] := h
    exact .nil
  | cons x rs ih =>
    obtain ⟨r, place⟩ := x
    cases ks with
    | nil => exact h.elim
    | cons k ks =>
      obtain ⟨⟨c, rest, rfl, hbuf, hv, hdone⟩, htail⟩ := h
      exact .cons (hkey hbuf hv hdone hreplace)
        (ih htail ((RestoreOutput.callbacks_use_replace out k.1).trans hreplace))

/-- Where each value is the wanted one under a condition, all are under all conditions. -/
theorem forall₂_eq_map_iff {α β : Type} {g : α → β} {Q : α → Prop} {xs : List α} {bs : List β}
    (h : List.Forall₂ (fun x b => b = g x ↔ Q x) xs bs) : bs = xs.map g ↔ ∀ x ∈ xs, Q x := by
  induction h with
  | nil => simp
  | cons hx _ ih => rw [List.map_cons, List.cons.injEq, hx, ih, List.forall_mem_cons]

theorem forall₂_of_mem {α β : Type} {A : α → Prop} {R : α → β → Prop} {xs : List α} {bs : List β}
    (h : List.Forall₂ (fun x b => A x → R x b) xs bs) (hall : ∀ x ∈ xs, A x) : List.Forall₂ R xs bs :=
  ((List.forall₂_and_left xs bs).mpr ⟨hall, h⟩).imp fun _ _ h => h.2 h.1

/-- The commands for a mapped file are the right ones where and only where the records that are let
through are restorable. -/
theorem KeysDone.commands_iff {file : List UInt8} {rs : List (Record E V × Nat × Nat)}
    {ks : List (List Event × St)} (h : KeysDone filter file prev rs ks) (hlong : file.length < 2 ^ 63)
    (hplaces : ∀ x ∈ rs, 9 ≤ x.2.1 ∧ x.2.2 = 0) {out : RestoreOutput} (hreplace : out.use_replace = true) :
    RestoreOutput.commands E out ks = rs.map (fun x => some (x.1.restored (verdict filter))) ↔
      ∀ x ∈ rs, verdict filter x.1.key.val = .data_out → x.1.Restorable := by
  refine forall₂_eq_map_iff (forall₂_of_mem (h.commands_forall hreplace ?_) hplaces)
  rintro prev c r t o rest out hbuf hv hdone hreplace ⟨hheader, hstart⟩
  by_cases hmatch : verdict filter r.key.val = .data_out
  · rw [Record.restored, if_pos hmatch, hdone.key_command_iff hbuf hlong hstart hheader hv hmatch hreplace]
    exact ⟨fun h _ => h, fun h => h hmatch⟩
  · rw [Record.restored, if_neg hmatch, hdone.write_restore_cmd, if_neg fun h => hmatch h.1]
    exact ⟨fun _ h => absurd h hmatch, fun _ => rfl⟩

end rdbparser
