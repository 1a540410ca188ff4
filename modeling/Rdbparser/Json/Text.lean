import Rdbparser.Json
import Rdbparser.JsonString

/-! The text that is written for a string: when it is JSON, and when no other string has it. -/

namespace rdbparser

open JsonString

/-- What a string is put out as. -/
def text (s : List UInt8) : List UInt8 := s.flatMap escape

@[simp] theorem text_nil : text [] = [] := rfl

@[simp] theorem text_cons (b : UInt8) (s : List UInt8) : text (b :: s) = escape b ++ text s := List.flatMap_cons

theorem escape_length (b : UInt8) : 0 < (escape b).length ∧ (escape b).length ≤ 6 := by
  have hall : ∀ n < 256, 0 < (escape (UInt8.ofNat n)).length ∧ (escape (UInt8.ofNat n)).length ≤ 6 := by decide +kernel
  rw [← UInt8.ofNat_toNat (x := b)]
  exact hall _ b.toNat_lt

namespace Printer

/-- What is written, and what is about to be. -/
def all (p : Printer) : List UInt8 := p.written.flatten ++ p.out

theorem flush_all (p : Printer) : p.flush.all = p.all := by
  rw [all, flush, List.flatten_append, List.flatten_singleton, List.append_nil]
  rfl

theorem put_run (p : Printer) (bs : List UInt8) (h : p.out.length + bs.length ≤ OUT_SIZE) :
    ∃ q, p.put bs = some q ∧ q.out = p.out ++ bs ∧ q.all = p.all ++ bs :=
  ⟨_, if_pos h, rfl, (List.append_assoc _ _ _).symm⟩

end Printer

/-- The buffer has room for what a byte is put out as, as it is flushed once it holds more than 120 bytes. -/
theorem print_loop_written (s : List UInt8) {p : Printer} (hp : p.out.length ≤ 120) :
    ∃ q, print_loop s p = some q ∧ q.out.length ≤ 120 ∧ q.all = p.all ++ text s := by
  induction s generalizing p with
  | nil => exact ⟨p, rfl, hp, (List.append_nil _).symm⟩
  | cons b s ih =>
    have hlen := escape_length b
    obtain ⟨q, hput, hout, hall⟩ := p.put_run (escape b) (by rw [OUT_SIZE]; omega)
    rw [print_loop, hput, text_cons, ← List.append_assoc, ← hall]
    dsimp only
    by_cases hfull : 120 < q.out.length
    · rw [if_pos hfull, ← q.flush_all]
      exact ih (Nat.zero_le 120)
    · rw [if_neg hfull]
      exact ih (Nat.not_lt.mp hfull)

/-- A string is written between its quotes, and nothing past the buffer. -/
theorem print_str_written (s : List UInt8) (use_quotes : Bool) :
    ∃ chunks, print_str s use_quotes = some chunks ∧
      chunks.flatten = if use_quotes then 0x22 :: (text s ++ [0x22]) else text s := by
  have hquote : (if use_quotes then [0x22] else [] : List UInt8).length ≤ 1 := by cases use_quotes <;> decide
  have hflat : (if use_quotes then 0x22 :: (text s ++ [0x22]) else text s) =
      (if use_quotes then [0x22] else []) ++ text s ++
      (if use_quotes then [0x22] else [] : List UInt8) := by
    cases use_quotes
    · exact (List.append_nil _).symm
    · rfl
  rw [hflat, print_str]
  generalize (if use_quotes then [0x22] else [] : List UInt8) = quote at *
  obtain ⟨p, hput, hout, hall⟩ := (Printer.mk [] []).put_run quote (show 0 + _ ≤ OUT_SIZE by rw [OUT_SIZE]; omega)
  obtain ⟨q, hloop, hq, hall'⟩ := print_loop_written s (p := p) (by rw [hout]; exact Nat.le_trans hquote (by decide))
  obtain ⟨r, hput', hout', hall''⟩ := q.put_run quote (by rw [OUT_SIZE]; omega)
  simp only [hput, hloop, hput']
  refine ⟨_, rfl, ?_⟩
  have hr : r.all = quote ++ text s ++ quote := by
    rw [hall'', hall', hall]
    rfl
  rw [← hr]
  split
  · rw [← r.flush_all]
    exact (List.append_nil _).symm
  · next hempty =>
    obtain hempty := List.length_eq_zero_iff.mp (Nat.not_lt.mp hempty |> Nat.le_zero.mp)
    rw [Printer.all, hempty, List.append_nil]

/-- A string is written in chunks that make up its text between the quotes, and nothing past the buffer. It may
have any length and any bytes; the buffer is flushed as often as it takes. -/
theorem print_s_chunks (fmt : Nat → List UInt8) (b : Ptr) (n : Nat) (use_quotes : Bool) :
    ∃ chunks, print_s fmt (RdbString.empty.set_str b n) use_quotes = some chunks ∧
      chunks.flatten = (if use_quotes then [0x22] else []) ++ (b.mem.take n).flatMap escape ++
        (if use_quotes then [0x22] else []) := by
  obtain ⟨chunks, hrun, hflat⟩ := print_str_written (b.mem.take n) use_quotes
  refine ⟨chunks, hrun, ?_⟩
  rw [hflat]
  cases use_quotes
  · exact (List.append_nil _).symm
  · rfl

/-! When the text is JSON. -/

/-- A byte that is not put out as an escape of a backslash. -/
def printable (b : UInt8) : Bool := 0x20 ≤ b && b ≤ 126

/-- What makes an escape behind a backslash that is put out as it is: what does so by itself, but for the quotes, which
have a backslash in front of them, and what is put out behind another backslash. -/
def escapes (c : UInt8) : Bool := c != 0x22 && (c == 0x27 || letter c || !printable c)

/-- Every backslash makes an escape with what follows it, and every apostrophe is part of one. -/
def kept : List UInt8 → Bool
  | [] => true
  | [b] => b != 0x5c && b != 0x27
  | b :: c :: s =>
    if b = 0x5c then
      if c = 0x75 then
        match s with
        | h₁ :: h₂ :: h₃ :: h₄ :: s => hex h₁ && hex h₂ && hex h₃ && hex h₄ && kept s
        | _ => false
      else escapes c && kept s
    else b != 0x27 && kept (c :: s)

theorem kept_cons {b : UInt8} (hb : b ≠ 0x5c) (s : List UInt8) : kept (b :: s) = (b != 0x27 && kept s) := by
  cases s with
  | nil => rw [kept, kept, Bool.and_true, bne_iff_ne.mpr hb, Bool.true_and]
  | cons c s =>
    rw [kept.eq_def]
    simp only [if_neg hb]

theorem kept_escape {c : UInt8} (hc : c ≠ 0x75) (s : List UInt8) : kept (0x5c :: c :: s) = (escapes c && kept s) := by
  rw [kept.eq_def]
  simp only [if_true, if_neg hc]

/-- An escape of four digits is kept if all four are hexadecimal and what is behind them is kept. -/
theorem kept_escape_u {s : List UInt8} : kept (0x5c :: 0x75 :: s) = true ↔
    ∃ h₁ h₂ h₃ h₄ t, s = h₁ :: h₂ :: h₃ :: h₄ :: t ∧ (hex h₁ ∧ hex h₂ ∧ hex h₃ ∧ hex h₄) ∧ kept t = true := by
  rw [kept.eq_def]
  simp only [if_true]
  split
  · next h₁ h₂ h₃ h₄ t =>
    simp only [Bool.and_eq_true, and_assoc]
    constructor
    · intro h
      exact ⟨h₁, h₂, h₃, h₄, t, rfl, h⟩
    · rintro ⟨_, _, _, _, _, hs, h⟩
      simp only [List.cons.injEq] at hs
      obtain ⟨rfl, rfl, rfl, rfl, rfl⟩ := hs
      exact h
  · next hshort =>
    refine iff_of_false Bool.false_ne_true ?_
    rintro ⟨h₁, h₂, h₃, h₄, t, rfl, -⟩
    exact hshort h₁ h₂ h₃ h₄ t rfl

section escape

variable {b : UInt8}

theorem escape_self (hb : printable b = true) (hapos : b ≠ 0x27) (hquote : b ≠ 0x22) : escape b = [b] := by
  rw [printable, Bool.and_eq_true, decide_eq_true_iff, decide_eq_true_iff] at hb
  rw [escape, if_pos hb, if_neg (not_or_intro hapos hquote)]

/-- What is not printable becomes a letter or a number behind a backslash. -/
theorem escape_other (hb : printable b = false) :
    (∃ c ∈ [0x62, 0x66, 0x6e, 0x72, 0x74], escape b = [0x5c, c]) ∨
      ∃ d₁ d₂ d₃ : Nat, d₁ < 10 ∧ d₂ < 10 ∧ d₃ < 10 ∧
        escape b = [0x5c, 0x75, 0x30, UInt8.ofNat (0x30 + d₁), UInt8.ofNat (0x30 + d₂), UInt8.ofNat (0x30 + d₃)] := by
  have hno : ¬ (0x20 ≤ b ∧ b ≤ 126) := fun h => by
    rw [printable, decide_eq_true h.1, decide_eq_true h.2] at hb
    exact nomatch hb
  unfold escape
  rw [if_neg hno]
  split
  · exact .inl ⟨0x62, by decide, rfl⟩
  · exact .inl ⟨0x66, by decide, rfl⟩
  · exact .inl ⟨0x6e, by decide, rfl⟩
  · exact .inl ⟨0x72, by decide, rfl⟩
  · exact .inl ⟨0x74, by decide, rfl⟩
  · exact .inr ⟨_, _, _, Nat.mod_lt _ (by decide), Nat.mod_lt _ (by decide), Nat.mod_lt _ (by decide), rfl⟩

theorem digit_hex {d : Nat} (h : d < 10) :
    hex (UInt8.ofNat (0x30 + d)) = true ∧ plain (UInt8.ofNat (0x30 + d)) = true := by
  have hall : ∀ d < 10, hex (UInt8.ofNat (0x30 + d)) = true ∧ plain (UInt8.ofNat (0x30 + d)) = true := by decide
  exact hall d h

/-- The escape of a byte that is not printable stands for itself, -/
theorem chars_escape_other (hb : printable b = false) (s : List UInt8) : chars (escape b ++ s) = chars s := by
  rcases escape_other hb with ⟨c, hc, hesc⟩ | ⟨d₁, d₂, d₃, h₁, h₂, h₃, hesc⟩
  · have hletter : ∀ c ∈ ([0x62, 0x66, 0x6e, 0x72, 0x74] : List UInt8), c ≠ 0x75 ∧ letter c = true := by decide +kernel
    obtain ⟨hne, hlet⟩ := hletter c hc
    rw [hesc, List.cons_append, List.cons_append, chars_escape hne, hlet, Bool.true_and]
    rfl
  · rw [hesc]
    have hiff : chars ([0x5c, 0x75, 0x30, UInt8.ofNat (0x30 + d₁), UInt8.ofNat (0x30 + d₂),
        UInt8.ofNat (0x30 + d₃)] ++ s) = true ↔
        chars s = true := by
      refine chars_escape_u.trans ⟨?_,
        fun h => ⟨_, _, _, _, _, rfl, ⟨by decide, (digit_hex h₁).1, (digit_hex h₂).1, (digit_hex h₃).1⟩, h⟩⟩
      rintro ⟨_, _, _, _, _, hs, -, h⟩
      cases hs
      exact h
    exact Bool.eq_iff_iff.mpr hiff

/-- and behind a backslash it is that which is escaped. -/
theorem chars_backslash_other (hb : printable b = false) (s : List UInt8) :
    chars (0x5c :: (escape b ++ s)) = chars s := by
  rcases escape_other hb with ⟨c, hc, hesc⟩ | ⟨d₁, d₂, d₃, h₁, h₂, h₃, hesc⟩
  · have hplain : ∀ c ∈ ([0x62, 0x66, 0x6e, 0x72, 0x74] : List UInt8), plain c = true := by decide +kernel
    rw [hesc, List.cons_append, chars_escape (by decide), show letter 0x5c = true by decide, Bool.true_and]
    exact @chars_append [c] (fun b hb => by
      rw [List.mem_singleton] at hb
      rw [hb]
      exact hplain c hc) s
  · rw [hesc, List.cons_append, chars_escape (by decide), show letter 0x5c = true by decide, Bool.true_and]
    refine @chars_append [0x75, 0x30, UInt8.ofNat (0x30 + d₁), UInt8.ofNat (0x30 + d₂), UInt8.ofNat (0x30 + d₃)] ?_ s
    simp only [List.forall_mem_cons, List.not_mem_nil, false_implies, implies_true, and_true]
    exact ⟨by decide, by decide, (digit_hex h₁).2, (digit_hex h₂).2, (digit_hex h₃).2⟩

end escape

/-- A byte is put out as it is, behind a backslash, or as a letter or number behind one. -/
theorem escape_cases (b : UInt8) : (printable b = true ∧ b ≠ 0x27 ∧ b ≠ 0x22 ∧ escape b = [b]) ∨
    ((b = 0x27 ∨ b = 0x22) ∧ escape b = [0x5c, b]) ∨ (printable b = false ∧ ∃ cs, escape b = 0x5c :: cs) := by
  cases hb : printable b with
  | false =>
    refine .inr (.inr ⟨rfl, ?_⟩)
    rcases escape_other hb with ⟨c, -, hesc⟩ | ⟨d₁, d₂, d₃, -, -, -, hesc⟩ <;> exact ⟨_, hesc⟩
  | true =>
    by_cases hapos : b = 0x27
    · subst hapos
      exact .inr (.inl ⟨.inl rfl, rfl⟩)
    · by_cases hquote : b = 0x22
      · subst hquote
        exact .inr (.inl ⟨.inr rfl, rfl⟩)
      · exact .inl ⟨rfl, hapos, hquote, escape_self hb hapos hquote⟩

/-- What is put out as it is begins with itself, and nothing else begins with it. -/
theorem text_plain {h : UInt8} (hprint : printable h = true) (hplain : plain h = true)
    (hapos : h ≠ 0x27) {s t : List UInt8} :
    text s = h :: t ↔ ∃ s', s = h :: s' ∧ text s' = t := by
  have hquote : h ≠ 0x22 := by
    rintro rfl
    exact absurd hplain (by decide)
  have hback : h ≠ 0x5c := by
    rintro rfl
    exact absurd hplain (by decide)
  constructor
  · intro htext
    cases s with
    | nil => exact nomatch htext
    | cons b s =>
      rw [text_cons] at htext
      rcases escape_cases b with ⟨-, -, -, hesc⟩ | ⟨-, hesc⟩ | ⟨-, cs, hesc⟩ <;> rw [hesc] at htext
      · obtain ⟨rfl, rfl⟩ := List.cons.inj htext
        exact ⟨s, rfl, rfl⟩
      · exact absurd (List.cons.inj htext).1.symm hback
      · exact absurd (List.cons.inj htext).1.symm hback
  · rintro ⟨s', rfl, rfl⟩
    rw [text_cons, escape_self hprint hapos hquote]
    rfl

theorem hex_plain {h : UInt8} (hh : hex h = true) : printable h = true ∧ plain h = true ∧ h ≠ 0x27 := by
  have hall : ∀ n < 256, hex (UInt8.ofNat n) = true →
      printable (UInt8.ofNat n) = true ∧ plain (UInt8.ofNat n) = true ∧ UInt8.ofNat n ≠ 0x27 := by decide +kernel
  rw [← UInt8.ofNat_toNat (x := h)] at hh ⊢
  exact hall _ h.toNat_lt hh

/-- A hexadecimal digit is put out as it is, and nothing else begins with one. -/
theorem text_hex {h : UInt8} (hh : hex h = true) {s t : List UInt8} : text s = h :: t ↔
    ∃ s', s = h :: s' ∧ text s' = t :=
  text_plain (hex_plain hh).1 (hex_plain hh).2.1 (hex_plain hh).2.2

theorem printable_plain {b : UInt8} (hprint : printable b = true) (hquote : b ≠ 0x22) (hback : b ≠ 0x5c) :
    plain b = true := by
  have hall : ∀ n < 256, printable (UInt8.ofNat n) = true → UInt8.ofNat n ≠ 0x22 → UInt8.ofNat n ≠ 0x5c →
      plain (UInt8.ofNat n) = true := by decide +kernel
  rw [← UInt8.ofNat_toNat (x := b)] at *
  exact hall _ b.toNat_lt hprint hquote hback

/-- The text is JSON between its quotes where every backslash makes an escape. -/
theorem chars_text (s : List UInt8) : chars (text s) = kept s := by
  match s with
  | [] => rfl
  | b :: s =>
    by_cases hb : b = 0x5c
    · subst hb
      have hself : ∀ s, text (0x5c :: s) = 0x5c :: text s := fun s => rfl
      match s with
      | [] => rfl
      | c :: s =>
        rw [hself]
        by_cases hc : c = 0x75
        · subst hc
          have hiff : chars (0x5c :: 0x75 :: text s) = true ↔ kept (0x5c :: 0x75 :: s) = true := by
            rw [chars_escape_u, kept_escape_u]
            constructor
            · rintro ⟨h₁, h₂, h₃, h₄, t, ht, ⟨hh₁, hh₂, hh₃, hh₄⟩, hchars⟩
              obtain ⟨s₁, rfl, hs₁⟩ := (text_hex hh₁).mp ht
              obtain ⟨s₂, rfl, hs₂⟩ := (text_hex hh₂).mp hs₁
              obtain ⟨s₃, rfl, hs₃⟩ := (text_hex hh₃).mp hs₂
              obtain ⟨s₄, rfl, rfl⟩ := (text_hex hh₄).mp hs₃
              exact ⟨h₁, h₂, h₃, h₄, s₄, rfl, ⟨hh₁, hh₂, hh₃, hh₄⟩, chars_text s₄ ▸ hchars⟩
            · rintro ⟨h₁, h₂, h₃, h₄, s, rfl, ⟨hh₁, hh₂, hh₃, hh₄⟩, hkept⟩
              refine ⟨h₁, h₂, h₃, h₄, text s, ?_, ⟨hh₁, hh₂, hh₃, hh₄⟩, (chars_text s).trans hkept⟩
              exact (text_hex hh₁).mpr ⟨_, rfl, (text_hex hh₂).mpr ⟨_, rfl, (text_hex hh₃).mpr ⟨_, rfl,
                (text_hex hh₄).mpr ⟨_, rfl, rfl⟩⟩⟩⟩
          exact Bool.eq_iff_iff.mpr hiff
        · rw [kept_escape hc, text_cons, ← chars_text s, escapes]
          rcases escape_cases c with ⟨hprint, hapos, hquote, hesc⟩ | ⟨rfl | rfl, hesc⟩ | ⟨hprint, -⟩
          · rw [hesc, List.singleton_append, chars_escape hc, hprint, bne_iff_ne.mpr hquote,
              beq_eq_false_iff_ne.mpr hapos]
            simp only [Bool.true_and, Bool.false_or, Bool.not_true, Bool.or_false]
          · rw [hesc, List.cons_append, chars_escape (by decide), List.singleton_append, chars_cons (by decide)]
            rfl
          · rw [hesc, List.cons_append, chars_escape (by decide), List.singleton_append, chars_cons (by decide)]
            rfl
          · have hquote : c ≠ 0x22 := by
              rintro rfl
              exact absurd hprint (by decide)
            rw [chars_backslash_other hprint, hprint, bne_iff_ne.mpr hquote]
            simp only [Bool.not_false, Bool.or_true, Bool.true_and]
    · rw [kept_cons hb, text_cons, ← chars_text s]
      rcases escape_cases b with ⟨hprint, hapos, hquote, hesc⟩ | ⟨rfl | rfl, hesc⟩ | ⟨hprint, -⟩
      · rw [hesc, List.singleton_append, chars_cons hb, printable_plain hprint hquote hb, bne_iff_ne.mpr hapos]
      · rw [hesc, List.cons_append, List.singleton_append, chars_escape (by decide)]
        rfl
      · rw [hesc, List.cons_append, List.singleton_append, chars_escape (by decide)]
        rfl
      · have hapos : b ≠ 0x27 := by
          rintro rfl
          exact absurd hprint (by decide)
        rw [chars_escape_other hprint, bne_iff_ne.mpr hapos, Bool.true_and]

/-! When no other string has the text. -/

theorem text_append (s t : List UInt8) : text (s ++ t) = text s ++ text t := List.flatMap_append

/-- Bytes that are put out as they are. -/
theorem text_plains {cs : List UInt8} (hcs : ∀ c ∈ cs, printable c = true ∧ plain c = true ∧ c ≠ 0x27)
    {s t : List UInt8} :
    text s = cs ++ t ↔ ∃ s', s = cs ++ s' ∧ text s' = t := by
  induction cs generalizing s with
  | nil => exact ⟨fun h => ⟨s, rfl, h⟩, fun ⟨_, hs, h⟩ => hs ▸ h⟩
  | cons c cs ih =>
    obtain ⟨⟨hprint, hplain, hapos⟩, hcs⟩ := List.forall_mem_cons.mp hcs
    rw [List.cons_append, text_plain hprint hplain hapos]
    constructor
    · rintro ⟨s', rfl, htext⟩
      obtain ⟨s'', rfl, hrest⟩ := (ih hcs).mp htext
      exact ⟨s'', rfl, hrest⟩
    · rintro ⟨s'', rfl, htext⟩
      exact ⟨_, rfl, (ih hcs).mpr ⟨s'', rfl, htext⟩⟩

/-- What is behind the backslash of an escape is put out as it is. -/
theorem escape_other_plain {b : UInt8} (hb : printable b = false) :
    ∃ c cs, escape b = 0x5c :: c :: cs ∧ ∀ x ∈ c :: cs, printable x = true ∧ plain x = true ∧ x ≠ 0x27 := by
  rcases escape_other hb with ⟨c, hc, hesc⟩ | ⟨d₁, d₂, d₃, h₁, h₂, h₃, hesc⟩
  · have hletter : ∀ c ∈ ([0x62, 0x66, 0x6e, 0x72, 0x74] : List UInt8), printable c = true ∧ plain c = true ∧
        c ≠ 0x27 := by decide +kernel
    refine ⟨c, [], hesc, fun x hx => ?_⟩
    rw [List.mem_singleton] at hx
    rw [hx]
    exact hletter c hc
  · refine ⟨_, _, hesc, ?_⟩
    simp only [List.forall_mem_cons, List.not_mem_nil, false_implies, implies_true, and_true]
    exact ⟨by decide, hex_plain (by decide), hex_plain (digit_hex h₁).1, hex_plain (digit_hex h₂).1,
      hex_plain (digit_hex h₃).1⟩

/-- An escape that is taken for a string is put out as it is, too. -/
theorem text_escape {b : UInt8} (hb : printable b = false) : text (escape b) = escape b := by
  obtain ⟨c, cs, hesc, hplain⟩ := escape_other_plain hb
  have htext : text (c :: cs) = (c :: cs) ++ [] := (text_plains hplain).mpr ⟨[], (List.append_nil _).symm, rfl⟩
  rw [List.append_nil] at htext
  rw [hesc, text_cons, htext]
  rfl

/-- No quote and no apostrophe is the first of a text. -/
theorem text_head {s t : List UInt8} {c : UInt8} (h : text s = c :: t) : c ≠ 0x27 ∧ c ≠ 0x22 := by
  cases s with
  | nil => exact nomatch h
  | cons b s =>
    rw [text_cons] at h
    rcases escape_cases b with ⟨-, hapos, hquote, hesc⟩ | ⟨-, hesc⟩ | ⟨-, cs, hesc⟩ <;> rw [hesc] at h <;>
      obtain ⟨rfl, -⟩ := List.cons.inj h
    · exact ⟨hapos, hquote⟩
    · exact ⟨by decide, by decide⟩
    · exact ⟨by decide, by decide⟩

/-- A string of printable bytes that holds no escape of another. -/
def Own (s : List UInt8) : Prop := ∀ b, printable b = false → b ∉ s ∧ ¬ escape b <:+: s

theorem Own.tail {b : UInt8} {s : List UInt8} (h : Own (b :: s)) : Own s := fun c hc =>
  ⟨fun hmem => (h c hc).1 (List.mem_cons_of_mem b hmem),
    fun hin => (h c hc).2 (hin.trans (List.suffix_cons b s).isInfix)⟩

/-- A string of printable bytes without escapes is the only one that is printed as it is. The induction is on its
bytes: the text of another string would start with an escape of one that is not printable. -/
theorem Own.eq_of_text {s : List UInt8} (h : Own s) {t : List UInt8} (ht : text t = text s) : t = s := by
  induction s generalizing t with
  | nil =>
    cases t with
    | nil => rfl
    | cons c t =>
      have hpos := (escape_length c).1
      rw [text_cons, text_nil] at ht
      rw [(List.append_eq_nil_iff.mp ht).1] at hpos
      exact absurd hpos (Nat.lt_irrefl 0)
  | cons b s ih =>
    have hb : printable b = true := by
      by_contra hno
      exact (h b (Bool.not_eq_true _ ▸ hno)).1 List.mem_cons_self
    -- the first byte of `t` is the same, as nothing else is put out as `b` is
    cases t with
    | nil =>
      have hpos := (escape_length b).1
      rw [text_cons, text_nil] at ht
      rw [(List.append_eq_nil_iff.mp ht.symm).1] at hpos
      exact absurd hpos (Nat.lt_irrefl 0)
    | cons c t =>
      rw [text_cons, text_cons] at ht
      rcases escape_cases b with ⟨-, hapos, hquote, hesc⟩ | ⟨hb', hesc⟩ | ⟨hno, -⟩
      · rw [hesc] at ht
        rcases escape_cases c with ⟨-, -, -, hesc'⟩ | ⟨hc, hesc'⟩ | ⟨hc, -⟩
        · rw [hesc'] at ht
          obtain ⟨rfl, hrest⟩ := List.cons.inj ht
          rw [ih h.tail hrest]
        · rw [hesc'] at ht
          obtain ⟨-, ht⟩ := List.cons.inj ht
          have hhead := text_head ht.symm
          exact absurd hc (not_or_intro hhead.1 hhead.2)
        · obtain ⟨x, cs, hesc', hplain⟩ := escape_other_plain hc
          rw [hesc'] at ht
          obtain ⟨rfl, hrest⟩ := List.cons.inj ht
          obtain ⟨s', rfl, -⟩ := (text_plains hplain).mp hrest.symm
          exact absurd ⟨[], s', by rw [hesc']; rfl⟩ (h c hc).2
      · rw [hesc] at ht
        rcases escape_cases c with ⟨-, -, -, hesc'⟩ | ⟨hc, hesc'⟩ | ⟨hc, -⟩
        · rw [hesc'] at ht
          have hhead := text_head (List.cons.inj ht).2
          exact absurd hb' (not_or_intro hhead.1 hhead.2)
        · rw [hesc'] at ht
          obtain ⟨rfl, hrest⟩ := List.cons.inj (List.cons.inj ht).2
          rw [ih h.tail hrest]
        · obtain ⟨x, cs, hesc', hplain⟩ := escape_other_plain hc
          rw [hesc'] at ht
          obtain ⟨rfl, -⟩ := List.cons.inj (List.cons.inj ht).2
          obtain ⟨-, hx, hx'⟩ := hplain x List.mem_cons_self
          rcases hb' with rfl | rfl
          · exact absurd rfl hx'
          · exact absurd hx (by decide)
      · exact absurd hb (by rw [hno]; exact Bool.false_ne_true)

/-- No other string has the text exactly where no byte is escaped by a letter or a number, nor seems to be. -/
theorem text_unique_iff (s : List UInt8) : (∀ t, text t = text s → t = s) ↔ Own s := by
  constructor
  · intro h b hb
    have hlen : 1 < (escape b).length := by
      obtain ⟨c, cs, hesc, -⟩ := escape_other_plain hb
      rw [hesc, List.length_cons, List.length_cons]
      omega
    constructor
    · intro hmem
      obtain ⟨pre, post, rfl⟩ := List.append_of_mem hmem
      have hsame := congrArg List.length (h (pre ++ (escape b ++ post)) (by
        rw [text_append, text_append, text_escape hb, text_append, text_cons]))
      simp only [List.length_append, List.length_cons] at hsame
      omega
    · rintro ⟨pre, post, rfl⟩
      have hsame := congrArg List.length (h (pre ++ b :: post) (by
        rw [text_append, text_append, text_append, text_escape hb, text_cons, List.append_assoc]))
      simp only [List.length_append, List.length_cons] at hsame
      omega
  · exact fun h t => h.eq_of_text

/-- What `print_s` writes for a string, with quotes. -/
def printed (fmt : Nat → List UInt8) (s : List UInt8) : Option (List UInt8) :=
  (print_s fmt (RdbString.empty.set_str (Ptr.lit s) s.length) true).map List.flatten

theorem printed_eq (fmt : Nat → List UInt8) (s : List UInt8) : printed fmt s = some (0x22 :: (text s ++ [0x22])) := by
  have hstr : print_s fmt (RdbString.empty.set_str (Ptr.lit s) s.length) true = print_str s true :=
    congrArg (print_str · true) (Ptr.lit_starts s).take
  obtain ⟨chunks, hrun, hflat⟩ := print_str_written s true
  rw [printed, hstr, hrun, Option.map_some, hflat]
  rfl

theorem printed_inj {fmt : Nat → List UInt8} {s t : List UInt8} : printed fmt s = printed fmt t ↔ text s = text t := by
  rw [printed_eq, printed_eq, Option.some.injEq, List.cons.injEq, List.append_left_inj]
  exact and_iff_right rfl

/-- What is written for a string is JSON if and only if its backslashes and apostrophes make escapes, and is
written for no other string if and only if it has no byte that is escaped by a letter or a number, and nothing
that looks like one. -/
theorem print_s_iff (fmt : Nat → List UInt8) (s : List UInt8) :
    ((∃ t, printed fmt s = some t ∧ Literal t) ↔ kept s = true) ∧
      ((∀ s', printed fmt s' = printed fmt s → s' = s) ↔ Own s) := by
  constructor
  · rw [← chars_text, ← literal_iff, printed_eq]
    exact ⟨fun ⟨_, ht, h⟩ => Option.some.inj ht ▸ h, fun h => ⟨_, rfl, h⟩⟩
  · rw [← text_unique_iff]
    exact forall_congr' fun s' => imp_congr_left printed_inj

/-- An apostrophe is written behind a backslash, and a line feed as the letter n is behind one that is not escaped. -/
theorem print_s_escapes : (¬ ∀ fmt s, ∃ t, printed fmt s = some t ∧ Literal t) ∧
    ¬ ∀ fmt s s', printed fmt s = printed fmt s' → s = s' := by
  constructor
  · intro h
    obtain ⟨t, ht, hlit⟩ := h (fun _ => []) [0x27]
    rw [printed_eq, Option.some.injEq] at ht
    rw [← ht, literal_iff] at hlit
    exact absurd hlit (by decide)
  · intro h
    have hsame := h (fun _ => []) [0x0a] [0x5c, 0x6e] (printed_inj.mpr (by decide))
    exact absurd hsame (by decide)

end rdbparser
