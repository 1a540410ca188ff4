import Rdbparser.GlobCvt.Expr
import Rdbparser.GlobCvt.Room

/-! What is converted of a wildcard, part by part. -/

namespace rdbparser.GlobCvt

/-- Where a part of the wildcard is read: in its place, in which case it may be behind a '*', escaped or not; or
without its first byte, behind a duplicate '*'; or behind a backslash that is the second byte of the part
before. -/
inductive Reading
  | whole (star : Bool)
  | cut
  | behind

/-- A character that is not behind a backslash. -/
def bare (c : UInt8) : Wild UInt8 := if c = 0x2a then .star else if c = 0x3f then .any else .lit c

/-- A character behind a backslash. -/
def escaped (c : UInt8) : Wild UInt8 := if c = 0x2e then .any else .lit c

/-- The items that are put out. -/
def items : Reading → List GlobTok → List (Wild UInt8)
  | _, [] => []
  | .whole _, .plain c _ :: ts => .lit c :: items (.whole false) ts
  | .whole _, .any :: ts => .any :: items (.whole false) ts
  | .whole false, .star :: ts => .star :: items (.whole true) ts
  | .whole true, .star :: ts => items .cut ts
  | .whole _, .esc c _ :: ts => escaped c :: items (.whole (c = 0x2a)) ts
  | .cut, .star :: ts => items (.whole true) ts
  | .cut, .esc c _ :: ts => if c = 0x5c then items .behind ts else bare c :: items (.whole (c = 0x2a)) ts
  | .cut, _ :: ts => items (.whole false) ts
  | .behind, .plain c _ :: ts => escaped c :: items (.whole false) ts
  | .behind, .any :: ts => .lit 0x3f :: items (.whole false) ts
  | .behind, .star :: ts => .lit 0x2a :: items (.whole true) ts
  | .behind, .esc c _ :: ts =>
    .lit 0x5c :: if c = 0x5c then items .behind ts else bare c :: items (.whole (c = 0x2a)) ts

theorem items_chars (r : Reading) (ts : List GlobTok) : ∀ c, .lit c ∈ items r ts → alnum c = true ∨ punct c = true := by
  have hdot : punct 0x2e = true ∧ punct 0x3f = true ∧ punct 0x2a = true ∧ punct 0x5c = true := by decide
  fun_induction items r ts <;> grind [escaped, bare]

variable {pattern : Mem} {patlen k : Nat} {g : GlobCvt} {out : Mem} {maxlen : Option Nat} {t : List UInt8}

theorem Emitted.char_out (h : Emitted out maxlen t g) (c : UInt8) : Emitted out maxlen (t ++ [c]) (g.char_out c) :=
  h.str_out [c]

theorem Emitted.char_out_two (h : Emitted out maxlen t g) (a b : UInt8) :
    Emitted out maxlen (t ++ [a, b]) ((g.char_out a).char_out b) := by
  have hb := (h.char_out a).char_out b
  rwa [List.append_assoc] at hb

/-- A character that is not behind a backslash, nor a duplicate '*'. -/
theorem loop_bare {c : UInt8} (hc : alnum c = true ∨ punct c = true) (h5c : c ≠ 0x5c)
    (hk : k < patlen) (hp : pattern k = c)
    (hstar : c = 0x2a → ¬(0 < k ∧ pattern (k - 1) = 0x2a)) (h : Emitted out maxlen t g) :
    ∃ g', convert_loop pattern patlen k false g = convert_loop pattern patlen (k + 1) false g' ∧
      Emitted out maxlen (t ++ PcreExpr.item_text (bare c)) g' := by
  rw [convert_loop, if_pos hk, hp, if_neg h5c, if_pos (by decide), bare]
  by_cases h2a : c = 0x2a
  · rw [if_pos h2a, if_neg (hstar h2a), if_pos h2a]
    exact ⟨_, rfl, h.str_out _⟩
  · rw [if_neg h2a, if_neg h2a]
    by_cases h3f : c = 0x3f
    · rw [if_pos h3f, if_pos h3f]
      exact ⟨_, rfl, h.char_out _⟩
    · rw [if_neg h3f, if_neg h3f, PcreExpr.item_text]
      by_cases h2e : c = 0x2e
      · rw [if_pos h2e, h2e]
        exact ⟨_, rfl, h.char_out_two _ _⟩
      · have h5b : c ≠ 0x5b := by
          rintro rfl
          exact absurd hc (by decide)
        have hletter : alnum c = true := by
          refine hc.resolve_right fun hpunct => ?_
          simp only [punct, List.contains_cons, List.contains_nil, Bool.or_eq_true, beq_iff_eq] at hpunct
          grind
        rw [if_neg h2e, if_pos hletter, decide_eq_false h5b]
        exact ⟨_, rfl, h.char_out _⟩

/-- A character behind a backslash. -/
theorem loop_escaped {c : UInt8} (hc : alnum c = true ∨ punct c = true) (hk : k + 1 < patlen) (hp : pattern k = 0x5c)
    (hp' : pattern (k + 1) = c) (h : Emitted out maxlen t g) :
    ∃ g', convert_loop pattern patlen k false g = convert_loop pattern patlen (k + 2) false g' ∧
      Emitted out maxlen (t ++ PcreExpr.item_text (escaped c)) g' := by
  rw [convert_loop, if_pos (Nat.lt_of_succ_lt hk), if_pos hp, if_pos hk, hp']
  refine ⟨_, rfl, ?_⟩
  rw [escaped]
  by_cases h2e : c = 0x2e
  · rw [h2e, if_pos rfl, if_neg (by decide)]
    exact h.char_out _
  · rw [if_neg h2e, PcreExpr.item_text]
    by_cases hletter : alnum c = true
    · have hne : ¬(c = 0x5c ∨ c = 0x3f ∨ c = 0x2a) := by
        rintro (rfl | rfl | rfl) <;> exact absurd hletter (by decide)
      rw [if_pos hletter, if_neg hne]
      exact h.char_out _
    · have hpunct := hc.resolve_left hletter
      simp only [punct, List.contains_cons, List.contains_nil, Bool.or_eq_true, beq_iff_eq] at hpunct
      have hmem : c = 0x5c ∨ c = 0x3f ∨ c = 0x2a := by grind
      rw [if_neg hletter, if_pos hmem]
      exact h.char_out_two _ _

/-- A duplicate '*', and the byte behind it. -/
theorem loop_duplicate (g : GlobCvt) (hk : k < patlen) (hp : pattern k = 0x2a)
    (hstar : 0 < k ∧ pattern (k - 1) = 0x2a) :
    convert_loop pattern patlen k false g = convert_loop pattern patlen (k + 2) false g := by
  conv => lhs; rw [convert_loop, if_pos hk, hp, if_neg (by decide), if_pos (by decide), if_pos rfl, if_pos hstar]

theorem loop_end (g : GlobCvt) (hk : patlen ≤ k) : convert_loop pattern patlen k false g = g := by
  rw [convert_loop, if_neg (Nat.not_lt_of_le hk)]

/-- A backslash with nothing behind it. -/
theorem loop_backslash (g : GlobCvt) (hk : k + 1 = patlen) (hp : pattern k = 0x5c) :
    convert_loop pattern patlen k false g = g := by
  rw [convert_loop, if_pos (by omega), if_pos hp, if_neg (by omega), loop_end g (by omega)]

/-- What is in front of the part at `j`. -/
def Reading.Before (pattern : Mem) (j : Nat) : Reading → Prop
  | .whole star => 0 < j ∧ pattern (j - 1) = 0x2a ↔ star = true
  | .cut => True
  | .behind => 0 < j ∧ pattern (j - 1) = 0x5c

/-- Where the loop is. -/
def Reading.index (j : Nat) : Reading → Nat
  | .whole _ => j
  | .cut => j + 1
  | .behind => j - 1

/-- What is behind a part of one byte. -/
theorem before_whole {j : Nat} {c : UInt8} {star : Bool} (hp : pattern j = c) (hstar : c = 0x2a ↔ star = true) :
    (Reading.whole star).Before pattern (j + 1) := by
  change 0 < j + 1 ∧ pattern j = 0x2a ↔ star = true
  rw [hp, ← hstar]
  exact and_iff_right (Nat.succ_pos j)

theorem plain_ne {c : UInt8} (h : alnum c = true ∨ c = 0x2e) : c ≠ 0x5c ∧ c ≠ 0x2a ∧ c ≠ 0x3f := by
  refine ⟨?_, ?_, ?_⟩ <;> rintro rfl <;> exact absurd h (by decide)

/-- What is put out for a byte. -/
def Reading.text (c : UInt8) : Reading → List UInt8
  | .whole _ => PcreExpr.item_text (bare c)
  | .cut => []
  | .behind => PcreExpr.item_text (escaped c)

/-- One byte of the pattern that stands for itself: what the loop puts out for it, and how it goes on. -/
theorem loop_byte {r : Reading} {j : Nat} {c : UInt8} (hc : alnum c = true ∨ punct c = true)
    (h5c : c = 0x5c → r = .behind) (hj : j < patlen)
    (hp : pattern j = c) (hr : r.Before pattern j) (hstar : r = .whole true → c ≠ 0x2a) (h : Emitted out maxlen t g) :
    ∃ g', convert_loop pattern patlen (r.index j) false g = convert_loop pattern patlen (j + 1) false g' ∧
      Emitted out maxlen (t ++ r.text c) g' := by
  cases r with
  | whole star =>
    refine loop_bare hc (fun h => nomatch h5c h) hj hp (fun h2a hdup => ?_) h
    obtain rfl : star = true := hr.mp hdup
    exact hstar rfl h2a
  | cut => exact ⟨g, rfl, (List.append_nil t).symm ▸ h⟩
  | behind =>
    obtain ⟨hpos, hbehind⟩ := hr
    obtain ⟨k, rfl⟩ : ∃ k, j = k + 1 := ⟨j - 1, (Nat.sub_add_cancel hpos).symm⟩
    exact loop_escaped hc hj hbehind hp h

/-- The loop over the tokens of a pattern, from wherever the one before has left it, puts out the items that they are
read as. -/
theorem loop_items (ts : List GlobTok) (r : Reading) {j : Nat} (hp : (pattern.add j).Starts (ts.flatMap GlobTok.bytes))
    (hlen : patlen = j + (ts.flatMap GlobTok.bytes).length) (hr : r.Before pattern j) (h : Emitted out maxlen t g) :
    Emitted out maxlen (t ++ (items r ts).flatMap PcreExpr.item_text)
      (convert_loop pattern patlen (r.index j) false g) := by
  induction ts generalizing r j t g with
  | nil =>
    have hitems : items r [] = [] := by cases r <;> rfl
    have hloop : convert_loop pattern patlen (r.index j) false g = g := by
      cases r with
      | whole star => exact loop_end g (Nat.le_of_eq hlen)
      | cut => exact loop_end g (Nat.le_succ_of_le (Nat.le_of_eq hlen))
      | behind => exact loop_backslash g ((Nat.sub_add_cancel hr.1).trans hlen.symm) hr.2
    rw [hitems, hloop, List.flatMap_nil, List.append_nil]
    exact h
  | cons x ts ih =>
    rw [List.flatMap_cons, Mem.starts_append, Mem.add_add] at hp
    rw [List.flatMap_cons, List.length_append] at hlen
    obtain ⟨hx, hp⟩ := hp
    -- behind a part of one byte
    have hbyte : ∀ {c : UInt8} {star : Bool}, x.bytes = [c] → (alnum c = true ∨ punct c = true) → c ≠ 0x5c →
        (c = 0x2a ↔ star = true) →
        (r = .whole true → c ≠ 0x2a) → (items r (x :: ts)).flatMap PcreExpr.item_text =
          r.text c ++ (items (.whole star) ts).flatMap PcreExpr.item_text →
        Emitted out maxlen (t ++ (items r (x :: ts)).flatMap PcreExpr.item_text)
          (convert_loop pattern patlen (r.index j) false g) := by
      intro c star hbytes hc h5c hstar hdup hitems
      rw [hbytes] at hx hp hlen
      have hj : pattern j = c := (Mem.starts_cons.mp hx).1
      rw [List.length_singleton] at hp hlen
      obtain ⟨g', hloop, hput⟩ := loop_byte hc (fun h => absurd h h5c) (show j < patlen by omega) hj hr hdup h
      rw [hitems, hloop, ← List.append_assoc]
      exact ih (.whole star) hp (by omega) (before_whole hj hstar) hput
    cases x with
    | plain c hc =>
      obtain ⟨h5c, h2a, h3f⟩ := plain_ne hc
      refine hbyte rfl (hc.imp_right fun h => by rw [h]; decide) h5c (iff_of_false h2a Bool.false_ne_true)
        (fun _ => h2a) ?_
      cases r with
      | whole star => rw [items, List.flatMap_cons, Reading.text, bare, if_neg h2a, if_neg h3f]
      | cut => rfl
      | behind => rfl
    | any =>
      refine hbyte rfl (.inr (by decide)) (by decide) (iff_of_false (by decide) Bool.false_ne_true)
        (fun _ => by decide) ?_
      cases r <;> rfl
    | star =>
      by_cases hdup : r = .whole true
      · subst hdup
        obtain ⟨hpos, hprev⟩ := hr.mpr rfl
        have hj : pattern j = 0x2a := (Mem.starts_cons.mp hx).1
        have hloop := loop_duplicate g
          (show j < patlen by rw [hlen]; exact Nat.lt_add_of_pos_right (Nat.add_pos_left Nat.one_pos _))
          hj ⟨hpos, hprev⟩
        change Emitted _ _ _ (convert_loop pattern patlen j false g)
        rw [hloop]
        exact ih .cut hp (hlen.trans (Nat.add_assoc _ _ _).symm) trivial h
      · refine hbyte rfl (.inr (by decide)) (by decide) (iff_of_true rfl rfl) (fun h => absurd h hdup) ?_
        cases r with
        | whole star =>
          cases star with
          | true => exact absurd rfl hdup
          | false => rfl
        | cut => rfl
        | behind => rfl
    | esc c hc =>
      have h5c : pattern j = 0x5c := (Mem.starts_cons.mp hx).1
      have hc' : pattern (j + 1) = c := (Mem.starts_cons.mp (Mem.starts_cons.mp hx).2).1
      have hlen := hlen.trans (Nat.add_assoc _ _ _).symm
      have hlt : j + 1 < patlen := hlen ▸ Nat.lt_add_right _ (Nat.lt_succ_self (j + 1))
      have hwhole : (Reading.whole (c = 0x2a)).Before pattern (j + 2) := before_whole hc' decide_eq_true_iff.symm
      -- without the backslash
      have hbare : ∀ {s : List UInt8} {g : GlobCvt}, Emitted out maxlen s g →
          Emitted out maxlen (s ++ (if c = 0x5c then items .behind ts else bare c ::
            items (.whole (c = 0x2a)) ts).flatMap PcreExpr.item_text)
            (convert_loop pattern patlen (j + 1) false g) := by
        intro s g h
        by_cases hback : c = 0x5c
        · rw [if_pos hback]
          exact ih .behind hp hlen ⟨Nat.succ_pos _, hc'.trans hback⟩ h
        · obtain ⟨g', hloop, hput⟩ :=
            loop_bare hc hback hlt hc' (fun _ hdup => absurd (h5c.symm.trans hdup.2) (by decide)) h
          rw [if_neg hback, hloop, List.flatMap_cons, ← List.append_assoc]
          exact ih (.whole (c = 0x2a)) hp hlen hwhole hput
      cases r with
      | whole star =>
        obtain ⟨g', hloop, hput⟩ := loop_escaped hc hlt h5c hc' h
        change Emitted _ _ _ (convert_loop pattern patlen j false g)
        rw [hloop, items, List.flatMap_cons, ← List.append_assoc]
        exact ih (.whole (c = 0x2a)) hp hlen hwhole hput
      | cut => exact hbare h
      | behind =>
        obtain ⟨g', hloop, hput⟩ := loop_byte (.inr (by decide)) (fun _ => rfl) (Nat.lt_of_succ_lt hlt) h5c hr
          (fun h => nomatch h) h
        rw [hloop, items, List.flatMap_cons, ← List.append_assoc]
        exact hbare hput

/-- The wildcard begins with a '*'. -/
def leading : List GlobTok → Bool
  | .star :: _ => true
  | _ => false

/-- An escaped backslash. -/
def backslash : GlobTok → Bool
  | .esc c _ => c = 0x5c
  | _ => false

/-- The wildcard ends with a '*' that is not behind a backslash. -/
def trailing (ts : List GlobTok) : Bool :=
  match ts.reverse with
  | .star :: x :: _ => ! backslash x
  | _ => false

/-- What is in front of it. -/
def body (ts : List GlobTok) : List GlobTok := if trailing ts then ts.dropLast else ts

/-- The expression for a wildcard. -/
def expr (ts : List GlobTok) : PcreExpr :=
  { anchor_start := ! ts.isEmpty && ! leading ts
    items := items (.whole (leading ts)) (if leading ts then (body ts).tail else body ts)
    anchor_end := ! ts.isEmpty && ! trailing ts
    chars := items_chars _ _ }

/-- A trailing star stands behind a token that is no backslash. -/
theorem trailing_split {ts : List GlobTok} (h : trailing ts = true) :
    ∃ us x, ts = us ++ [x, .star] ∧ backslash x = false := by
  unfold trailing at h
  split at h
  · rename_i x us hrev
    refine ⟨us.reverse, x, ?_, by simpa using h⟩
    rw [← List.reverse_reverse ts, hrev]
    simp
  · exact absurd h (by decide)

theorem body_append (ts : List GlobTok) : body ts ++ (if trailing ts then [.star] else []) = ts := by
  rw [body]
  by_cases h : trailing ts = true
  · obtain ⟨us, x, rfl, -⟩ := trailing_split h
    rw [if_pos h, if_pos h]
    simp
  · rw [if_neg h, if_neg h, List.append_nil]

/-- The last byte of a part. -/
theorem last_byte (x : GlobTok) : ∃ bs b, x.bytes = bs ++ [b] ∧ (b = 0x5c ↔ backslash x = true) ∧
    (b = 0x2a ↔ x = .star ∨ bs = [0x5c] ∧ ∃ h, x = .esc 0x2a h) := by
  cases x with
  | plain c h =>
    obtain ⟨h5c, h2a, -⟩ := plain_ne h
    exact ⟨[], c, rfl, iff_of_false h5c Bool.false_ne_true, iff_of_false h2a (by simp)⟩
  | any => exact ⟨[], 0x3f, rfl, by decide, iff_of_false (by decide) (by simp)⟩
  | star => exact ⟨[], 0x2a, rfl, by decide, iff_of_true rfl (.inl rfl)⟩
  | esc c h =>
    refine ⟨[0x5c], c, rfl, decide_eq_true_iff.symm, ?_⟩
    constructor
    · rintro rfl
      exact .inr ⟨rfl, h, rfl⟩
    · rintro (h | ⟨-, h, hx⟩)
      · exact nomatch h
      · exact (GlobTok.esc.inj hx)

theorem starts_last {bs : List UInt8} {b : UInt8} (h : pattern.Starts (bs ++ [b])) : pattern bs.length = b :=
  (Mem.starts_cons.mp (Mem.starts_append.mp h).2).1

/-- The test for a star at the end, on the bytes of the pattern, is that of its last token: a star behind a backslash
is not one. -/
theorem trail_iff {ts : List GlobTok} (hne : ts ≠ []) (hp : pattern.Starts (ts.flatMap GlobTok.bytes))
    (hlen : patlen = (ts.flatMap GlobTok.bytes).length) :
    (if pattern 0 ≠ 0x2a then 0 else 1) < patlen ∧ pattern (patlen - 1) = 0x2a ∧
      (patlen = 1 ∨ pattern (patlen - 2) ≠ 0x5c) ↔
      trailing ts = true := by
  obtain ⟨us, y, rfl⟩ : ∃ us y, ts = us ++ [y] := ⟨_, _, (List.dropLast_append_getLast hne).symm⟩
  obtain ⟨bs, b, hy, -, hstar⟩ := last_byte y
  rw [List.flatMap_append, List.flatMap_singleton, hy, ← List.append_assoc] at hp hlen
  have hlast := starts_last hp
  rw [List.length_append, List.length_singleton] at hlen
  have hprev : patlen - 1 = (us.flatMap GlobTok.bytes ++ bs).length := by omega
  rw [hprev, hlast]
  by_cases hy' : y = .star
  · subst hy'
    obtain ⟨rfl, rfl⟩ : bs = [] ∧ b = 0x2a := by simpa [GlobTok.bytes, List.singleton_eq_append_iff] using hy
    rw [List.append_nil] at hp hlen hprev hlast
    by_cases hus : us = []
    · subst hus
      have hfirst : pattern 0 = 0x2a := hlast
      have hone : patlen = 1 := hlen
      rw [if_neg (not_not.mpr hfirst), hone]
      exact iff_of_false (fun h => absurd h.1 (by decide)) (by decide)
    · obtain ⟨vs, w, rfl⟩ : ∃ vs w, us = vs ++ [w] := ⟨_, _, (List.dropLast_append_getLast hus).symm⟩
      obtain ⟨cs, d, hw, hback, -⟩ := last_byte w
      have htrail : trailing (vs ++ [w] ++ [.star]) = ! backslash w := by simp [trailing]
      rw [Mem.starts_append, List.flatMap_append, List.flatMap_singleton, hw, ← List.append_assoc] at hp
      rw [List.flatMap_append, List.flatMap_singleton, hw, ← List.append_assoc, List.length_append,
        List.length_singleton] at hlen
      have hbehind := starts_last hp.1
      rw [htrail, show patlen - 2 = (vs.flatMap GlobTok.bytes ++ cs).length by omega, hbehind,
        Bool.not_eq_true']
      have hk : (if pattern 0 ≠ 0x2a then 0 else 1) < patlen := by
        split <;> omega
      have htwo : patlen ≠ 1 := by omega
      have hd : d ≠ 0x5c ↔ backslash w = false := by rw [ne_eq, hback, Bool.not_eq_true]
      exact ⟨fun h => hd.mp (h.2.2.resolve_left htwo), fun h => ⟨hk, rfl, .inr (hd.mpr h)⟩⟩
  · have htrail : trailing (us ++ [y]) = false := by
      rw [trailing, List.reverse_append, List.reverse_singleton]
      cases y with
      | star => exact absurd rfl hy'
      | plain _ _ => rfl
      | any => rfl
      | esc _ _ => rfl
    rw [htrail]
    refine iff_of_false ?_ Bool.false_ne_true
    rintro ⟨-, hb, hpos⟩
    obtain ⟨rfl, -⟩ := (hstar.mp hb).resolve_left hy'
    rw [Mem.starts_append] at hp
    have hback := starts_last hp.1
    rw [List.length_append, List.length_singleton] at hlen
    rcases hpos with hone | hne
    · omega
    · exact hne (by rw [hlen]; exact hback)

/-- The test for a star at the front is that of the first token. -/
theorem leading_iff {ts : List GlobTok} (hne : ts ≠ []) (hp : pattern.Starts (ts.flatMap GlobTok.bytes)) :
    pattern 0 = 0x2a ↔ leading ts = true := by
  obtain ⟨x, ts, rfl⟩ := List.exists_cons_of_ne_nil hne
  rw [List.flatMap_cons, Mem.starts_append] at hp
  cases x with
  | plain c h =>
    have h0 : pattern 0 = c := (Mem.starts_cons.mp hp.1).1
    exact iff_of_false (h0 ▸ (plain_ne h).2.1) Bool.false_ne_true
  | any =>
    have h0 : pattern 0 = 0x3f := (Mem.starts_cons.mp hp.1).1
    exact iff_of_false (h0 ▸ by decide) Bool.false_ne_true
  | star => exact iff_of_true (Mem.starts_cons.mp hp.1).1 rfl
  | esc c h =>
    have h0 : pattern 0 = 0x5c := (Mem.starts_cons.mp hp.1).1
    exact iff_of_false (h0 ▸ by decide) Bool.false_ne_true

/-- A pattern that starts with a star has it in front of its body. -/
theorem leading_body {ts : List GlobTok} (h : leading ts = true) : body ts = .star :: (body ts).tail := by
  have happend := body_append ts
  cases hbody : body ts with
  | nil =>
    rw [hbody] at happend
    by_cases htrail : trailing ts = true
    · rw [if_pos htrail] at happend
      exact absurd htrail (by rw [← happend]; decide)
    · rw [if_neg htrail] at happend
      exact absurd h (by rw [← happend]; decide)
  | cons x us =>
    rw [hbody, List.cons_append] at happend
    rw [← happend] at h
    cases x with
    | star => rfl
    | plain _ _ => exact absurd h Bool.false_ne_true
    | any => exact absurd h Bool.false_ne_true
    | esc _ _ => exact absurd h Bool.false_ne_true

theorem expr_items (ts : List GlobTok) :
    (expr ts).items = items (.whole (leading ts)) (if leading ts then (body ts).tail else body ts) := rfl

/-- The loop begins behind a '*' that the wildcard begins with. -/
theorem loop_body {ts : List GlobTok} (hp : pattern.Starts (ts.flatMap GlobTok.bytes))
    (hlen : patlen = (ts.flatMap GlobTok.bytes).length)
    (hfirst : pattern 0 = 0x2a ↔ leading ts = true) (h : Emitted out maxlen t g) :
    Emitted out maxlen (t ++ (expr ts).items.flatMap PcreExpr.item_text)
      (convert_loop pattern (if trailing ts then patlen - 1 else patlen)
        (if pattern 0 ≠ 0x2a then 0 else 1) false g) := by
  have hbytes : ts.flatMap GlobTok.bytes = (body ts).flatMap GlobTok.bytes ++ if trailing ts then [0x2a] else [] := by
    conv => lhs; rw [← body_append ts, List.flatMap_append]
    split <;> rfl
  have hbody : (if trailing ts then patlen - 1 else patlen) = ((body ts).flatMap GlobTok.bytes).length := by
    rw [hlen, hbytes, List.length_append]
    split <;> rfl
  rw [hbytes, Mem.starts_append] at hp
  by_cases hlead : leading ts = true
  · have hcons := leading_body hlead
    rw [hcons, List.flatMap_cons] at hbody hp
    have hitems : (expr ts).items = items (.whole true) (body ts).tail := by
      rw [expr_items, hlead]
      rfl
    rw [if_neg (not_not.mpr (hfirst.mpr hlead)), hbody, hitems]
    exact loop_items (body ts).tail (.whole true) (j := 1) (Mem.starts_append.mp hp.1).2 List.length_append
      (iff_of_true ⟨Nat.one_pos, hfirst.mpr hlead⟩ rfl) h
  · have hitems : (expr ts).items = items (.whole false) (body ts) := by
      rw [expr_items, Bool.eq_false_of_not_eq_true hlead]
      rfl
    rw [if_pos (fun h => hlead (hfirst.mp h)), hbody, hitems]
    exact loop_items (body ts) (.whole false) (j := 0) ((Mem.add_zero pattern).symm ▸ hp.1) (Nat.zero_add _).symm
      (iff_of_false (fun h => absurd h.1 (by decide)) Bool.false_ne_true) h

/-- A wildcard is converted to its expression. -/
theorem convert_glob_expr {ts : List GlobTok} (hp : pattern.Starts (ts.flatMap GlobTok.bytes))
    (hlen : patlen = (ts.flatMap GlobTok.bytes).length) (h : Emitted out maxlen [] g) :
    Emitted out maxlen (expr ts).text (convert_glob g pattern patlen true false).2 := by
  have hfront := h.str_out newlines
  rw [List.nil_append] at hfront
  by_cases hne : ts = []
  · subst hne
    rw [hlen]
    exact hfront
  · have hpos : 0 < patlen := by
      obtain ⟨x, us, rfl⟩ := List.exists_cons_of_ne_nil hne
      obtain ⟨bs, b, hx, -⟩ := last_byte x
      rw [hlen, List.flatMap_cons, hx, List.length_append, List.length_append]
      exact Nat.add_pos_left (Nat.succ_pos _) _
    have hfirst := leading_iff hne hp
    have htrail : decide ((if pattern 0 ≠ 0x2a then 0 else 1) < patlen ∧ pattern (patlen - 1) = 0x2a ∧
        (patlen = 1 ∨ pattern (patlen - 2) ≠ 0x5c)) =
        trailing ts := by
      rw [Bool.eq_iff_iff, decide_eq_true_iff]
      exact trail_iff hne hp hlen
    have hisEmpty : ts.isEmpty = false := by simpa using hne
    have hanchor : Emitted out maxlen (newlines ++ if (expr ts).anchor_start then at_start else [])
        (if pattern 0 ≠ 0x2a ∧ true = true then (g.str_out newlines).str_out at_start else g.str_out newlines) := by
      have hstart : (expr ts).anchor_start = ! leading ts := by rw [expr, hisEmpty]; rfl
      rw [hstart]
      by_cases hlead : leading ts = true
      · rw [hlead, if_neg (show ¬(!true) = true by decide), if_neg (fun h => h.1 (hfirst.mpr hlead)), List.append_nil]
        exact hfront
      · rw [Bool.eq_false_of_not_eq_true hlead, if_pos (show (!false) = true from rfl),
          if_pos ⟨fun h => hlead (hfirst.mp h), rfl⟩]
        exact hfront.str_out _
    have hloop := loop_body hp hlen hfirst hanchor
    have hend : (expr ts).anchor_end = ! trailing ts := by rw [expr, hisEmpty]; rfl
    rw [convert_glob, if_neg Bool.false_ne_true]
    dsimp only
    rw [if_pos hpos, htrail, PcreExpr.text, hend, ← List.append_assoc, ← List.append_assoc]
    by_cases hfin : (! trailing ts) = true
    · rw [if_pos hfin, if_pos hfin]
      exact hloop.str_out _
    · rw [if_neg hfin, if_neg hfin, List.append_nil]
      exact hloop

end rdbparser.GlobCvt
