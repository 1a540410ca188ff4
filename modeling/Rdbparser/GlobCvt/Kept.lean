import Rdbparser.GlobCvt.Emit

/-! Wildcards of which the meaning is kept. -/

namespace rdbparser.GlobCvt

open GlobTok

/-- The stars of the wildcards in a row: there is none, or the expression has one too, or it has lost them so far. -/
inductive Stars
  | none
  | kept
  | lost
  deriving DecidableEq

namespace Stars

/-- A duplicate '*' is not put out. -/
def dup : Stars → Stars
  | none => lost
  | kept => kept
  | lost => lost

/-- What they are in the wildcard, and in the expression. -/
def glob : Stars → List (Wild UInt8)
  | none => []
  | _ => [.star]

def expr : Stars → List (Wild UInt8)
  | kept => [.star]
  | _ => []

end Stars

/-- The meaning is kept of what is read from here on; `fin` is whether a '*' is behind it all. -/
def faithful (fin : Bool) : Reading → Stars → List GlobTok → Bool
  | .behind, _, [] => false
  | _, st, [] => fin || st ≠ .lost
  | .whole _, st, .plain _ _ :: ts => st ≠ .lost && faithful fin (.whole false) .none ts
  | .whole _, st, .any :: ts => faithful fin (.whole false) st ts
  | .whole false, _, .star :: ts => faithful fin (.whole true) .kept ts
  | .whole true, st, .star :: ts => faithful fin .cut st.dup ts
  | .whole _, st, .esc c _ :: ts => st ≠ .lost && c ≠ 0x2e && faithful fin (.whole (c = 0x2a)) .none ts
  | .cut, st, .star :: ts => faithful fin (.whole true) st ts
  | .cut, st, .esc c _ :: ts =>
    st ≠ .lost && if c = 0x5c then faithful fin .behind .none ts else c ≠ 0x2a && c ≠ 0x3f &&
      faithful fin (.whole false) .none ts
  | .behind, _, .esc c _ :: ts =>
    if c = 0x5c then faithful fin .behind .none ts else c ≠ 0x2a && c ≠ 0x3f && faithful fin (.whole false) .none ts
  | _, _, _ => false

variable {ts : List GlobTok} {st : Stars} {xs ys : List (Wild UInt8)} {c : UInt8}

/-- Behind stars, a letter that both have is the same if and only if the expression has not lost them, and the rest is
the same. -/
theorem lit_step : Wild.norm (st.glob ++ .lit c :: xs) = Wild.norm (st.expr ++ .lit c :: ys) ↔
    st ≠ .lost ∧ Wild.norm xs = Wild.norm ys := by
  have hinj : Wild.norm (.lit c :: xs) = Wild.norm (.lit c :: ys) ↔ Wild.norm xs = Wild.norm ys :=
    ⟨fun h => (List.cons.inj h).2, fun h => congrArg (List.cons (Wild.lit c)) h⟩
  cases st with
  | none => exact hinj.trans (and_iff_right (by decide)).symm
  | kept =>
    have hstar : Wild.norm (.star :: .lit c :: xs) = Wild.norm (.star :: .lit c :: ys) ↔ Wild.norm xs = Wild.norm ys :=
      ⟨fun h => (List.cons.inj (List.cons.inj h).2).2, fun h => by
        rw [Wild.norm_star_lit, Wild.norm_star_lit, h]⟩
    exact hstar.trans (and_iff_right (by decide)).symm
  | lost =>
    refine iff_of_false (fun h => ?_) fun h => h.1 rfl
    exact absurd (List.cons.inj h).1 (by simp)

/-- A '?' changes places with the stars in front of it, so nothing is decided there. -/
theorem any_step : Wild.norm (st.glob ++ .any :: xs) = Wild.norm (st.expr ++ .any :: ys) ↔
    Wild.norm (st.glob ++ xs) = Wild.norm (st.expr ++ ys) := by
  cases st with
  | none => exact Wild.norm_any_inj
  | kept =>
    change Wild.norm (.star :: .any :: xs) = Wild.norm (.star :: .any :: ys) ↔ _
    rw [Wild.norm_star_any, Wild.norm_star_any]
    exact Wild.norm_any_inj
  | lost =>
    change Wild.norm (.star :: .any :: xs) = _ ↔ _
    rw [Wild.norm_star_any]
    exact Wild.norm_any_inj

theorem glob_star : Wild.norm (st.glob ++ .star :: xs) = Wild.norm (.star :: xs) := by
  cases st with
  | none => rfl
  | kept => exact Wild.norm_star_star xs
  | lost => exact Wild.norm_star_star xs

theorem expr_star : Wild.norm (st.expr ++ .star :: xs) = Wild.norm (.star :: xs) := by
  cases st with
  | none => rfl
  | kept => exact Wild.norm_star_star xs
  | lost => rfl

theorem glob_letters : Wild.letters (st.glob ++ xs) = Wild.letters xs := by cases st <;> rfl

theorem expr_letters : Wild.letters (st.expr ++ xs) = Wild.letters xs := by cases st <;> rfl

/-- Another letter in front. -/
theorem norm_ne_of_letters (h : Wild.letters xs ≠ Wild.letters ys) :
    Wild.norm (st.glob ++ xs) ≠ Wild.norm (st.expr ++ ys) := by
  intro hnorm
  have hletters := Wild.letters_of_norm hnorm
  rw [glob_letters, expr_letters] at hletters
  exact h hletters

/-- What is behind it all. -/
def final (fin : Bool) : List (Wild UInt8) := if fin then [.star] else []

theorem final_letters (fin : Bool) : Wild.letters (xs ++ final fin) = Wild.letters xs := by
  rw [Wild.letters_append]
  cases fin <;> exact List.append_nil _

theorem letters_cons (x : Wild UInt8) (xs : List (Wild UInt8)) :
    (Wild.letters xs).length ≤ (Wild.letters (x :: xs)).length ∧
    (Wild.letters (x :: xs)).length ≤ (Wild.letters xs).length + 1 := by
  cases x with
  | star => exact ⟨Nat.le_refl _, Nat.le_succ _⟩
  | lit a => exact ⟨Nat.le_succ _, Nat.le_refl _⟩
  | any => exact ⟨Nat.le_succ _, Nat.le_refl _⟩

/-- The backslash that is not read yet. -/
def pending : Reading → Nat
  | .behind => 1
  | _ => 0

/-- No letter is put out that is not in the wildcard. -/
theorem letters_le (r : Reading) (ts : List GlobTok) :
    (Wild.letters (items r ts)).length ≤ (Wild.letters (ts.map item)).length + pending r := by
  fun_induction items r ts <;> grind [letters_cons, Wild.letters, item, pending]

/-- A character that has lost its backslash. -/
theorem bare_step (fin : Bool) :
    Wild.norm (st.glob ++ .lit c :: (ts.map item ++ final fin)) =
        Wild.norm (st.expr ++ bare c :: (items (.whole (c = 0x2a)) ts ++ final fin)) ↔
      st ≠ .lost ∧ (c ≠ 0x2a ∧ c ≠ 0x3f ∧
        Wild.norm (ts.map item ++ final fin) = Wild.norm (items (.whole false) ts ++ final fin)) := by
  by_cases h2a : c = 0x2a
  · refine iff_of_false (norm_ne_of_letters fun h => ?_) fun h => h.2.1 h2a
    have hle := letters_le (.whole (c = 0x2a)) ts
    have hlen := congrArg List.length h
    rw [bare, if_pos h2a] at hlen
    change (Wild.letters (ts.map item ++ final fin)).length + 1 =
      (Wild.letters (items _ ts ++ final fin)).length at hlen
    rw [final_letters, final_letters] at hlen
    change _ ≤ _ + 0 at hle
    omega
  · rw [bare, if_neg h2a, decide_eq_false h2a]
    by_cases h3f : c = 0x3f
    · rw [if_pos h3f]
      refine iff_of_false (norm_ne_of_letters fun h => ?_) fun h => h.2.2.1 h3f
      exact absurd (List.cons.inj h).1 (by simp)
    · rw [if_neg h3f, lit_step]
      exact and_congr_right fun _ => ⟨fun h => ⟨h2a, h3f, h⟩, fun h => h.2.2⟩

/-- What is behind a backslash is not read as a star. -/
theorem behind_cons (t : GlobTok) (ts : List GlobTok) : ∃ x ys, items .behind (t :: ts) = x :: ys ∧ x ≠ .star := by
  cases t with
  | plain c h =>
    refine ⟨escaped c, _, rfl, ?_⟩
    rw [escaped]
    split <;> simp
  | any => exact ⟨_, _, rfl, by simp⟩
  | star => exact ⟨_, _, rfl, by simp⟩
  | esc c h => exact ⟨_, _, rfl, by simp⟩

/-- What is behind a backslash that is not read yet. -/
theorem behind_step (fin : Bool) : Wild.norm (st.glob ++ .lit 0x5c :: (ts.map item ++ final fin)) =
      Wild.norm (st.expr ++ (items .behind ts ++ final fin)) ↔
    st ≠ .lost ∧ Wild.norm (.lit 0x5c :: (ts.map item ++ final fin)) = Wild.norm (items .behind ts ++ final fin) := by
  by_cases h : ∃ ys, items .behind ts ++ final fin = .lit 0x5c :: ys
  · obtain ⟨ys, hys⟩ := h
    rw [hys, lit_step]
    exact and_congr_right fun _ => ⟨fun h => congrArg (List.cons (Wild.lit 0x5c)) h, fun h => (List.cons.inj h).2⟩
  · have hne : Wild.letters (.lit 0x5c :: (ts.map item ++ final fin)) ≠
        Wild.letters (items .behind ts ++ final fin) := by
      intro heq
      cases ts with
      | nil =>
        have hnil : Wild.letters (items .behind [] ++ final fin) = [] := final_letters fin
        exact absurd (heq.trans hnil) (List.cons_ne_nil _ _)
      | cons t ts =>
        obtain ⟨x, ys, hys, hx⟩ := behind_cons t ts
        rw [hys] at heq h
        cases x with
        | star => exact hx rfl
        | any => exact absurd (List.cons.inj heq).1 (by simp)
        | lit d =>
          have hd : Wild.lit 0x5c = Wild.lit d := (List.cons.inj heq).1
          exact h ⟨ys ++ final fin, by rw [← hd]; rfl⟩
    refine iff_of_false (norm_ne_of_letters hne) fun hnorm => ?_
    exact hne (Wild.letters_of_norm hnorm.2)

/-- What is in the wildcard that is not read yet, or is put out already. -/
def Reading.glob (st : Stars) : Reading → List (Wild UInt8)
  | .behind => [.lit 0x5c]
  | _ => st.glob

def Reading.expr (st : Stars) : Reading → List (Wild UInt8)
  | .behind => []
  | _ => st.expr

/-- At the end what is left are the stars, and the one that the expression has behind it all or not. -/
theorem nil_step (fin : Bool) (r : Reading) (st : Stars) :
    Wild.norm (r.glob st ++ final fin) = Wild.norm (r.expr st ++ final fin) ↔ faithful fin r st [] = true := by
  have hstep : Wild.norm (st.glob ++ final fin) = Wild.norm (st.expr ++ final fin) ↔
      (fin || decide (st ≠ .lost)) = true := by
    cases fin <;> cases st <;> decide
  cases r with
  | whole star => exact hstep
  | cut => exact hstep
  | behind =>
    refine iff_of_false (fun h => ?_) Bool.false_ne_true
    have hletters := Wild.letters_of_norm h
    cases fin <;> exact absurd hletters (List.cons_ne_nil _ _)

/-- A letter of the wildcard that is not put out is missed. -/
theorem fewer_letters (fin : Bool) (st : Stars) (xs : List (Wild UInt8)) {r : Reading} {n : Nat}
    {ys : List (Wild UInt8)}
    (hxs : (Wild.letters (ts.map item)).length + pending r + n < (Wild.letters xs).length)
    (hys : (Wild.letters ys).length ≤ (Wild.letters (items r ts)).length + n) :
    Wild.norm (st.glob ++ (xs ++ final fin)) ≠ Wild.norm (st.expr ++ (ys ++ final fin)) := by
  refine norm_ne_of_letters fun h => ?_
  rw [final_letters, final_letters] at h
  have hle := letters_le r ts
  rw [h] at hxs
  omega

/-- The patterns are the same when they are tidy, if and only if the scan says so. -/
theorem norm_iff_faithful (fin : Bool) (r : Reading) (st : Stars) (hst : r = .cut → st ≠ .none) (ts : List GlobTok) :
    Wild.norm (r.glob st ++ (ts.map item ++ final fin)) = Wild.norm (r.expr st ++ (items r ts ++ final fin)) ↔
      faithful fin r st ts = true := by
  induction ts generalizing r st with
  | nil =>
    have hitems : items r [] = [] := by cases r <;> rfl
    rw [hitems]
    exact nil_step fin r st
  | cons t ts ih =>
    have hletter := ih (.whole false) .none Reading.noConfusion
    cases t with
    | plain c h =>
      cases r with
      | whole star =>
        rw [faithful, Bool.and_eq_true, decide_eq_true_iff]
        exact lit_step.trans (and_congr_right fun _ => hletter)
      | cut =>
        refine iff_of_false ?_ Bool.false_ne_true
        exact fewer_letters fin _ _ (r := .whole false) (n := 0) (Nat.lt_succ_self _) (Nat.le_refl _)
      | behind =>
        refine iff_of_false ?_ Bool.false_ne_true
        exact fewer_letters fin .none (.lit 0x5c :: .lit c :: ts.map item) (r := .whole false) (n := 1)
          (Nat.lt_succ_self _)
          (letters_cons (escaped c) _).2
    | any =>
      cases r with
      | whole star =>
        rw [faithful]
        exact any_step.trans (ih (.whole false) st Reading.noConfusion)
      | cut =>
        refine iff_of_false ?_ Bool.false_ne_true
        exact fewer_letters fin _ _ (r := .whole false) (n := 0) (Nat.lt_succ_self _) (Nat.le_refl _)
      | behind =>
        refine iff_of_false ?_ Bool.false_ne_true
        exact fewer_letters fin .none (.lit 0x5c :: .any :: ts.map item) (r := .whole false) (n := 1)
          (Nat.lt_succ_self _)
          (letters_cons (.lit 0x3f) _).2
    | star =>
      cases r with
      | whole star =>
        cases star with
        | false =>
          rw [faithful, ← ih (.whole true) .kept Reading.noConfusion]
          exact (congrArg₂ Eq glob_star expr_star).to_iff
        | true =>
          have hdup : st.dup ≠ .none ∧ st.dup.glob = [.star] ∧ st.dup.expr = st.expr := by
            cases st <;> exact ⟨by decide, rfl, rfl⟩
          rw [faithful, ← ih .cut st.dup (fun _ => hdup.1)]
          change Wild.norm (st.glob ++ .star :: _) = _ ↔ Wild.norm (st.dup.glob ++ _) = Wild.norm (st.dup.expr ++ _)
          rw [glob_star, hdup.2.1, hdup.2.2]
          exact Iff.rfl
      | cut =>
        have hstar : st.glob = [.star] := by
          cases st with
          | none => exact absurd rfl (hst rfl)
          | kept => rfl
          | lost => rfl
        rw [faithful, ← ih (.whole true) st Reading.noConfusion]
        change Wild.norm (st.glob ++ .star :: _) = _ ↔ Wild.norm (st.glob ++ _) = _
        rw [glob_star, hstar]
        exact Iff.rfl
      | behind =>
        refine iff_of_false (fun h => ?_) Bool.false_ne_true
        have hletters := Wild.letters_of_norm h
        exact absurd (List.cons.inj hletters).1 (by decide)
    | esc c h =>
      -- without its backslash
      have hbare : ∀ st : Stars, (Wild.norm (st.glob ++ .lit c :: (ts.map item ++ final fin)) =
            Wild.norm (st.expr ++ ((if c = 0x5c then items .behind ts else bare c :: items (.whole (c = 0x2a)) ts)
              ++ final fin)) ↔
          (decide (st ≠ .lost) && if c = 0x5c then faithful fin .behind .none ts
            else decide (c ≠ 0x2a) && decide (c ≠ 0x3f) && faithful fin (.whole false) .none ts) = true) := by
        intro st
        rw [Bool.and_eq_true, decide_eq_true_iff]
        by_cases hback : c = 0x5c
        · rw [if_pos hback, if_pos hback, hback, ← ih .behind .none Reading.noConfusion]
          exact behind_step fin
        · rw [if_neg hback, if_neg hback, Bool.and_eq_true, Bool.and_eq_true, decide_eq_true_iff,
            decide_eq_true_iff, ← hletter, and_assoc]
          exact bare_step fin
      cases r with
      | whole star =>
        rw [faithful, Bool.and_eq_true, Bool.and_eq_true, decide_eq_true_iff, decide_eq_true_iff,
          ← ih (.whole (c = 0x2a)) .none Reading.noConfusion]
        change Wild.norm (st.glob ++ .lit c :: _) = Wild.norm (st.expr ++ escaped c :: _) ↔ _
        by_cases hdot : c = 0x2e
        · rw [escaped, if_pos hdot]
          refine iff_of_false (norm_ne_of_letters fun h => ?_) fun h => h.1.2 hdot
          exact absurd (List.cons.inj h).1 (by simp)
        · rw [escaped, if_neg hdot, lit_step]
          exact ⟨fun h => ⟨⟨h.1, hdot⟩, h.2⟩, fun h => ⟨h.1.1, h.2⟩⟩
      | cut =>
        rw [faithful]
        exact hbare st
      | behind =>
        have hnone := hbare .none
        rw [decide_eq_true (show Stars.none ≠ .lost by decide), Bool.true_and] at hnone
        rw [faithful, ← hnone]
        exact ⟨fun h => (List.cons.inj h).2, fun h => congrArg (List.cons (Wild.lit 0x5c)) h⟩

/-- What the wildcard stands for is kept. -/
def kept (ts : List GlobTok) : Bool := ! ts.isEmpty && faithful (trailing ts) (.whole false) .none (body ts)

/-- The expression matches what the items of the body do with the star of a trailing one behind them: an anchor is
there if and only if the star is not. -/
theorem expr_matches {ts : List GlobTok} (hne : ts ≠ []) (s : List UInt8) :
    (expr ts).Matches s ↔ Wild.Matches (items (.whole false) (body ts) ++ final (trailing ts)) s := by
  have hisEmpty : ts.isEmpty = false := by simpa using hne
  have hend : (if (expr ts).anchor_end then [] else [Wild.star]) = final (trailing ts) := by
    rw [expr, hisEmpty]
    cases trailing ts <;> rfl
  have hstart : (if (expr ts).anchor_start then [] else [Wild.star]) ++ (expr ts).items =
      items (.whole false) (body ts) := by
    have hanchor : (expr ts).anchor_start = ! leading ts := by
      rw [expr, hisEmpty]
      rfl
    rw [hanchor, expr_items]
    by_cases hlead : leading ts = true
    · conv => rhs; rw [leading_body hlead]
      rw [hlead]
      rfl
    · rw [Bool.eq_false_of_not_eq_true hlead]
      rfl
  rw [PcreExpr.matches_iff, hend, ← List.append_assoc, hstart]

/-- An expression matches what its tokens stand for if and only if the meaning is kept, token by token. Nothing is
assumed of the bytes between. -/
theorem expr_matches_iff (ts : List GlobTok) :
    (∀ s, (expr ts).Matches s ↔ Wild.Matches (ts.map item) s) ↔ kept ts = true := by
  by_cases hne : ts = []
  · subst hne
    refine iff_of_false (fun h => ?_) Bool.false_ne_true
    have hempty : (expr []).Matches [0] := ⟨[0], [], [], rfl, fun h => absurd h (by decide), fun _ => rfl, rfl⟩
    exact absurd ((h [0]).mp hempty) (List.cons_ne_nil _ _)
  · have hzero : ∀ xs : List (Wild UInt8), (∀ c, .lit c ∈ xs → alnum c = true ∨ punct c = true) → Wild.lit 0 ∉ xs :=
      fun xs h hmem => absurd (h 0 hmem) (by decide)
    have hglob : ts.map item = (body ts).map item ++ final (trailing ts) := by
      conv => lhs; rw [← body_append ts, List.map_append]
      cases trailing ts <;> rfl
    have hfinal : ∀ c, Wild.lit c ∉ final (trailing ts) := by
      intro c
      cases trailing ts <;> simp [final]
    have hwild : Wild.lit 0 ∉ items (.whole false) (body ts) ++ final (trailing ts) :=
      fun h => (List.mem_append.mp h).elim (hzero _ (items_chars _ _)) (hfinal 0)
    have hitem : Wild.lit 0 ∉ ts.map item := by
      refine hzero _ fun c hc => ?_
      obtain ⟨t, -, ht⟩ := List.mem_map.mp hc
      cases t with
      | plain d h =>
        obtain rfl : d = c := Wild.lit.inj ht
        exact h.imp_right fun h => by rw [h]; decide
      | any => exact nomatch ht
      | star => exact nomatch ht
      | esc d h =>
        obtain rfl : d = c := Wild.lit.inj ht
        exact h
    have hisEmpty : ts.isEmpty = false := by simpa using hne
    have hscan := norm_iff_faithful (trailing ts) (.whole false) .none (fun h => nomatch h) (body ts)
    rw [kept, hisEmpty, Bool.not_false, Bool.true_and, ← hscan]
    simp only [expr_matches hne]
    rw [Wild.matches_iff_norm hwild hitem, hglob]
    exact eq_comm

/-- The expression that a wildcard is converted to matches what the wildcard stands for, if and only if the scan
says so. The wildcard may be any that fits the buffer; of pcre it is assumed that it searches for the
expressions of this form as it is documented to. -/
theorem convert_glob_matches_iff {pcre2_match : List UInt8 → List UInt8 → Prop}
    (hpcre : Searches pcre2_match) (out pattern : Mem)
    (maxlen : Option Nat) (ts : List GlobTok) (hp : pattern.Starts (ts.flatMap GlobTok.bytes))
    (hroom : (convert_glob (init out maxlen) pattern (ts.flatMap GlobTok.bytes).length true false).1 = 0) :
    (∀ s, pcre2_match ((convert_glob (init out maxlen) pattern (ts.flatMap GlobTok.bytes).length true false).2.out.take
        (convert_glob (init out maxlen) pattern (ts.flatMap GlobTok.bytes).length true false).2.off) s ↔
      Wild.Matches (ts.map item) s) ↔ kept ts = true := by
  have hinit : Emitted out maxlen [] (init out maxlen) := ⟨rfl, rfl, fun _ => Mem.starts_nil out, fun _ _ => rfl⟩
  have hg := convert_glob_expr hp rfl hinit
  have hfits : (convert_glob (init out maxlen) pattern (ts.flatMap GlobTok.bytes).length true false).2.fits
      (expr ts).text.length = true := by
    rw [convert_glob_res, hg.off_eq] at hroom
    by_contra hfits
    rw [if_neg hfits] at hroom
    exact absurd hroom (by decide)
  rw [hg.off_eq, (hg.starts hfits).take]
  simp only [hpcre.matches_iff]
  exact expr_matches_iff ts

/-- "a*b" -/
def glob_a_b : List GlobTok := [.plain 0x61 (by decide), .star, .plain 0x62 (by decide)]

theorem convert_glob_a_b :
    kept glob_a_b = true ∧ ∀ s : List UInt8,
      (PcreExpr.search ((convert_glob (init 0 none) (Mem.ofList [0x61, 0x2a, 0x62] 0) 3 true false).2.out.take
        (convert_glob (init 0 none) (Mem.ofList [0x61, 0x2a, 0x62] 0) 3 true false).2.off) s ↔
          Wild.Matches (glob_a_b.map item) s) :=
  ⟨by decide, (convert_glob_matches_iff PcreExpr.search_searches 0 (Mem.ofList [0x61, 0x2a, 0x62] 0) none glob_a_b
    (Mem.ofList_starts _ _) (by decide +kernel)).mpr (by decide)⟩

/-- "a**b" -/
def glob_a_dup_b : List GlobTok := [.plain 0x61 (by decide), .star, .star, .plain 0x62 (by decide)]

/-- The expression for it, "\Aa(*COMMIT).*?\z". -/
def expr_a : PcreExpr :=
  { anchor_start := true
    items := [.lit 0x61, .star]
    anchor_end := true
    chars := fun c hc => by
      obtain rfl : c = 0x61 := by simpa using hc
      exact .inl (by decide) }

/-- The byte behind a duplicate '*' is skipped: "a" is matched by the expression for "a**b". -/
theorem convert_glob_duplicate :
    ¬ ∀ {pcre2_match : List UInt8 → List UInt8 → Prop} (_ : Searches pcre2_match) (out pattern : Mem)
    (maxlen : Option Nat) (ts : List GlobTok) (_ : pattern.Starts (ts.flatMap GlobTok.bytes))
    (_ : (convert_glob (init out maxlen) pattern (ts.flatMap GlobTok.bytes).length true false).1 = 0) (s : List UInt8),
    pcre2_match ((convert_glob (init out maxlen) pattern (ts.flatMap GlobTok.bytes).length true false).2.out.take
        (convert_glob (init out maxlen) pattern (ts.flatMap GlobTok.bytes).length true false).2.off) s ↔
      Wild.Matches (ts.map item) s := by
  intro h
  have htext : (convert_glob (init 0 none) (Mem.ofList [0x61, 0x2a, 0x2a, 0x62] 0)
      (glob_a_dup_b.flatMap GlobTok.bytes).length true false).2.out.take
      (convert_glob (init 0 none) (Mem.ofList [0x61, 0x2a, 0x2a, 0x62] 0)
        (glob_a_dup_b.flatMap GlobTok.bytes).length true false).2.off =
        expr_a.text := by decide +kernel
  have hiff := h PcreExpr.search_searches 0 (Mem.ofList [0x61, 0x2a, 0x2a, 0x62] 0) none glob_a_dup_b
    (Mem.ofList_starts _ _)
    (by decide +kernel) [0x61]
  have hmatch : expr_a.Matches [0x61] := ⟨[], [0x61], [], rfl, fun _ => rfl, fun _ => rfl, [], rfl, [], [], rfl, rfl⟩
  rw [htext, PcreExpr.search_searches.matches_iff] at hiff
  obtain ⟨v, hv, u, w, hw, u', w', hw', x, hx, -⟩ := hiff.mp hmatch
  obtain rfl : v = [] := (List.cons.inj hv).2.symm
  have hlen := congrArg List.length hw
  rw [hw', hx, List.length_append, List.length_append, List.length_cons, List.length_nil] at hlen
  exact absurd hlen (by omega)

end rdbparser.GlobCvt
