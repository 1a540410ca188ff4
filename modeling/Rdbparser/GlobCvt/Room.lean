import Rdbparser.GlobCvt

/-! Buffers that are too small for what is converted. -/

namespace rdbparser.GlobCvt

/-- The string `t` has been put out to `out`, as far as there is room for it. -/
structure Emitted (out : Mem) (maxlen : Option Nat) (t : List UInt8) (g : GlobCvt) : Prop where
  maxlen_eq : g.maxlen = maxlen
  off_eq : g.off = t.length
  starts : g.fits t.length = true → g.out.Starts t
  kept : ∀ i, g.fits (i + 1) = false → g.out i = out i

theorem fits_mono {g : GlobCvt} {m n : Nat} (hle : m ≤ n) (h : g.fits n = true) : g.fits m = true := by
  unfold fits at h ⊢
  split at h
  · rfl
  · simp only [decide_eq_true_eq] at h ⊢
    omega

/-- A string is put out as far as there is room, and counted in full. -/
theorem Emitted.str_out {out : Mem} {maxlen : Option Nat} {t : List UInt8} {g : GlobCvt}
    (h : Emitted out maxlen t g) (s : List UInt8) :
    Emitted out maxlen (t ++ s) (g.str_out s) := by
  have hfits : ∀ n, (g.str_out s).fits n = g.fits n := fun _ => rfl
  refine ⟨h.maxlen_eq, ?_, fun hroom => ?_, fun i hi => ?_⟩
  · rw [List.length_append, ← h.off_eq]
    rfl
  · rw [hfits, List.length_append] at hroom
    change (if g.fits (g.off + s.length) then g.out.store g.off s else g.out).Starts (t ++ s)
    rw [h.off_eq, if_pos hroom]
    exact (h.starts (fits_mono (Nat.le_add_right _ _) hroom)).store_end s
  · rw [hfits] at hi
    change (if g.fits (g.off + s.length) then g.out.store g.off s else g.out) i = out i
    split
    · rename_i hroom
      have hlt : g.off + s.length ≤ i := by
        by_contra hle
        rw [fits_mono (show i + 1 ≤ g.off + s.length by omega) hroom] at hi
        exact absurd hi (by decide)
      rw [Mem.store, if_neg (by omega), h.kept i hi]
    · exact h.kept i hi

/-- A step puts out the same string whatever the buffer is. -/
def Emits (f : GlobCvt → GlobCvt) : Prop :=
  ∃ s, ∀ {out : Mem} {maxlen : Option Nat} {t : List UInt8} {g : GlobCvt}, Emitted out maxlen t g →
    Emitted out maxlen (t ++ s) (f g)

namespace Emits

theorem skip : Emits fun g => g := ⟨[], fun h => (List.append_nil _).symm ▸ h⟩

theorem str_out (s : List UInt8) : Emits fun g => g.str_out s := ⟨s, fun h => h.str_out s⟩

theorem char_out (c : UInt8) : Emits fun g => g.char_out c := str_out [c]

theorem comp {f k : GlobCvt → GlobCvt} (h : Emits f) (h' : Emits k) : Emits fun g => k (f g) := by
  obtain ⟨s, hs⟩ := h
  obtain ⟨s', hs'⟩ := h'
  exact ⟨s ++ s', fun hg => by rw [← List.append_assoc]; exact hs' (hs hg)⟩

theorem ite {c : Prop} [Decidable c] {f f' : GlobCvt → GlobCvt} (h : c → Emits f) (h' : ¬c → Emits f') :
    Emits fun g => if c then f g else f' g := by
  by_cases hc : c
  · simp only [if_pos hc]
    exact h hc
  · simp only [if_neg hc]
    exact h' hc

end Emits

/-- The loop over a pattern puts out what it does for each of its bytes, from whichever byte on and inside brackets or
not. -/
theorem convert_loop_emits (pattern : Mem) (patlen k : Nat) (inside_bracket : Bool) :
    Emits (convert_loop pattern patlen k inside_bracket) := by
  induction h : patlen - k using Nat.strong_induction_on generalizing k inside_bracket with
  | _ n ih =>
    subst h
    have hnext : k < patlen → ∀ j > k, ∀ b, Emits (convert_loop pattern patlen j b) := fun hk j hj b =>
      ih (patlen - j) (by omega) j b rfl
    rw [show convert_loop pattern patlen k inside_bracket = fun g => _ from funext fun g => by rw [convert_loop]]
    refine .ite (fun hk => ?_) fun _ => .skip
    refine .ite (fun _ => ?_) fun _ => ?_
    · refine .ite (fun _ => ?_) fun _ => hnext hk _ (Nat.lt_succ_self k) _
      exact .comp (.comp (.ite (fun _ => .char_out _) fun _ => .skip) (.char_out _)) (hnext hk _ (by omega) _)
    · refine .ite (fun _ => ?_) fun _ => .comp (.char_out _) (hnext hk _ (Nat.lt_succ_self k) _)
      refine .ite (fun _ => ?_) fun _ => ?_
      · exact .ite (fun _ => hnext hk _ (by omega) _) fun _ => .comp (.str_out _) (hnext hk _ (Nat.lt_succ_self k) _)
      · refine .ite (fun _ => .comp (.char_out _) (hnext hk _ (Nat.lt_succ_self k) _)) fun _ => ?_
        refine .ite (fun _ => ?_) fun _ => .comp (.char_out _) (hnext hk _ (Nat.lt_succ_self k) _)
        exact .comp (.comp (.char_out _) (.char_out _)) (hnext hk _ (Nat.lt_succ_self k) _)

/-- The whole conversion puts out a text that depends on the pattern and the options alone, never on the room. -/
theorem convert_glob_emits (pattern : Mem) (patlen : Nat) (anchor_start opt_caseins : Bool) :
    Emits fun g => (convert_glob g pattern patlen anchor_start opt_caseins).2 := by
  have hfront : Emits fun g => (if opt_caseins then g.str_out any_case else g).str_out newlines :=
    .comp (.ite (fun _ => .str_out _) fun _ => .skip) (.str_out _)
  have hbody : ∀ (k : Nat) (trail : Bool), Emits fun g =>
      if 0 < patlen then
        let g := if pattern 0 ≠ 0x2a ∧ anchor_start then g.str_out at_start else g
        let g := convert_loop pattern (if trail then patlen - 1 else patlen) k false g
        if ! trail then g.str_out at_end else g
      else g := fun k trail =>
    .ite (fun _ => .comp (.comp (.ite (fun _ => .str_out _) fun _ => .skip) (convert_loop_emits _ _ _ _))
      (.ite (fun _ => .str_out _) fun _ => .skip))
      fun _ => .skip
  exact .comp hfront (hbody _ _)

theorem convert_glob_res (g : GlobCvt) (pattern : Mem) (patlen : Nat) (anchor_start opt_caseins : Bool) :
    (convert_glob g pattern patlen anchor_start opt_caseins).1 =
      if (convert_glob g pattern patlen anchor_start opt_caseins).2.fits
        (convert_glob g pattern patlen anchor_start opt_caseins).2.off
      then 0 else -1 := rfl

/-- A buffer that is too small is reported, and nothing is stored behind it; in one that is large enough the
expression is the one that is written without a limit. Nothing is assumed of the pattern, which may be any
bytes. -/
theorem convert_glob_room (out out' pattern : Mem) (patlen : Nat) (anchor_start opt_caseins : Bool) (maxlen : Nat) :
    let full := (convert_glob (init out' none) pattern patlen anchor_start opt_caseins).2
    let (res, g) := convert_glob (init out (some maxlen)) pattern patlen anchor_start opt_caseins
    (∀ i, maxlen ≤ i → g.out i = out i) ∧ (res = 0 ↔ full.off ≤ maxlen) ∧
      (full.off ≤ maxlen → g.out.take g.off = full.out.take full.off) ∧ (¬full.off ≤ maxlen → res = -1) := by
  obtain ⟨s, hs⟩ := convert_glob_emits pattern patlen anchor_start opt_caseins
  have hinit : ∀ (out : Mem) (maxlen : Option Nat), Emitted out maxlen [] (init out maxlen) := fun out maxlen =>
    ⟨rfl, rfl, fun _ => Mem.starts_nil out, fun _ _ => rfl⟩
  have hfull := hs (hinit out' none)
  have hg := hs (hinit out (some maxlen))
  rw [List.nil_append] at hfull hg
  dsimp only at hfull hg ⊢
  have hroom : ∀ n, fits (convert_glob (init out (some maxlen)) pattern patlen anchor_start opt_caseins).2 n =
      decide (n ≤ maxlen) := by
    intro n
    unfold fits
    rw [hg.maxlen_eq]
  have hwhole : (convert_glob (init out' none) pattern patlen anchor_start opt_caseins).2.out.Starts s := by
    refine hfull.starts ?_
    unfold fits
    rw [hfull.maxlen_eq]
  have hres : (convert_glob (init out (some maxlen)) pattern patlen anchor_start opt_caseins).1 = if s.length ≤
      maxlen then 0 else -1 := by
    simp only [convert_glob_res, hg.off_eq, hroom, decide_eq_true_eq]
  rw [hfull.off_eq, hg.off_eq, hres]
  refine ⟨fun i hi => hg.kept i (by rw [hroom, decide_eq_false_iff_not]; omega), ?_, fun hle => ?_,
    fun hlt => if_neg hlt⟩
  · by_cases hle : s.length ≤ maxlen
    · rw [if_pos hle]
      exact iff_of_true rfl hle
    · rw [if_neg hle]
      exact iff_of_false (by decide) hle
  · rw [(hg.starts (by rw [hroom, decide_eq_true_eq]; exact hle)).take, hwhole.take]

end rdbparser.GlobCvt
