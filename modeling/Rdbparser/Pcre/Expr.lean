import Rdbparser.GlobCvt.Kept
import Rdbparser.Pcre
import Rdbparser.Wildcard.Map

/-! Filters that are set from an expression. -/

namespace rdbparser

open GlobCvt

namespace PcreFilter

/-- The size of `name`. -/
def NAME_SIZE : Nat := 40

/-- The size of `patbuf`. -/
def PATBUF_SIZE : Nat := 1024

/-- A filter without an expression: without `re` a match is an error. -/
def init : PcreFilter := { name := [], pcre2_match := fun _ => -51, ignore_case := false, invert := false }

/-- Whether the expression is made into a pcre wildcard. -/
def wildcard (expr : List UInt8) : Bool :=
  NAME_SIZE < expr.length || expr.contains 0x2a || expr.contains 0x3f || expr.contains 0x5b || expr.contains 0x7c

/-- Return false if the expression failed to compile; `pcre2_compile` is what an expression matches with, if it
compiles and there is memory for a match. -/
def set_filter_expr (f : PcreFilter) (pcre2_compile : List UInt8 → Option (List UInt8 → Int)) (patbuf expr : Mem)
    (expr_len : Nat) (ign_case inv : Bool) : Bool × PcreFilter :=
  let f := { f with invert := inv, ignore_case := ign_case }
  if wildcard (expr.take expr_len) then
    let (error, gl) := convert_glob (.init patbuf (some PATBUF_SIZE)) expr expr_len true ign_case
    if error ≠ 0 then (false, f)
    else
      match pcre2_compile (gl.out.take gl.off) with
      | none => (false, f)
      | some re => (true, { f with pcre2_match := re, name := [] }) -- wildcard key filter
  else (true, { f with name := expr.take expr_len }) -- strcmp key filter

end PcreFilter

/-- A capital letter becomes a small one. -/
theorem tolower_upper {c : UInt8} (hc : 0x41 ≤ c ∧ c ≤ 0x5a) : 0x61 ≤ tolower c ∧ tolower c ≤ 0x7a := by
  have hlo : 0x41 ≤ c.toNat := UInt8.le_iff_toNat_le.mp hc.1
  have hhi : c.toNat ≤ 0x5a := UInt8.le_iff_toNat_le.mp hc.2
  have hsmall : (tolower c).toNat = c.toNat + 0x20 := by
    rw [tolower, if_pos hc, UInt8.toNat_add]
    exact Nat.mod_eq_of_lt (by change c.toNat + 0x20 < 256; omega)
  rw [UInt8.le_iff_toNat_le, UInt8.le_iff_toNat_le, hsmall]
  change 0x61 ≤ c.toNat + 0x20 ∧ c.toNat + 0x20 ≤ 0x7a
  omega

/-- A small letter stands for itself if the capital does. -/
theorem tolower_chars {c : UInt8} (h : alnum c = true ∨ punct c = true) :
    alnum (tolower c) = true ∨ punct (tolower c) = true := by
  by_cases hc : 0x41 ≤ c ∧ c ≤ 0x5a
  · obtain ⟨hlo, hhi⟩ := tolower_upper hc
    left
    rw [alnum, decide_eq_true hlo, decide_eq_true hhi, Bool.and_true, Bool.or_true]
  · rw [tolower, if_neg hc]
    exact h

namespace PcreExpr

/-- So do all those of an expression. -/
theorem lower_chars (e : PcreExpr) : ∀ c, .lit c ∈ e.items.map (Wild.map tolower) →
    alnum c = true ∨ punct c = true := by
  intro c hc
  obtain ⟨x, hx, hlit⟩ := List.mem_map.mp hc
  cases x with
  | lit d =>
    obtain rfl : tolower d = c := Wild.lit.inj hlit
    exact tolower_chars (e.chars d hx)
  | any => cases hlit
  | star => cases hlit

/-- The expression in small letters. -/
def lower (e : PcreExpr) : PcreExpr := { e with items := e.items.map (.map tolower), chars := e.lower_chars }

/-- The wildcard that it stands for. -/
def wild (e : PcreExpr) : List (Wild UInt8) :=
  (if e.anchor_start then [] else [.star]) ++ (e.items ++ if e.anchor_end then [] else [.star])

theorem lower_wild (e : PcreExpr) : e.lower.wild = e.wild.map (.map tolower) := by
  have hedge : ∀ anchor : Bool, (if anchor then [] else [Wild.star]).map (Wild.map tolower) =
      if anchor then [] else [Wild.star] := by
    intro anchor
    cases anchor <;> rfl
  rw [wild, wild, List.map_append, List.map_append, hedge, hedge]
  rfl

end PcreExpr

/-- What is relied on of the compiler: expressions of this kind compile, and are searched for in the subject;
behind "(?i)" the letters of either case are alike. -/
structure Compiles (pcre2_compile : List UInt8 → Option (List UInt8 → Int)) : Prop where
  matches_iff : ∀ e : PcreExpr, ∃ re, pcre2_compile e.text = some re ∧ ∀ s, 0 < re s ↔ e.Matches s
  caseless_iff : ∀ e : PcreExpr, ∃ re, pcre2_compile (any_case ++ e.text) = some re ∧
    ∀ s, 0 < re s ↔ e.lower.Matches (s.map tolower)

/-- A letter as it is compared. -/
def folded (ign_case : Bool) : UInt8 → UInt8 := if ign_case then tolower else id

namespace GlobCvt

variable {out pattern : Mem} {maxlen : Option Nat} {t : List UInt8} {g : GlobCvt}

/-- A wildcard is converted to its expression, behind "(?i)" when the case is ignored. -/
theorem convert_glob_text {ts : List GlobTok} (hp : pattern.Starts (ts.flatMap GlobTok.bytes)) (opt_caseins : Bool)
    (h : Emitted out maxlen t g) :
    Emitted out maxlen (t ++ ((if opt_caseins then any_case else []) ++ (expr ts).text))
      (convert_glob g pattern (ts.flatMap GlobTok.bytes).length true opt_caseins).2 := by
  obtain ⟨s, hs⟩ := convert_glob_emits pattern (ts.flatMap GlobTok.bytes).length true false
  have hinit : Emitted out none [] (init out none) := ⟨rfl, rfl, fun _ => Mem.starts_nil out, fun _ _ => rfl⟩
  have htext : s = (expr ts).text := by
    have hemit := hs hinit
    have hexpr := convert_glob_expr hp rfl hinit
    rw [List.nil_append] at hemit
    rw [← (hemit.starts (by rw [fits, hemit.maxlen_eq])).take, ← (hexpr.starts (by rw [fits, hexpr.maxlen_eq])).take,
      ← hemit.off_eq, ← hexpr.off_eq]
  rw [← htext]
  cases opt_caseins with
  | true =>
    rw [if_pos rfl, ← List.append_assoc]
    exact hs (h.str_out any_case)
  | false => exact hs h

/-- The letters of a token are ones that stand for themselves in an expression. -/
theorem item_chars {ts : List GlobTok} {c : UInt8} (h : .lit c ∈ ts.map GlobTok.item) :
    alnum c = true ∨ punct c = true := by
  obtain ⟨t, -, ht⟩ := List.mem_map.mp h
  cases t with
  | plain d hd =>
    obtain rfl : d = c := Wild.lit.inj ht
    obtain hd | rfl := hd
    · exact .inl hd
    · exact .inr (by decide)
  | any => cases ht
  | star => cases ht
  | esc d hd =>
    obtain rfl : d = c := Wild.lit.inj ht
    exact hd

/-- A wildcard that is kept means the same with the case ignored. -/
theorem lower_matches {ts : List GlobTok} (h : kept ts = true) (s : List UInt8) :
    (expr ts).lower.Matches s ↔ Wild.Matches ((ts.map GlobTok.item).map (.map tolower)) s := by
  have hzero : ¬(alnum 0 = true ∨ punct 0 = true) := by decide
  have hwild : Wild.lit 0 ∉ (expr ts).wild := by
    rw [PcreExpr.wild, List.mem_append, List.mem_append]
    rintro (hmem | hmem | hmem)
    · split at hmem <;> simp at hmem
    · exact hzero ((expr ts).chars 0 hmem)
    · split at hmem <;> simp at hmem
  have hnorm : Wild.norm (expr ts).wild = Wild.norm (ts.map GlobTok.item) := by
    refine (Wild.matches_iff_norm hwild fun hmem => hzero (item_chars hmem)).mp fun w => ?_
    rw [PcreExpr.wild, ← PcreExpr.matches_iff]
    exact (expr_matches_iff ts).mpr h w
  rw [PcreExpr.matches_iff, ← Wild.matches_map_congr hnorm, ← PcreExpr.lower_wild]
  rfl

/-- A letter, a digit or a dot as it is. -/
def literal : GlobTok → Bool
  | .plain _ _ => true
  | _ => false

/-- What the wildcard stands for is kept in the filter: a name is compared with its backslashes. -/
def meant (ts : List GlobTok) : Bool :=
  if PcreFilter.wildcard (ts.flatMap GlobTok.bytes) then kept ts else ! ts.isEmpty && ts.all literal

/-- A name without wildcards stands for itself. -/
theorem literal_items {ts : List GlobTok} (h : ts.all literal = true) :
    ts.map GlobTok.item = (ts.flatMap GlobTok.bytes).map .lit := by
  induction ts with
  | nil => rfl
  | cons t ts ih =>
    rw [List.all_cons, Bool.and_eq_true] at h
    cases t with
    | plain c hc => exact congrArg _ (ih h.2)
    | any => exact absurd h.1 Bool.false_ne_true
    | star => exact absurd h.1 Bool.false_ne_true
    | esc c hc => exact absurd h.1 Bool.false_ne_true

/-- A key that a wildcard stands for; a key that is a number is not a text. -/
def Names (ts : List GlobTok) (ign_case : Bool) (key : RdbVal) : Prop :=
  ∃ s, key = .str s ∧ Wild.Matches ((ts.map GlobTok.item).map (.map (folded ign_case))) (s.map (folded ign_case))

end GlobCvt

namespace PcreFilter

theorem tolower_zero {b : UInt8} (h : tolower b = 0) : b = 0 := by
  by_cases hb : 0x41 ≤ b ∧ b ≤ 0x5a
  · have hlo := (tolower_upper hb).1
    rw [h] at hlo
    exact absurd hlo (by decide)
  · rwa [tolower, if_neg hb] at h

/-- A name without a zero is compared as a whole. -/
theorem strncasecmp_iff {s name : List UInt8} (hlen : s.length = name.length) (hzero : 0 ∉ name) :
    strncasecmp s name = true ↔ s.map tolower = name.map tolower := by
  induction name generalizing s with
  | nil =>
    rw [List.length_eq_zero_iff.mp hlen]
    exact iff_of_true rfl rfl
  | cons b name ih =>
    obtain ⟨a, s, rfl⟩ := List.exists_cons_of_length_eq_add_one hlen
    have hb : b ≠ 0 := fun h => hzero (h ▸ List.mem_cons_self)
    have htail := ih (Nat.succ.inj hlen) fun h => hzero (List.mem_cons_of_mem b h)
    rw [strncasecmp, Bool.and_eq_true, Bool.or_eq_true, decide_eq_true_eq, decide_eq_true_eq, htail,
      List.map_cons, List.map_cons,
      List.cons.injEq]
    constructor
    · rintro ⟨heq, rfl | htext⟩
      · exact absurd (tolower_zero heq.symm) hb
      · exact ⟨heq, htext⟩
    · rintro ⟨heq, htext⟩
      exact ⟨heq, .inr htext⟩

/-- A filter that compares the name. -/
theorem matched_name {f : PcreFilter} (hne : f.name ≠ []) (hzero : 0 ∉ f.name) (s : List UInt8) :
    f.matched s = true ↔ s.map (folded f.ignore_case) = f.name.map (folded f.ignore_case) := by
  have hlength : ∀ {g : UInt8 → UInt8}, s.map g = f.name.map g → s.length = f.name.length := by
    intro g h
    simpa using congrArg List.length h
  rw [matched, if_pos (fun h => hne (List.length_eq_zero_iff.mp h)), Bool.and_eq_true, decide_eq_true_eq]
  by_cases hcase : f.ignore_case = true
  · rw [hcase, if_neg (not_not.mpr rfl), folded, if_pos rfl]
    constructor
    · rintro ⟨hlen, htext⟩
      exact (strncasecmp_iff hlen hzero).mp htext
    · intro htext
      exact ⟨hlength htext, (strncasecmp_iff (hlength htext) hzero).mpr htext⟩
  · rw [if_pos hcase, folded, if_neg hcase, List.map_id, List.map_id, decide_eq_true_eq]
    constructor
    · rintro ⟨-, htext⟩
      exact htext
    · intro htext
      exact ⟨congrArg List.length htext, htext⟩

/-- The verdict on a key, when it is known which texts are matched. -/
theorem match_key_iff {f : PcreFilter} {P : List UInt8 → Prop} (h : ∀ s, f.matched s = true ↔ P s) (key : RdbVal) :
    f.match_key key = true ↔ ((∃ s, key = .str s ∧ P s) ↔ f.invert = false) := by
  have hinvert : ∀ matched : Bool, (matched = true ↔ ∃ s, key = .str s ∧ P s) →
      ((if f.invert then ! matched else matched) = true ↔ ((∃ s, key = .str s ∧ P s) ↔ f.invert = false)) := by
    intro matched hmatched
    rw [← hmatched]
    cases f.invert <;> cases matched <;> decide
  have hother : (∀ s, key ≠ .str s) → (false = true ↔ ∃ s, key = .str s ∧ P s) := by
    intro hkey
    refine iff_of_false Bool.false_ne_true ?_
    rintro ⟨s, hs, -⟩
    exact hkey s hs
  cases key with
  | str s =>
    refine hinvert (f.matched s) ((h s).trans ⟨fun hs => ⟨s, rfl, hs⟩, ?_⟩)
    rintro ⟨s', hs, hP⟩
    cases hs
    exact hP
  | _ => exact hinvert false (hother fun s hs => by cases hs)

/-- A filter that is set from a pcre wildcard. -/
theorem set_wildcard {pcre2_compile : List UInt8 → Option (List UInt8 → Int)} (hpcre : Compiles pcre2_compile)
    (f : PcreFilter) (patbuf : Mem) {pattern : Mem} {ts : List GlobTok} (hp : pattern.Starts (ts.flatMap GlobTok.bytes))
    (ign_case inv : Bool) (hwild : wildcard (ts.flatMap GlobTok.bytes) = true) (hkept : GlobCvt.kept ts = true)
    (hroom : ((if ign_case then any_case else []) ++ (expr ts).text).length ≤ PATBUF_SIZE) :
    ∃ re, f.set_filter_expr pcre2_compile patbuf pattern (ts.flatMap GlobTok.bytes).length ign_case inv =
        (true, ⟨[], re, ign_case, inv⟩) ∧
      ∀ s, 0 < re s ↔ Wild.Matches ((ts.map GlobTok.item).map (.map (folded ign_case))) (s.map (folded ign_case)) := by
  have hinit : Emitted patbuf (some PATBUF_SIZE) [] (.init patbuf (some PATBUF_SIZE)) :=
    ⟨rfl, rfl, fun _ => Mem.starts_nil patbuf, fun _ _ => rfl⟩
  have hg := convert_glob_text hp ign_case hinit
  have hres := convert_glob_res (.init patbuf (some PATBUF_SIZE)) pattern
    (ts.flatMap GlobTok.bytes).length true ign_case
  rw [List.nil_append] at hg
  obtain ⟨error, gl, hconvert⟩ : ∃ error gl, convert_glob (.init patbuf (some PATBUF_SIZE)) pattern
      (ts.flatMap GlobTok.bytes).length true ign_case = (error, gl) := ⟨_, _, rfl⟩
  rw [hconvert] at hg hres
  have hfits : gl.fits ((if ign_case then any_case else []) ++ (expr ts).text).length = true := by
    rw [fits, hg.maxlen_eq]
    exact decide_eq_true hroom
  have herror : error = 0 := by
    rw [show error = _ from hres, hg.off_eq, if_pos hfits]
  have htext : gl.out.take gl.off = (if ign_case then any_case else []) ++ (expr ts).text := by
    rw [hg.off_eq]
    exact (hg.starts hfits).take
  obtain ⟨re, hcompile, hre⟩ : ∃ re, pcre2_compile ((if ign_case then any_case else []) ++ (expr ts).text) = some re ∧
      ∀ s, 0 < re s ↔ Wild.Matches ((ts.map GlobTok.item).map (.map (folded ign_case))) (s.map (folded ign_case)) := by
    cases ign_case with
    | true =>
      obtain ⟨re, hcompile, hre⟩ := hpcre.caseless_iff (expr ts)
      exact ⟨re, hcompile, fun s => (hre s).trans (lower_matches hkept _)⟩
    | false =>
      obtain ⟨re, hcompile, hre⟩ := hpcre.matches_iff (expr ts)
      refine ⟨re, hcompile, fun s => (hre s).trans ?_⟩
      rw [(expr_matches_iff ts).mpr hkept, folded, if_neg Bool.false_ne_true, List.map_id, Wild.map_id]
  refine ⟨re, ?_, hre⟩
  rw [set_filter_expr, hp.take, if_pos hwild, hconvert]
  simp only [herror, htext, hcompile, ne_eq, not_true, if_false]

/-- A filter that is set from an expression lets through the keys that the expression stands for, in any case of
the letters with `ign_case` and all the others with `inv`, whether they are compared with a name or matched with
a pcre wildcard. -/
theorem set_filter_expr_matches {pcre2_compile : List UInt8 → Option (List UInt8 → Int)}
    (hpcre : Compiles pcre2_compile)
    (f : PcreFilter) (patbuf pattern : Mem) {ts : List GlobTok} (hp : pattern.Starts (ts.flatMap GlobTok.bytes))
    (ign_case inv : Bool) (hmeant : meant ts = true)
    (hroom : ((if ign_case then any_case else []) ++ (expr ts).text).length ≤ PATBUF_SIZE) :
    ∃ g, f.set_filter_expr pcre2_compile patbuf pattern (ts.flatMap GlobTok.bytes).length ign_case inv = (true, g) ∧
      ∀ key, g.match_key key = true ↔ (Names ts ign_case key ↔ inv = false) := by
  by_cases hwild : wildcard (ts.flatMap GlobTok.bytes) = true
  · rw [meant, if_pos hwild] at hmeant
    obtain ⟨re, hset, hre⟩ := set_wildcard hpcre f patbuf hp ign_case inv hwild hmeant hroom
    refine ⟨_, hset, match_key_iff fun s => ?_⟩
    rw [← hre s]
    exact decide_eq_true_iff
  · rw [meant, if_neg hwild, Bool.and_eq_true, Bool.not_eq_true', List.isEmpty_eq_false_iff] at hmeant
    obtain ⟨hne, hliteral⟩ := hmeant
    refine ⟨⟨ts.flatMap GlobTok.bytes, f.pcre2_match, ign_case, inv⟩, ?_, match_key_iff fun s => ?_⟩
    · rw [set_filter_expr, hp.take, if_neg hwild]
    · have hlits := literal_items hliteral
      have hmap : (ts.map GlobTok.item).map (Wild.map (folded ign_case)) =
          ((ts.flatMap GlobTok.bytes).map (folded ign_case)).map Wild.lit := by
        rw [hlits, List.map_map, List.map_map]
        rfl
      rw [hmap, Wild.matches_lits]
      refine matched_name ?_ ?_ s
      · intro h
        exact hne (List.map_eq_nil_iff.mp (hlits.trans (congrArg (List.map Wild.lit) h)))
      · intro hzero
        have hmem := List.mem_map_of_mem (f := Wild.lit) hzero
        rw [← hlits] at hmem
        exact absurd (item_chars hmem) (by decide)

end PcreFilter

namespace PcreExpr

/-- A compiler of expressions of this kind, that parses them. -/
def pcre2_compile (text : List UInt8) : Option (List UInt8 → Int) :=
  let caseless : Bool := text.take any_case.length = any_case
  let (anchor_start, items, anchor_end) := parse (if caseless then text.drop any_case.length else text)
  let wild := (if anchor_start then [] else [.star]) ++ (items ++ if anchor_end then [] else [.star])
  some fun s => if Wild.Matches (wild.map (.map (folded caseless))) (s.map (folded caseless)) then 1 else -1

/-- It matches with the wildcard that an expression stands for. -/
theorem pcre2_compile_text {e : PcreExpr} {text : List UInt8} {caseless : Bool}
    (hcase : decide (text.take any_case.length = any_case) = caseless)
    (htext : (if caseless then text.drop any_case.length else text) = e.text) :
    ∃ re, pcre2_compile text = some re ∧
      ∀ s, 0 < re s ↔ Wild.Matches (e.wild.map (.map (folded caseless))) (s.map (folded caseless)) := by
  refine ⟨fun s => if Wild.Matches (e.wild.map (.map (folded caseless))) (s.map (folded caseless)) then 1 else -1,
    ?_, fun s => ?_⟩
  · simp only [pcre2_compile, hcase, htext, parse_text]
    rfl
  · by_cases hmatch : Wild.Matches (e.wild.map (.map (folded caseless))) (s.map (folded caseless)) <;> simp [hmatch]

/-- The function that parses expressions and searches for what they mean does what is asked of pcre2, so what is asked
of it can be met. -/
theorem compiles : Compiles pcre2_compile := by
  refine ⟨fun e => ?_, fun e => ?_⟩
  · have hcase : decide (e.text.take any_case.length = any_case) = false := by
      have htake : e.text.take any_case.length = newlines := List.take_left' rfl
      rw [htake]
      decide
    obtain ⟨re, hre, hmatch⟩ := pcre2_compile_text hcase rfl
    refine ⟨re, hre, fun s => (hmatch s).trans ?_⟩
    rw [folded, if_neg Bool.false_ne_true, List.map_id, Wild.map_id, matches_iff]
    rfl
  · have hcase : decide ((any_case ++ e.text).take any_case.length = any_case) = true := decide_eq_true List.take_left
    obtain ⟨re, hre, hmatch⟩ := pcre2_compile_text hcase List.drop_left
    refine ⟨re, hre, fun s => (hmatch s).trans ?_⟩
    rw [folded, if_pos rfl, ← lower_wild, matches_iff]
    rfl

end PcreExpr

/-- "a*b" in any case. -/
theorem PcreFilter.set_filter_expr_a_b :
    ∃ g, PcreFilter.init.set_filter_expr PcreExpr.pcre2_compile 0 (Mem.ofList (glob_a_b.flatMap GlobTok.bytes) 0)
        (glob_a_b.flatMap GlobTok.bytes).length true false = (true, g) ∧
      ∀ key, g.match_key key = true ↔ (Names glob_a_b true key ↔ false = false) :=
  PcreFilter.set_filter_expr_matches PcreExpr.compiles .init 0 _ (Mem.ofList_starts _ _) true false
    (by decide) (by decide)

end rdbparser
