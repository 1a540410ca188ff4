import Rdbparser.GlobCvt
import Rdbparser.Wildcard

/-! The wildcards that are converted, and the expressions they are converted to. -/

namespace rdbparser

/-- A letter or a digit. -/
def alnum (c : UInt8) : Bool := (0x30 ≤ c && c ≤ 0x39) || (0x41 ≤ c && c ≤ 0x5a) || (0x61 ≤ c && c ≤ 0x7a)

/-- One of ". ? * \". -/
def punct (c : UInt8) : Bool := [0x2e, 0x3f, 0x2a, 0x5c].contains c

/-- A part of a glob wildcard; `esc` is a character behind a backslash. -/
inductive GlobTok
  | plain (c : UInt8) (h : alnum c = true ∨ c = 0x2e)
  | any
  | star
  | esc (c : UInt8) (h : alnum c = true ∨ punct c = true)

namespace GlobTok

def bytes : GlobTok → List UInt8
  | plain c _ => [c]
  | any => [0x3f]
  | star => [0x2a]
  | esc c _ => [0x5c, c]

/-- What a part of the wildcard stands for. -/
def item : GlobTok → Wild UInt8
  | plain c _ => .lit c
  | any => .any
  | star => .star
  | esc c _ => .lit c

end GlobTok

/-- An expression of literal characters, '.' and "(*COMMIT).*?", in which a newline is like any other byte. -/
structure PcreExpr where
  anchor_start : Bool
  items : List (Wild UInt8)
  anchor_end : Bool
  chars : ∀ c, .lit c ∈ items → alnum c = true ∨ punct c = true

namespace PcreExpr

def item_text : Wild UInt8 → List UInt8
  | .lit c => if alnum c then [c] else [0x5c, c]
  | .any => [0x2e]
  | .star => GlobCvt.commit_star

def text (e : PcreExpr) : List UInt8 :=
  GlobCvt.newlines ++ ((if e.anchor_start then GlobCvt.at_start else []) ++
    (e.items.flatMap item_text ++ if e.anchor_end then GlobCvt.at_end else []))

/-- The expression is searched for in the subject. -/
def Matches (e : PcreExpr) (s : List UInt8) : Prop :=
  ∃ pre mid post, s = pre ++ (mid ++ post) ∧ (e.anchor_start = true → pre = []) ∧ (e.anchor_end = true → post = []) ∧
    Wild.Matches e.items mid

/-- Without an anchor there may be any text. -/
theorem matches_iff (e : PcreExpr) (s : List UInt8) : e.Matches s ↔
    Wild.Matches ((if e.anchor_start then [] else [.star]) ++ (e.items ++ if e.anchor_end then [] else [.star])) s := by
  have hedge : ∀ (anchor : Bool) (w : List UInt8), Wild.Matches (if anchor then [] else [.star]) w ↔
      (anchor = true → w = []) := by
    intro anchor w
    cases anchor with
    | true => exact ⟨fun h _ => h, fun h => h rfl⟩
    | false => exact iff_of_true ⟨w, [], (List.append_nil w).symm, rfl⟩ fun h => absurd h (by decide)
  constructor
  · rintro ⟨pre, mid, post, rfl, hpre, hpost, hmid⟩
    exact (Wild.matches_append _ _ _).mpr ⟨pre, mid ++ post, rfl, (hedge _ _).mpr hpre,
      (Wild.matches_append _ _ _).mpr ⟨mid, post, rfl, hmid, (hedge _ _).mpr hpost⟩⟩
  · intro h
    obtain ⟨pre, _, rfl, hpre, h⟩ := (Wild.matches_append _ _ _).mp h
    obtain ⟨mid, post, rfl, hmid, hpost⟩ := (Wild.matches_append _ _ _).mp h
    exact ⟨pre, mid, post, rfl, (hedge _ _).mp hpre, (hedge _ _).mp hpost, hmid⟩

end PcreExpr

/-- What is relied on of a match for an expression: that expressions of this kind are searched for. -/
structure Searches (pcre2_match : List UInt8 → List UInt8 → Prop) : Prop where
  matches_iff : ∀ (e : PcreExpr) (s : List UInt8), pcre2_match e.text s ↔ e.Matches s

namespace PcreExpr

/-- Where the parser is: in front of an item, behind a backslash, or within a star of which more than `n` bytes
are left. -/
inductive Parsing
  | item
  | escaped
  | star (n : Nat)

/-- The items of an expression, and whether "\z" is at the end. -/
def parse_items : Parsing → List UInt8 → List (Wild UInt8) × Bool
  | _, [] => ([], false)
  | .item, c :: bs =>
    if c = 0x5c then parse_items .escaped bs
    else if c = 0x2e then (.any :: (parse_items .item bs).1, (parse_items .item bs).2)
    else if c = 0x28 then (.star :: (parse_items (.star 10) bs).1, (parse_items (.star 10) bs).2)
    else (.lit c :: (parse_items .item bs).1, (parse_items .item bs).2)
  | .escaped, c :: bs => if c = 0x7a then ([], true) else (.lit c :: (parse_items .item bs).1, (parse_items .item bs).2)
  | .star 0, _ :: bs => parse_items .item bs
  | .star (n + 1), _ :: bs => parse_items (.star n) bs

def parse (text : List UInt8) : Bool × List (Wild UInt8) × Bool :=
  match text.drop 4 with
  | 0x5c :: 0x41 :: bs => (true, parse_items .item bs)
  | bs => (false, parse_items .item bs)

theorem alnum_ne {c : UInt8} (h : alnum c = true) : c ≠ 0x5c ∧ c ≠ 0x2e ∧ c ≠ 0x28 := by
  refine ⟨?_, ?_, ?_⟩ <;> rintro rfl <;> exact absurd h (by decide)

theorem punct_ne {c : UInt8} (h : punct c = true) : c ≠ 0x7a ∧ c ≠ 0x41 := by
  refine ⟨?_, ?_⟩ <;> rintro rfl <;> exact absurd h (by decide)

/-- The text of items, with or without an anchor at the end, is parsed back to them. -/
theorem parse_items_text {items : List (Wild UInt8)} (h : ∀ c, .lit c ∈ items → alnum c = true ∨ punct c = true)
    (anchor_end : Bool) :
    parse_items .item (items.flatMap item_text ++ if anchor_end then GlobCvt.at_end else []) = (items, anchor_end) := by
  induction items with
  | nil => cases anchor_end <;> rfl
  | cons x items ih =>
    have ih := ih fun c hc => h c (List.mem_cons_of_mem _ hc)
    rw [List.flatMap_cons, List.append_assoc]
    generalize (items.flatMap item_text ++ if anchor_end then GlobCvt.at_end else []) = bs at ih ⊢
    cases x with
    | any =>
      change (.any :: (parse_items .item bs).1, (parse_items .item bs).2) = _
      rw [ih]
    | star =>
      change (.star :: (parse_items .item bs).1, (parse_items .item bs).2) = _
      rw [ih]
    | lit c =>
      rw [item_text]
      by_cases hc : alnum c = true
      · obtain ⟨h5c, h2e, h28⟩ := alnum_ne hc
        rw [if_pos hc, List.singleton_append, parse_items, if_neg h5c, if_neg h2e, if_neg h28, ih]
      · have hpunct := (h c List.mem_cons_self).resolve_left hc
        rw [if_neg hc, List.cons_append, List.singleton_append, parse_items, if_pos rfl, parse_items,
          if_neg (punct_ne hpunct).1, ih]

/-- No item looks like "\A". -/
theorem items_text_ne (e : PcreExpr) (bs : List UInt8) :
    (e.items.flatMap item_text ++ if e.anchor_end then GlobCvt.at_end else []) ≠ 0x5c :: 0x41 :: bs := by
  cases hitems : e.items with
  | nil => cases e.anchor_end <;> simp [GlobCvt.at_end]
  | cons x items =>
    rw [List.flatMap_cons, List.append_assoc]
    cases x with
    | any => exact fun h => absurd (List.cons.inj h).1 (by decide)
    | star => exact fun h => absurd (List.cons.inj h).1 (by decide)
    | lit c =>
      rw [item_text]
      by_cases hc : alnum c = true
      · rw [if_pos hc]
        exact fun h => (alnum_ne hc).1 (List.cons.inj h).1
      · have hpunct := (e.chars c (hitems ▸ List.mem_cons_self)).resolve_left hc
        rw [if_neg hc]
        exact fun h => (punct_ne hpunct).2 (List.cons.inj (List.cons.inj h).2).1

/-- So is the text of an expression. -/
theorem parse_text (e : PcreExpr) : parse e.text = (e.anchor_start, e.items, e.anchor_end) := by
  have hitems := parse_items_text e.chars e.anchor_end
  have hdrop : ∀ bs : List UInt8, (GlobCvt.newlines ++ bs).drop 4 = bs := fun _ => rfl
  rw [text, parse, hdrop]
  cases e.anchor_start with
  | true => exact congrArg (Prod.mk true) hitems
  | false =>
    have hne := items_text_ne e
    rw [if_neg (by decide), List.nil_append]
    split
    · rename_i bs h
      exact absurd h (hne bs)
    · rw [hitems]

/-- A match that parses the expression. -/
def search (text s : List UInt8) : Prop :=
  ∃ e : PcreExpr, parse text = (e.anchor_start, e.items, e.anchor_end) ∧ e.Matches s

theorem search_searches : Searches search := by
  refine ⟨fun e s => ⟨fun ⟨e', he, h⟩ => ?_, fun h => ⟨e, parse_text e, h⟩⟩⟩
  rw [parse_text, Prod.mk.injEq, Prod.mk.injEq] at he
  obtain ⟨hstart, hitems, hend⟩ := he
  rw [Matches, hstart, hitems, hend]
  exact h

end PcreExpr

end rdbparser
