import Mathlib.Data.List.Basic

/-! Patterns of letters and wildcards: the words they match, and when two of them match the same words. -/

/-- A letter, any one letter, or any word. -/
inductive Wild (α : Type)
  | lit (a : α)
  | any
  | star
  deriving DecidableEq, Repr

namespace Wild

variable {α : Type}

def Matches : List (Wild α) → List α → Prop
  | [], w => w = []
  | lit a :: xs, w => ∃ v, w = a :: v ∧ Matches xs v
  | any :: xs, w => ∃ a v, w = a :: v ∧ Matches xs v
  | star :: xs, w => ∃ u v, w = u ++ v ∧ Matches xs v

/-- A pattern in two parts matches a word in two parts. -/
theorem matches_append (xs ys : List (Wild α)) (w : List α) :
    Matches (xs ++ ys) w ↔ ∃ u v, w = u ++ v ∧ Matches xs u ∧ Matches ys v := by
  induction xs generalizing w with
  | nil => exact ⟨fun h => ⟨[], w, rfl, rfl, h⟩, fun ⟨u, v, hw, hu, hv⟩ => by rw [hw, hu]; exact hv⟩
  | cons x xs ih =>
    cases x with
    | lit a =>
      constructor
      · rintro ⟨v, rfl, hv⟩
        obtain ⟨u, v, rfl, hu, hv⟩ := (ih v).mp hv
        exact ⟨a :: u, v, rfl, ⟨u, rfl, hu⟩, hv⟩
      · rintro ⟨_, v, rfl, ⟨u, rfl, hu⟩, hv⟩
        exact ⟨u ++ v, rfl, (ih _).mpr ⟨u, v, rfl, hu, hv⟩⟩
    | any =>
      constructor
      · rintro ⟨a, v, rfl, hv⟩
        obtain ⟨u, v, rfl, hu, hv⟩ := (ih v).mp hv
        exact ⟨a :: u, v, rfl, ⟨a, u, rfl, hu⟩, hv⟩
      · rintro ⟨_, v, rfl, ⟨a, u, rfl, hu⟩, hv⟩
        exact ⟨a, u ++ v, rfl, (ih _).mpr ⟨u, v, rfl, hu, hv⟩⟩
    | star =>
      constructor
      · rintro ⟨t, v, rfl, hv⟩
        obtain ⟨u, v, rfl, hu, hv⟩ := (ih v).mp hv
        exact ⟨t ++ u, v, (List.append_assoc _ _ _).symm, ⟨t, u, rfl, hu⟩, hv⟩
      · rintro ⟨_, v, rfl, ⟨t, u, rfl, hu⟩, hv⟩
        exact ⟨t, u ++ v, List.append_assoc _ _ _, (ih _).mpr ⟨u, v, rfl, hu, hv⟩⟩

/-- Patterns that match the same words, behind one that is the same. -/
theorem matches_cons_congr (x : Wild α) {xs ys : List (Wild α)} (h : ∀ w, Matches xs w ↔ Matches ys w) (w : List α) :
    Matches (x :: xs) w ↔ Matches (x :: ys) w := by
  cases x <;> simp only [Matches, h]

theorem star_star (xs : List (Wild α)) (w : List α) : Matches (star :: star :: xs) w ↔ Matches (star :: xs) w := by
  constructor
  · rintro ⟨t, _, rfl, u, v, rfl, hv⟩
    exact ⟨t ++ u, v, (List.append_assoc _ _ _).symm, hv⟩
  · rintro ⟨u, v, rfl, hv⟩
    exact ⟨[], u ++ v, rfl, u, v, rfl, hv⟩

/-- One letter in front of a word or behind it. -/
theorem any_star (xs : List (Wild α)) (w : List α) : Matches (any :: star :: xs) w ↔ Matches (star :: any :: xs) w := by
  constructor
  · rintro ⟨a, _, rfl, u, v, rfl, hv⟩
    cases List.eq_nil_or_concat u with
    | inl h => exact ⟨[], a :: v, by rw [h]; rfl, a, v, rfl, hv⟩
    | inr h =>
      obtain ⟨t, b, rfl⟩ := h
      exact ⟨a :: t, b :: v, by simp, b, v, rfl, hv⟩
  · rintro ⟨u, _, rfl, a, v, rfl, hv⟩
    cases u with
    | nil => exact ⟨a, v, rfl, [], v, rfl, hv⟩
    | cons b u => exact ⟨b, u ++ a :: v, rfl, u ++ [a], v, by simp, hv⟩

/-! Of the wildcards between two letters, at most one stands for a word, and it is the first. -/

def push_any : List (Wild α) → List (Wild α)
  | star :: xs => star :: any :: xs
  | xs => any :: xs

def push_star : List (Wild α) → List (Wild α)
  | star :: xs => star :: xs
  | xs => star :: xs

def norm : List (Wild α) → List (Wild α)
  | [] => []
  | lit a :: xs => lit a :: norm xs
  | any :: xs => push_any (norm xs)
  | star :: xs => push_star (norm xs)

theorem push_any_matches (xs : List (Wild α)) (w : List α) : Matches (push_any xs) w ↔ Matches (any :: xs) w := by
  unfold push_any
  split
  · exact (any_star _ w).symm
  · rfl

theorem push_star_matches (xs : List (Wild α)) (w : List α) : Matches (push_star xs) w ↔ Matches (star :: xs) w := by
  unfold push_star
  split
  · exact (star_star _ w).symm
  · rfl

/-- Normalising keeps what is matched. -/
theorem norm_matches (xs : List (Wild α)) (w : List α) : Matches (norm xs) w ↔ Matches xs w := by
  induction xs generalizing w with
  | nil => rfl
  | cons x xs ih =>
    cases x with
    | lit a => exact matches_cons_congr (lit a) ih w
    | any => exact (push_any_matches _ w).trans (matches_cons_congr any ih w)
    | star => exact (push_star_matches _ w).trans (matches_cons_congr star ih w)

/-- There is no star behind a wildcard; `wild` is whether there is one in front. -/
def Tidy : Bool → List (Wild α) → Prop
  | _, [] => True
  | _, lit _ :: xs => Tidy false xs
  | _, any :: xs => Tidy true xs
  | wild, star :: xs => wild = false ∧ Tidy true xs

theorem tidy_of_head {xs : List (Wild α)} (h : Tidy false xs) (hhead : ∀ ys, xs ≠ star :: ys) : Tidy true xs := by
  match xs, h with
  | [], _ => trivial
  | lit _ :: _, h => exact h
  | any :: _, h => exact h
  | star :: ys, _ => exact absurd rfl (hhead ys)

/-- A normal pattern has no star behind a '?' or another star. -/
theorem norm_tidy (xs : List (Wild α)) : Tidy false (norm xs) := by
  induction xs with
  | nil => trivial
  | cons x xs ih =>
    cases x with
    | lit a => exact ih
    | any =>
      rw [norm]
      unfold push_any
      split
      · rename_i ys h
        rw [h] at ih
        exact ⟨rfl, ih.2⟩
      · rename_i h
        exact tidy_of_head ih h
    | star =>
      rw [norm]
      unfold push_star
      split
      · rename_i ys h
        rw [h] at ih
        exact ih
      · rename_i h
        exact ⟨rfl, tidy_of_head ih h⟩

/-- Normalising adds no letter. -/
theorem lit_mem_norm {a : α} {xs : List (Wild α)} (h : lit a ∈ norm xs) : lit a ∈ xs := by
  have hany : ∀ ys : List (Wild α), lit a ∈ push_any ys → lit a ∈ ys := by
    intro ys
    unfold push_any
    split <;> simp
  have hstar : ∀ ys : List (Wild α), lit a ∈ push_star ys → lit a ∈ ys := by
    intro ys
    unfold push_star
    split <;> simp
  induction xs with
  | nil => exact h
  | cons x xs ih =>
    cases x with
    | lit b =>
      rcases List.mem_cons.mp h with heq | hmem
      · rw [heq]
        exact List.mem_cons_self
      · exact List.mem_cons_of_mem _ (ih hmem)
    | any => exact List.mem_cons_of_mem _ (ih (hany _ h))
    | star => exact List.mem_cons_of_mem _ (ih (hstar _ h))

/-! The shortest words; `z` is in the place of any letter. -/

def word (z : α) : List (Wild α) → List α
  | [] => []
  | lit a :: xs => a :: word z xs
  | any :: xs => z :: word z xs
  | star :: xs => word z xs

/-- What is matched by one letter each. -/
def letters : List (Wild α) → List (Wild α)
  | [] => []
  | star :: xs => letters xs
  | lit a :: xs => lit a :: letters xs
  | any :: xs => any :: letters xs

variable {z : α} {xs ys : List (Wild α)}

theorem letters_append (xs ys : List (Wild α)) : letters (xs ++ ys) = letters xs ++ letters ys := by
  induction xs with
  | nil => rfl
  | cons x xs ih => cases x <;> simp [letters, ih]

theorem word_letters (xs : List (Wild α)) : word z (letters xs) = word z xs := by
  induction xs with
  | nil => rfl
  | cons x xs ih => cases x <;> simp [word, letters, ih]

/-- The shortest word is matched. -/
theorem word_matches (z : α) (xs : List (Wild α)) : Matches xs (word z xs) := by
  induction xs with
  | nil => rfl
  | cons x xs ih =>
    cases x with
    | lit a => exact ⟨_, rfl, ih⟩
    | any => exact ⟨z, _, rfl, ih⟩
    | star => exact ⟨[], _, rfl, ih⟩

/-- No word that is matched is shorter than the shortest. -/
theorem word_length_le (z : α) {w : List α} (h : Matches xs w) : (word z xs).length ≤ w.length := by
  induction xs generalizing w with
  | nil => exact Nat.zero_le _
  | cons x xs ih =>
    cases x with
    | lit a =>
      obtain ⟨v, rfl, hv⟩ := h
      exact Nat.succ_le_succ (ih hv)
    | any =>
      obtain ⟨b, v, rfl, hv⟩ := h
      exact Nat.succ_le_succ (ih hv)
    | star =>
      obtain ⟨u, v, rfl, hv⟩ := h
      rw [List.length_append]
      exact Nat.le_add_left_of_le (ih hv)

/-- In the shortest words nothing is left for the stars. -/
theorem matches_letters {w : List α} (h : Matches xs w) (hlen : w.length = (word z xs).length) :
    Matches (letters xs) w := by
  induction xs generalizing w with
  | nil => exact h
  | cons x xs ih =>
    cases x with
    | lit a =>
      obtain ⟨v, rfl, hv⟩ := h
      exact ⟨v, rfl, ih hv (Nat.succ.inj hlen)⟩
    | any =>
      obtain ⟨b, v, rfl, hv⟩ := h
      exact ⟨b, v, rfl, ih hv (Nat.succ.inj hlen)⟩
    | star =>
      obtain ⟨u, v, rfl, hv⟩ := h
      have hle := word_length_le z hv
      rw [List.length_append] at hlen
      change u.length + v.length = (word z xs).length at hlen
      obtain rfl : u = [] := List.eq_nil_of_length_eq_zero (by omega)
      exact ih hv (by simpa using hlen)

theorem mem_letters {x : Wild α} : x ∈ letters xs ↔ x ∈ xs ∧ x ≠ star := by
  induction xs with
  | nil => simp [letters]
  | cons y xs ih => cases y <;> simp [letters, ih] <;> grind

/-- The shortest words determine what they are matched by. -/
theorem eq_of_words (hx : star ∉ xs) (hy : star ∉ ys) (hzx : lit z ∉ xs) (hzy : lit z ∉ ys)
    (hxy : Matches xs (word z ys))
    (hyx : Matches ys (word z xs)) : xs = ys := by
  induction xs generalizing ys with
  | nil =>
    cases ys with
    | nil => rfl
    | cons y ys =>
      cases y with
      | lit b => exact absurd hxy (List.cons_ne_nil _ _)
      | any => exact absurd hxy (List.cons_ne_nil _ _)
      | star => exact absurd List.mem_cons_self hy
  | cons x xs ih =>
    have hrest : ∀ {y ys}, star ∉ y :: ys → lit z ∉ y :: ys → Matches xs (word z ys) →
        Matches ys (word z xs) → xs = ys :=
      fun hy hzy => ih (fun h => hx (List.mem_cons_of_mem _ h)) (fun h => hy (List.mem_cons_of_mem _ h))
        (fun h => hzx (List.mem_cons_of_mem _ h)) (fun h => hzy (List.mem_cons_of_mem _ h))
    cases x with
    | star => exact absurd List.mem_cons_self hx
    | lit a =>
      obtain ⟨v, hv, hmatch⟩ := hxy
      cases ys with
      | nil => exact absurd hv (List.cons_ne_nil _ _).symm
      | cons y ys =>
        cases y with
        | star => exact absurd List.mem_cons_self hy
        | lit b =>
          obtain ⟨rfl, rfl⟩ := List.cons.inj hv
          obtain ⟨u, hu, hmatch'⟩ := hyx
          obtain ⟨-, rfl⟩ := List.cons.inj hu
          rw [hrest hy hzy hmatch hmatch']
        | any =>
          obtain ⟨rfl, -⟩ := List.cons.inj hv
          exact absurd List.mem_cons_self hzx
    | any =>
      obtain ⟨c, v, hv, hmatch⟩ := hxy
      cases ys with
      | nil => exact absurd hv (List.cons_ne_nil _ _).symm
      | cons y ys =>
        cases y with
        | star => exact absurd List.mem_cons_self hy
        | lit b =>
          obtain ⟨u, hu, -⟩ := hyx
          obtain ⟨rfl, -⟩ := List.cons.inj hu
          exact absurd List.mem_cons_self hzy
        | any =>
          obtain ⟨-, rfl⟩ := List.cons.inj hv
          obtain ⟨d, u, hu, hmatch'⟩ := hyx
          obtain ⟨-, rfl⟩ := List.cons.inj hu
          rw [hrest hy hzy hmatch hmatch']

/-- Patterns that match the same words agree but for their stars. -/
theorem letters_eq (hx : lit z ∉ xs) (hy : lit z ∉ ys) (h : ∀ w, Matches xs w ↔ Matches ys w) :
    letters xs = letters ys := by
  have hxy := (h _).mpr (word_matches z ys)
  have hyx := (h _).mp (word_matches z xs)
  have hlen : (word z ys).length = (word z xs).length := Nat.le_antisymm (word_length_le z hyx) (word_length_le z hxy)
  have hxy := matches_letters hxy hlen
  have hyx := matches_letters hyx hlen.symm
  rw [← word_letters] at hxy hyx
  exact eq_of_words (fun h => (mem_letters.mp h).2 rfl) (fun h => (mem_letters.mp h).2 rfl)
    (fun h => hx (mem_letters.mp h).1)
    (fun h => hy (mem_letters.mp h).1) hxy hyx

/-- A letter more than there has to be is not matched in front of a pattern that has no star there. -/
theorem not_matches_more (hy : lit z ∉ ys) (htidy : Tidy true ys) : ¬ Matches ys (z :: word z ys) := by
  induction ys with
  | nil => exact List.cons_ne_nil _ _
  | cons y ys ih =>
    cases y with
    | lit a =>
      rintro ⟨v, hv, -⟩
      obtain ⟨rfl, -⟩ := List.cons.inj hv
      exact hy List.mem_cons_self
    | any =>
      rintro ⟨c, v, hv, hmatch⟩
      obtain ⟨-, rfl⟩ := List.cons.inj hv
      exact ih (fun h => hy (List.mem_cons_of_mem _ h)) htidy hmatch
    | star => exact absurd htidy.1 (by decide)

/-- What two patterns begin with ends in a letter, or there is nothing. -/
def Ends (z : α) (ps : List (Wild α)) : Prop := ps = [] ∨ ∃ qs a, ps = qs ++ [lit a] ∧ a ≠ z

/-- A star that another pattern lacks is told by a word with one letter more, which `z` is: it is none of the other
pattern. -/
theorem star_needed {ps : List (Wild α)} (hp : Ends z ps) (hy : lit z ∉ ys) (htidy : Tidy true ys)
    (hletters : letters xs = letters ys)
    (h : ∀ w, Matches (ps ++ star :: xs) w → Matches (ps ++ ys) w) : False := by
  have hword : word z xs = word z ys := by rw [← word_letters, hletters, word_letters]
  have hmore : Matches (ps ++ star :: xs) (word z ps ++ z :: word z ys) :=
    (matches_append _ _ _).mpr ⟨_, _, rfl, word_matches z ps, [z], word z ys, rfl, hword ▸ word_matches z xs⟩
  obtain ⟨u, v, hw, hu, hv⟩ := (matches_append _ _ _).mp (h _ hmore)
  have hlu := word_length_le z hu
  have hlv := word_length_le z hv
  rcases List.append_eq_append_iff.mp hw with ⟨t, rfl, ht⟩ | ⟨t, ht, rfl⟩
  · cases t with
    | nil => exact not_matches_more hy htidy (ht.symm ▸ hv)
    | cons c t =>
      obtain ⟨rfl, htail⟩ := List.cons.inj ht
      obtain rfl : t = [] := by
        have hlen := congrArg List.length htail
        rw [List.append_eq, List.length_append] at hlen
        exact List.eq_nil_of_length_eq_zero (by omega)
      rcases hp with rfl | ⟨qs, a, rfl, ha⟩
      · exact absurd hu (List.cons_ne_nil _ _)
      · obtain ⟨s, _, hs, -, _, rfl, rfl⟩ := (matches_append _ _ _).mp hu
        exact ha (List.singleton_inj.mp (List.append_inj_right' hs rfl)).symm
  · rw [ht, List.length_append] at hlu
    obtain rfl : t = [] := List.eq_nil_of_length_eq_zero (by omega)
    exact not_matches_more hy htidy hv

theorem star_head {ps : List (Wild α)} {wild : Bool} (hp : wild = false → Ends z ps) (hx : Tidy wild (star :: xs))
    (htidy : Tidy wild ys)
    (hhead : ∀ zs, ys ≠ star :: zs) (hy : lit z ∉ ys) (hletters : letters (star :: xs) = letters ys)
    (h : ∀ w, Matches (ps ++ star :: xs) w → Matches (ps ++ ys) w) : False := by
  obtain ⟨rfl, -⟩ := hx
  have hrest : letters xs = letters ys := hletters
  exact star_needed (hp rfl) hy (tidy_of_head htidy hhead) hrest h

/-- Tidy patterns that match the same words are the same; `ps` is what they have begun with. -/
theorem tidy_unique {ps : List (Wild α)} {wild : Bool} (hp : wild = false → Ends z ps)
    (htx : Tidy wild xs) (hty : Tidy wild ys)
    (hz : lit z ∉ ps) (hx : lit z ∉ xs) (hy : lit z ∉ ys) (h : ∀ w, Matches (ps ++ xs) w ↔
      Matches (ps ++ ys) w) : xs = ys := by
  have hletters : letters xs = letters ys := by
    have hall := letters_eq (z := z) (by simp [hz, hx]) (by simp [hz, hy]) h
    rwa [letters_append, letters_append, List.append_cancel_left_eq] at hall
  induction xs generalizing ps wild ys with
  | nil =>
    cases ys with
    | nil => rfl
    | cons y ys =>
      cases y with
      | star => exact (star_head hp hty htx (by simp) hx hletters.symm fun w => (h w).mpr).elim
      | lit b => exact absurd hletters (List.cons_ne_nil _ _).symm
      | any => exact absurd hletters (List.cons_ne_nil _ _).symm
  | cons x xs ih =>
    have hnext : ∀ {ys more}, (more = false → Ends z (ps ++ [x])) → Tidy more xs → Tidy more ys → lit z ∉ x :: ys →
        (∀ w, Matches (ps ++ x :: xs) w ↔ Matches (ps ++ x :: ys) w) → letters xs = letters ys → xs = ys := by
      intro ys more hp htx hty hy h hletters
      have hz : lit z ∉ ps ++ [x] := by
        rw [List.mem_append, List.mem_singleton, not_or]
        exact ⟨hz, fun heq => hx (heq ▸ List.mem_cons_self)⟩
      refine ih hp htx hty hz (fun hmem => hx (List.mem_cons_of_mem _ hmem))
        (fun hmem => hy (List.mem_cons_of_mem _ hmem)) (fun w => ?_) hletters
      rw [List.append_assoc, List.append_assoc]
      exact h w
    cases x with
    | star =>
      by_cases hhead : ∃ zs, ys = star :: zs
      · obtain ⟨ys, rfl⟩ := hhead
        rw [hnext Bool.noConfusion htx.2 hty.2 hy h hletters]
      · exact (star_head hp htx hty (fun zs hys => hhead ⟨zs, hys⟩) hy hletters fun w => (h w).mp).elim
    | lit a =>
      cases ys with
      | nil => exact absurd hletters (List.cons_ne_nil _ _)
      | cons y ys =>
        cases y with
        | star => exact (star_head hp hty htx (by simp) hx hletters.symm fun w => (h w).mpr).elim
        | any => exact absurd (List.cons.inj hletters).1 (by simp)
        | lit b =>
          obtain ⟨heq, hrest⟩ := List.cons.inj hletters
          obtain rfl := Wild.lit.inj heq
          have ha : a ≠ z := fun heq => hx (heq ▸ List.mem_cons_self)
          rw [hnext (fun _ => .inr ⟨ps, a, rfl, ha⟩) htx hty hy h hrest]
    | any =>
      cases ys with
      | nil => exact absurd hletters (List.cons_ne_nil _ _)
      | cons y ys =>
        cases y with
        | star => exact (star_head hp hty htx (by simp) hx hletters.symm fun w => (h w).mpr).elim
        | lit b => exact absurd (List.cons.inj hletters).1 (by simp)
        | any => rw [hnext Bool.noConfusion htx hty hy h (List.cons.inj hletters).2]

/-- Two patterns match the same words if and only if they are the same when they are tidy. -/
theorem matches_iff_norm (hx : lit z ∉ xs) (hy : lit z ∉ ys) : (∀ w, Matches xs w ↔ Matches ys w) ↔
    norm xs = norm ys := by
  constructor
  · intro h
    have hempty : lit z ∉ ([] : List (Wild α)) := List.not_mem_nil
    refine tidy_unique (fun _ => .inl rfl) (norm_tidy xs) (norm_tidy ys) hempty (fun hmem => hx (lit_mem_norm hmem))
      (fun hmem => hy (lit_mem_norm hmem)) fun w => ?_
    exact ((norm_matches xs w).trans (h w)).trans (norm_matches ys w).symm
  · intro h w
    rw [← norm_matches xs, h, norm_matches]

/-! Patterns that are tidied alike. -/

/-- Normalising keeps what is matched by one letter each. -/
theorem letters_norm (xs : List (Wild α)) : letters (norm xs) = letters xs := by
  have hany : ∀ ys : List (Wild α), letters (push_any ys) = any :: letters ys := by
    intro ys
    unfold push_any
    split <;> rfl
  have hstar : ∀ ys : List (Wild α), letters (push_star ys) = letters ys := by
    intro ys
    unfold push_star
    split <;> rfl
  induction xs with
  | nil => rfl
  | cons x xs ih => cases x <;> simp [norm, letters, hany, hstar, ih]

theorem letters_of_norm (h : norm xs = norm ys) : letters xs = letters ys := by
  rw [← letters_norm, h, letters_norm]

theorem norm_star_lit (a : α) (xs : List (Wild α)) : norm (star :: lit a :: xs) = star :: lit a :: norm xs := rfl

theorem norm_star_star (xs : List (Wild α)) : norm (star :: star :: xs) = norm (star :: xs) := by
  have hstar : ∀ ys : List (Wild α), push_star (push_star ys) = push_star ys := by
    intro ys
    cases ys with
    | nil => rfl
    | cons y ys => cases y <;> rfl
  exact hstar _

theorem norm_star_any (xs : List (Wild α)) : norm (star :: any :: xs) = norm (any :: star :: xs) := by
  have hswap : ∀ ys : List (Wild α), push_star (push_any ys) = push_any (push_star ys) := by
    intro ys
    cases ys with
    | nil => rfl
    | cons y ys => cases y <;> rfl
  exact hswap _

/-- A '?' in front of two patterns does not tell them apart. -/
theorem norm_any_inj : norm (any :: xs) = norm (any :: ys) ↔ norm xs = norm ys := by
  have hinj : ∀ us vs : List (Wild α), push_any us = push_any vs → us = vs := by
    intro us vs h
    cases us with
    | nil =>
      cases vs with
      | nil => rfl
      | cons v vs => cases v <;> simp [push_any] at h
    | cons u us =>
      cases vs with
      | nil => cases u <;> simp [push_any] at h
      | cons v vs => cases u <;> cases v <;> simp_all [push_any]
  exact ⟨hinj _ _, fun h => congrArg push_any h⟩

end Wild
