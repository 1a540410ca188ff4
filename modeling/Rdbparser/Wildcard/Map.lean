import Rdbparser.Wildcard
import Mathlib.Data.List.Infix

/-! Patterns whose letters are mapped, and a test of whether a word is matched. -/

namespace Wild

variable {α β : Type}

def map (f : α → β) : Wild α → Wild β
  | lit a => lit (f a)
  | any => any
  | star => star

theorem map_id (xs : List (Wild α)) : xs.map (map id) = xs := by
  have hid : ∀ x : Wild α, x.map id = x := by
    intro x
    cases x <;> rfl
  exact (List.map_congr_left fun x _ => hid x).trans (List.map_id xs)

theorem push_any_map (f : α → β) (xs : List (Wild α)) : push_any (xs.map (map f)) = (push_any xs).map (map f) := by
  cases xs with
  | nil => rfl
  | cons x xs => cases x <;> rfl

theorem push_star_map (f : α → β) (xs : List (Wild α)) : push_star (xs.map (map f)) = (push_star xs).map (map f) := by
  cases xs with
  | nil => rfl
  | cons x xs => cases x <;> rfl

/-- Normalising and changing letters can be done in either order. -/
theorem norm_map (f : α → β) (xs : List (Wild α)) : norm (xs.map (map f)) = (norm xs).map (map f) := by
  induction xs with
  | nil => rfl
  | cons x xs ih =>
    cases x with
    | lit a => exact congrArg _ ih
    | any =>
      rw [norm, ← push_any_map, ← ih]
      rfl
    | star =>
      rw [norm, ← push_star_map, ← ih]
      rfl

/-- Patterns that match the same words still do when their letters are mapped. -/
theorem matches_map_congr {xs ys : List (Wild α)} (h : norm xs = norm ys) (f : α → β) (w : List β) :
    Matches (xs.map (map f)) w ↔ Matches (ys.map (map f)) w := by
  rw [← norm_matches (xs.map (map f)), norm_map, h, ← norm_map]
  exact norm_matches _ w

/-- A pattern of letters matches one word. -/
theorem matches_lits (as w : List α) : Matches (as.map lit) w ↔ w = as := by
  induction as generalizing w with
  | nil => rfl
  | cons a as ih =>
    constructor
    · rintro ⟨v, rfl, hv⟩
      rw [(ih v).mp hv]
    · rintro rfl
      exact ⟨as, rfl, (ih as).mpr rfl⟩

variable [DecidableEq α]

def accepts : List (Wild α) → List α → Bool
  | [], w => w.isEmpty
  | lit a :: xs, w => w.head? = some a && accepts xs w.tail
  | any :: xs, w => ! w.isEmpty && accepts xs w.tail
  | star :: xs, w => w.tails.any (accepts xs)

/-- The computed test is the same as the meaning, by induction on the pattern and, for a star, on the word. -/
theorem accepts_iff (xs : List (Wild α)) (w : List α) : accepts xs w = true ↔ Matches xs w := by
  induction xs generalizing w with
  | nil => exact List.isEmpty_iff
  | cons x xs ih =>
    cases x with
    | lit a =>
      rw [accepts, Bool.and_eq_true, decide_eq_true_eq, ih]
      cases w with
      | nil => exact iff_of_false (fun h => absurd h.1 (by simp)) (by rintro ⟨v, hv, -⟩; cases hv)
      | cons b w => simp [Matches]
    | any =>
      rw [accepts, Bool.and_eq_true, ih]
      cases w with
      | nil => exact iff_of_false (fun h => absurd h.1 (by simp)) (by rintro ⟨a, v, hv, -⟩; cases hv)
      | cons b w => simp [Matches]
    | star =>
      rw [accepts, List.any_eq_true]
      constructor
      · rintro ⟨v, hv, haccept⟩
        obtain ⟨u, rfl⟩ := (List.mem_tails _ _).mp hv
        exact ⟨u, v, rfl, (ih v).mp haccept⟩
      · rintro ⟨u, v, rfl, hv⟩
        exact ⟨v, (List.mem_tails _ _).mpr (List.suffix_append u v), (ih v).mpr hv⟩

instance (xs : List (Wild α)) (w : List α) : Decidable (Matches xs w) := decidable_of_iff _ (accepts_iff xs w)

end Wild
