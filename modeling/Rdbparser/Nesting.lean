import Mathlib.Data.List.Basic

/-! Sequences in which every opening is closed by its match, in nesting order. -/

/-- What a member of a sequence does: nothing, open a `b` or close one. -/
inductive Nesting (β : Type)
  | flat
  | opening (b : β)
  | closing (b : β)

namespace Nesting

variable {α β : Type} [DecidableEq β]

/-- The openings that are not closed yet, the last one first. -/
def step (kind : α → Nesting β) (stack : List β) (a : α) : Option (List β) :=
  match kind a, stack with
  | flat, stack => some stack
  | opening b, stack => some (b :: stack)
  | closing b, b' :: stack => if b = b' then some stack else none
  | closing _, [] => none

/-- All that is opened is closed. -/
def Balanced (kind : α → Nesting β) (w : List α) : Prop := w.foldlM (step kind) [] = some []

instance (kind : α → Nesting β) (w : List α) : Decidable (Balanced kind w) :=
  inferInstanceAs (Decidable (_ = _))

variable {kind : α → Nesting β} {stack : List β} {a : α}

theorem step_flat (h : kind a = flat) : step kind stack a = some stack := by
  simp only [step, h]

theorem step_opening {b : β} (h : kind a = opening b) : step kind stack a = some (b :: stack) := by
  simp only [step, h]

theorem step_closing {b : β} (h : kind a = closing b) : step kind (b :: stack) a = some stack := by
  simp only [step, h, if_true]

theorem foldlM_flat {w : List α} (h : ∀ a ∈ w, kind a = flat) (stack : List β) :
    w.foldlM (step kind) stack = some stack := by
  induction w with
  | nil => rfl
  | cons a w ih =>
    rw [List.foldlM_cons, step_flat (h a List.mem_cons_self)]
    exact ih fun a ha => h a (List.mem_cons_of_mem _ ha)

end Nesting
