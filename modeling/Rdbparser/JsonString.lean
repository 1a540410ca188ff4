import Mathlib.Data.List.Basic

/-! JSON string literals of ascii bytes. -/

namespace JsonString

def hex (b : UInt8) : Bool := (0x30 ≤ b && b ≤ 0x39) || (0x41 ≤ b && b ≤ 0x46) || (0x61 ≤ b && b ≤ 0x66)

/-- What makes an escape behind a backslash: a quote, a backslash, a slash or one of b, f, n, r and t. -/
def letter (b : UInt8) : Bool := [0x22, 0x5c, 0x2f, 0x62, 0x66, 0x6e, 0x72, 0x74].contains b

/-- What stands for itself: not a control character, a quote or a backslash. -/
def plain (b : UInt8) : Bool := 0x20 ≤ b && b < 0x80 && b != 0x22 && b != 0x5c

/-- What may stand between the quotes; u makes an escape with four digits. -/
def chars : List UInt8 → Bool
  | [] => true
  | [b] => plain b
  | b :: c :: s =>
    if b = 0x5c then
      if c = 0x75 then
        match s with
        | h₁ :: h₂ :: h₃ :: h₄ :: s => hex h₁ && hex h₂ && hex h₃ && hex h₄ && chars s
        | _ => false
      else letter c && chars s
    else plain b && chars (c :: s)

def Literal (t : List UInt8) : Prop := ∃ s, t = 0x22 :: (s ++ [0x22]) ∧ chars s = true

theorem literal_iff (s : List UInt8) : Literal (0x22 :: (s ++ [0x22])) ↔ chars s = true := by
  constructor
  · rintro ⟨s', hs', hchars⟩
    rwa [List.append_cancel_right (List.cons.inj hs').2]
  · exact fun h => ⟨s, rfl, h⟩

theorem chars_cons {b : UInt8} (hb : b ≠ 0x5c) (s : List UInt8) : chars (b :: s) = (plain b && chars s) := by
  cases s with
  | nil => rw [chars, chars, Bool.and_true]
  | cons c s =>
    rw [chars.eq_def]
    simp only [if_neg hb]

/-- Characters that stand for themselves. -/
theorem chars_append {ps : List UInt8} (h : ∀ b ∈ ps, plain b = true) (s : List UInt8) : chars (ps ++ s) = chars s := by
  induction ps with
  | nil => rfl
  | cons b ps ih =>
    obtain ⟨hb, hps⟩ := List.forall_mem_cons.mp h
    have hne : b ≠ 0x5c := by
      rintro rfl
      exact absurd hb (by decide)
    rw [List.cons_append, chars_cons hne, hb, Bool.true_and, ih hps]

theorem chars_escape {c : UInt8} (hc : c ≠ 0x75) (s : List UInt8) : chars (0x5c :: c :: s) = (letter c && chars s) := by
  rw [chars.eq_def]
  simp only [if_true, if_neg hc]

/-- Behind a backslash and a 'u' a string of JSON has four hexadecimal digits. -/
theorem chars_escape_u {s : List UInt8} : chars (0x5c :: 0x75 :: s) = true ↔
    ∃ h₁ h₂ h₃ h₄ t, s = h₁ :: h₂ :: h₃ :: h₄ :: t ∧ (hex h₁ ∧ hex h₂ ∧ hex h₃ ∧ hex h₄) ∧ chars t = true := by
  rw [chars.eq_def]
  simp only [if_true]
  split
  · next h₁ h₂ h₃ h₄ t =>
    simp only [Bool.and_eq_true, and_assoc]
    constructor
    · intro h
      exact ⟨h₁, h₂, h₃, h₄, t, rfl, h⟩
    · rintro ⟨_, _, _, _, _, hs, h⟩
      simp only [List.cons.injEq] at hs
      obtain ⟨rfl, rfl, rfl, rfl, rfl⟩ := hs
      exact h
  · next hshort =>
    refine iff_of_false Bool.false_ne_true ?_
    rintro ⟨h₁, h₂, h₃, h₄, t, rfl, -⟩
    exact hshort h₁ h₂ h₃ h₄ t rfl

end JsonString
