import Rdbparser.Json.Output
import Rdbparser.Json.Text
import Rdbparser.JsonText
import Mathlib.Data.List.TakeWhile

/-! The numbers, names and values that are printed are JSON. -/

namespace rdbparser

open JsonText JsonString

/-- Only zero starts with the digit 0. -/
theorem toDigits_head (n : Nat) : (Nat.toDigits 10 n).head? = some '0' → n = 0 := by
  induction n using Nat.strongRecOn with
  | _ n ih =>
    by_cases hn : n < 10
    · have hdigits : ∀ k < 10, [Nat.digitChar k].head? = some '0' → k = 0 := by decide
      rw [Nat.toDigits_of_lt_base hn]
      exact hdigits n hn
    · rw [Nat.toDigits_of_base_le (by decide) (Nat.not_lt.mp hn), List.head?_append_of_ne_nil _ Nat.toDigits_ne_nil]
      intro hhead
      have := ih (n / 10) (by omega) hhead
      omega

/-- The digits of a number are those of JSON: there is no zero in front of others. -/
theorem decimal_natural (n : Nat) : Natural (decimal n) := by
  refine ⟨⟨List.ne_nil_of_length_pos (decimal_pos n), fun b hb => decimal_digit hb⟩, fun hhead => ?_⟩
  rw [decimal, List.head?_map, Option.map_eq_some_iff] at hhead
  obtain ⟨c, hc, hbyte⟩ := hhead
  have hdigit := Nat.isDigit_of_mem_toDigits (by decide) (by decide) (List.mem_of_mem_head? hc)
  have hrange : 48 ≤ c.toNat ∧ c.toNat ≤ 57 := by
    simpa [Char.isDigit, Char.le_def, UInt32.le_iff_toNat_le] using hdigit
  have hzero : c.toNat = 48 := by
    have h := congrArg UInt8.toNat hbyte
    rw [UInt8.toNat_ofNat', Nat.mod_eq_of_lt (by omega)] at h
    exact h
  obtain rfl : c = '0' := Char.toNat_inj.mp hzero
  rw [toDigits_head n hc]
  rfl

theorem decimal_number (n : Nat) : Number (decimal n) := .of_natural (decimal_natural n)

theorem int_text_number (i : Int) : Number (int_text i) := by
  unfold int_text
  split
  · exact .of_negative (decimal_natural _)
  · exact decimal_number _

def Plain (s : List UInt8) : Prop := ∀ b ∈ s, plain b = true

instance (s : List UInt8) : Decidable (Plain s) := List.decidableBAll _ s

theorem chars_of_plain {s : List UInt8} (h : Plain s) : chars s = true := by
  have happend := chars_append h []
  rwa [List.append_nil] at happend

/-- Digits are printed as they are. -/
theorem decimal_plain (n : Nat) : Plain (decimal n) := by
  intro b hb
  obtain ⟨hlo, hhi⟩ := decimal_digit hb
  have hall : ∀ k : Fin 10, plain (UInt8.ofNat (0x30 + k)) = true := by decide
  simp only [UInt8.le_iff_toNat_le] at hlo hhi
  have hb : b = UInt8.ofNat (0x30 + (⟨b.toNat - 0x30, by simp at hlo hhi; omega⟩ : Fin 10)) := by
    apply UInt8.toNat_inj.mp
    simp at hlo hhi ⊢
    omega
  rw [hb]
  exact hall _

/-- So is an integer with its sign. -/
theorem int_text_plain (i : Int) : Plain (int_text i) := by
  intro b hb
  unfold int_text at hb
  split at hb
  · rcases List.mem_cons.mp hb with rfl | hb
    · rfl
    · exact decimal_plain _ b hb
  · exact decimal_plain _ b hb

/-- The id of an entry is characters of a JSON string. -/
theorem rec_id_chars (ms ser : Nat) : chars (rec_id_text ms ser) = true := by
  refine chars_of_plain fun b hb => ?_
  rw [rec_id_text, List.append_assoc] at hb
  rcases List.mem_append.mp hb with hb | hb
  · exact decimal_plain _ b hb
  · rcases List.mem_cons.mp hb with rfl | hb
    · rfl
    · exact decimal_plain _ b hb

namespace RdbVal

variable (fmt : Nat → List UInt8)

/-- What is printed of a value is JSON: of a string, its backslashes and apostrophes make escapes. -/
def Writable : RdbVal → Prop
  | .str s => kept s = true
  | .dbl n => Number (fmt n)
  | _ => True

def json : RdbVal → Json
  | .nil => .str (ascii "nil")
  | .int i => .num (int_text i)
  | .str s => .str (text s)
  | .dbl n => .num (fmt n)

/-- The same for the name of a field, which is not put in quotes when it is stored as a number. -/
def NameWritable : RdbVal → Prop
  | .nil => True
  | .str s => kept s = true
  | _ => False

def name : RdbVal → List UInt8
  | .nil => ascii "nil"
  | .str s => text s
  | _ => []

/-- The same for a key, which is put in quotes in either case. -/
def KeyWritable : RdbVal → Prop
  | .str s => kept s = true
  | .dbl n => chars (fmt n) = true
  | _ => True

def key_name (typ : List UInt8) : RdbVal → List UInt8
  | .nil => typ
  | .int i => int_text i
  | .str s => text s
  | .dbl n => fmt n

variable {fmt}

theorem print_s_str (s : List UInt8) : (RdbVal.str s).print_s fmt true = some (quoted (text s)) := by
  obtain ⟨chunks, hrun, hflat⟩ := print_str_written s true
  rw [print_s, hrun, Option.map_some, hflat]
  rfl

theorem print_s_json {v : RdbVal} (h : v.Writable fmt) : ∃ t, v.print_s fmt true = some t ∧ Text (v.json fmt) t := by
  cases v with
  | nil => exact ⟨_, rfl, .str (by decide)⟩
  | int i => exact ⟨_, rfl, .num (int_text_number i)⟩
  | str s => exact ⟨_, print_s_str s, .str ((chars_text s).trans h)⟩
  | dbl n => exact ⟨_, rfl, .num h⟩

theorem print_s_name (fmt : Nat → List UInt8) {v : RdbVal} (h : v.NameWritable) :
    v.print_s fmt true = some (quoted v.name) ∧ chars v.name = true := by
  cases v with
  | nil => exact ⟨rfl, by decide⟩
  | str s => exact ⟨print_s_str s, (chars_text s).trans h⟩
  | int | dbl => exact h.elim

theorem key_name_quoted {v : RdbVal} (h : v.KeyWritable fmt) {typ : List UInt8} (htyp : chars typ = true) :
    JsonOutput.key_name fmt typ v = some (quoted (v.key_name fmt typ)) ∧ chars (v.key_name fmt typ) = true := by
  cases v with
  | nil => exact ⟨rfl, htyp⟩
  | int i => exact ⟨rfl, chars_of_plain (int_text_plain i)⟩
  | str s => exact ⟨@print_s_str fmt s, (chars_text s).trans h⟩
  | dbl n => exact ⟨rfl, h⟩

end RdbVal

/-- A text without zeros and no longer than printf can count is printed whole. -/
theorem printf_s_plain {s : List UInt8} (hlen : s.length < 2 ^ 31) (h : Plain s) : printf_s s = some s := by
  have hprec : sext 32 s.length = s.length := by
    rw [sext]
    exact Int.bmod_eq_of_le_mul_two (by omega) (by omega)
  have hne : ∀ b ∈ s, decide (b ≠ 0) = true := by
    intro b hb
    refine decide_eq_true ?_
    rintro rfl
    exact absurd (h 0 hb) (by decide)
  rw [printf_s, hprec, if_neg (by omega), Int.toNat_natCast, List.take_length]
  exact congrArg some (List.takeWhile_eq_self_iff.mpr hne)

end rdbparser
