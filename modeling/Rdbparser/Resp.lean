import Rdbparser.Bytes

/-! Arrays of bulk strings, as redis commands are sent, and reading them back. -/

namespace resp

/-- "\r\n" -/
def CRLF : List UInt8 := [0x0d, 0x0a]

/-- A sign and a number on a line of their own. -/
def line (sign : UInt8) (n : Nat) : List UInt8 := sign :: (decimal n ++ CRLF)

/-- The length of a string and its bytes. -/
def bulk (bs : List UInt8) : List UInt8 := line 0x24 bs.length ++ (bs ++ CRLF)

def array (xs : List (List UInt8)) : List UInt8 := line 0x2a xs.length ++ xs.flatMap bulk

/-- A number that goes on from `acc`, up to the end of its line. -/
def read_num (acc : Nat) : List UInt8 → Option (Nat × List UInt8)
  | [] => none
  | b :: bs =>
    if 0x30 ≤ b ∧ b ≤ 0x39 then read_num (10 * acc + (b.toNat - 0x30)) bs
    else if CRLF.isPrefixOf (b :: bs) then some (acc, bs.tail)
    else none

/-- A number is read digit by digit up to the end of its line, by induction on the digits. -/
theorem read_num_digits (cs : List Char) (hcs : ∀ c ∈ cs, c.isDigit) (acc : Nat)
    (rest : List UInt8) :
    read_num acc (cs.map (fun c => UInt8.ofNat c.toNat) ++ (CRLF ++ rest)) =
      some (Nat.ofDigitChars 10 cs acc, rest) := by
  induction cs generalizing acc with
  | nil => rfl
  | cons c cs ih =>
    have hc : 48 ≤ c.toNat ∧ c.toNat ≤ 57 := by
      have h := hcs c List.mem_cons_self
      simpa [Char.isDigit, Char.le_def, UInt32.le_iff_toNat_le] using h
    have hbyte : (UInt8.ofNat c.toNat).toNat = c.toNat := by
      rw [UInt8.toNat_ofNat']
      omega
    have hdigit : (0x30 : UInt8) ≤ UInt8.ofNat c.toNat ∧ UInt8.ofNat c.toNat ≤ 0x39 := by
      simp only [UInt8.le_iff_toNat_le, hbyte]
      exact hc
    rw [List.map_cons, List.cons_append, read_num, if_pos hdigit, hbyte,
      ih fun c' hc' => hcs c' (List.mem_cons_of_mem c hc'), Nat.ofDigitChars_cons]
    rfl

/-- A number that is written is read back. -/
theorem read_num_decimal (n : Nat) (rest : List UInt8) :
    read_num 0 (decimal n ++ (CRLF ++ rest)) = some (n, rest) := by
  rw [decimal, read_num_digits _ fun c hc => Nat.isDigit_of_mem_toDigits (by decide) (by decide) hc,
    Nat.ofDigitChars_ten_toDigits]

/-- A line tells its number and where it ends. -/
theorem line_append_inj {sign : UInt8} {m n : Nat} {xs ys : List UInt8}
    (h : line sign m ++ xs = line sign n ++ ys) : m = n ∧ xs = ys := by
  simp only [line, List.cons_append, List.cons.injEq, true_and, List.append_assoc] at h
  have hm := read_num_decimal m xs
  rw [h, read_num_decimal] at hm
  simpa [eq_comm] using hm

/-- A string with its length in front of it, and what follows. -/
def read_bulk : List UInt8 → Option (List UInt8 × List UInt8)
  | 0x24 :: bs => do
    let (n, bs) ← read_num 0 bs
    if (bs.drop n).take 2 = CRLF then some (bs.take n, bs.drop (n + 2)) else none
  | _ => none

/-- So many parts one after the other. -/
def read_many {α : Type} (read : List UInt8 → Option (α × List UInt8)) : Nat → List UInt8 → Option (List α × List UInt8)
  | 0, bs => some ([], bs)
  | n + 1, bs => do
    let (x, bs) ← read bs
    let (xs, bs) ← read_many read n bs
    some (x :: xs, bs)

def read_array : List UInt8 → Option (List (List UInt8) × List UInt8)
  | 0x2a :: bs => do
    let (n, bs) ← read_num 0 bs
    read_many read_bulk n bs
  | _ => none

/-- All arrays up to the end, of which there are at most `fuel`. -/
def read_arrays : Nat → List UInt8 → Option (List (List (List UInt8)))
  | _, [] => some []
  | 0, _ => none
  | fuel + 1, bs => do
    let (xs, bs) ← read_array bs
    let xss ← read_arrays fuel bs
    some (xs :: xss)

/-- A bulk string is read back, and what is behind it is left. -/
theorem read_bulk_append (bs rest : List UInt8) : read_bulk (bulk bs ++ rest) = some (bs, rest) := by
  have hnum := read_num_decimal bs.length (bs ++ (CRLF ++ rest))
  have htake : (bs ++ (CRLF ++ rest)).take bs.length = bs := List.take_left
  have hdrop : (bs ++ (CRLF ++ rest)).drop bs.length = CRLF ++ rest := List.drop_left
  have hend : (bs ++ (CRLF ++ rest)).drop (bs.length + 2) = rest := by
    rw [← List.drop_drop, hdrop]
    rfl
  simp only [bulk, line, List.cons_append, List.append_assoc, read_bulk, hnum, Option.bind_eq_bind, Option.bind_some,
    htake, hdrop, hend]
  exact if_pos rfl

/-- Parts that are read back one by one are read back in a row. -/
theorem read_many_append {α : Type} {write : α → List UInt8} {read : List UInt8 → Option (α × List UInt8)}
    (h : ∀ x rest, read (write x ++ rest) = some (x, rest)) (xs : List α) (rest : List UInt8) :
    read_many read xs.length (xs.flatMap write ++ rest) = some (xs, rest) := by
  induction xs with
  | nil => rfl
  | cons x xs ih =>
    rw [List.flatMap_cons, List.append_assoc, List.length_cons, read_many, h]
    simp only [Option.bind_eq_bind, Option.bind_some, ih]

theorem read_array_append (xs : List (List UInt8)) (rest : List UInt8) :
    read_array (array xs ++ rest) = some (xs, rest) := by
  have hnum := read_num_decimal xs.length (xs.flatMap bulk ++ rest)
  simp only [array, line, List.cons_append, List.append_assoc, read_array, hnum, Option.bind_eq_bind, Option.bind_some]
  exact read_many_append read_bulk_append xs rest

/-- Commands that are written one after the other are read back. -/
theorem read_arrays_flatMap (xss : List (List (List UInt8))) {fuel : Nat} (hfuel : (xss.flatMap array).length ≤ fuel) :
    read_arrays fuel (xss.flatMap array) = some xss := by
  induction xss generalizing fuel with
  | nil => cases fuel <;> rfl
  | cons xs xss ih =>
    rw [List.flatMap_cons] at hfuel ⊢
    have hcons : ∃ b bs, array xs ++ xss.flatMap array = b :: bs := ⟨_, _, rfl⟩
    obtain ⟨b, bs, hbytes⟩ := hcons
    have hpos : 0 < (array xs).length := Nat.succ_pos _
    rw [List.length_append] at hfuel
    obtain ⟨fuel, rfl⟩ : ∃ k, fuel = k + 1 := ⟨fuel - 1, by omega⟩
    have hread := read_array_append xs (xss.flatMap array)
    rw [hbytes] at hread ⊢
    rw [read_arrays, hread]
    · simp only [Option.bind_eq_bind, Option.bind_some, ih (show (xss.flatMap array).length ≤ fuel by omega)]
    · exact List.cons_ne_nil b bs

end resp
