import Rdbparser.Bytes

/-! The codes that announce what is in an entry of a zip list or in an element of a list pack. -/

namespace rdbparser.format

/-- A kind of codes: the first byte, the number of bytes behind it and the length of the text that these
announce; an integer has no text. -/
structure Code where
  opcode : UInt8 → Bool
  nbyte : Nat
  text : List UInt8 → Nat

/-- A code of a kind, and what it announces. -/
def Code.Coded (c : Code) (bs : List UInt8) : Prop :=
  ∃ b rest text, bs = b :: (rest ++ text) ∧ c.opcode b = true ∧ rest.length = c.nbyte ∧ text.length = c.text (b :: rest)

/-- Lengths in 6, 14 or 32 bits, big endian, and integers in 2, 4, 8, 3 or 1 bytes or in 4 bits. -/
inductive ZipCode
  | len6 | len14 | len32 | int16 | int32 | int64 | int24 | int8 | int4
  deriving DecidableEq, Repr

def ZipCode.code : ZipCode → Code
  | len6 => ⟨fun b => b &&& 0xc0 = 0x00, 0, fun c => be_nat c % 2 ^ 6⟩
  | len14 => ⟨fun b => b &&& 0xc0 = 0x40, 1, fun c => be_nat c % 2 ^ 14⟩
  | len32 => ⟨fun b => b = 0x80, 4, fun c => be_nat c % 2 ^ 32⟩
  | int16 => ⟨fun b => b = 0xc0, 2, fun _ => 0⟩
  | int32 => ⟨fun b => b = 0xd0, 4, fun _ => 0⟩
  | int64 => ⟨fun b => b = 0xe0, 8, fun _ => 0⟩
  | int24 => ⟨fun b => b = 0xf0, 3, fun _ => 0⟩
  | int8 => ⟨fun b => b = 0xfe, 1, fun _ => 0⟩
  | int4 => ⟨fun b => 0xf1 ≤ b ∧ b ≤ 0xfd, 0, fun _ => 0⟩

/-- The bytes that are no opcode of a zip list: the end marker, and those that share the high bits of a
length in 32 bits or of an integer in 16, 32 or 64 bits but have others set as well. -/
def ZipCode.unused (b : UInt8) : Bool :=
  0x80 < b ∧ b < 0xc0 ∨ 0xc0 < b ∧ b < 0xd0 ∨ 0xd0 < b ∧ b < 0xe0 ∨ 0xe0 < b ∧ b < 0xf0 ∨ b = 0xff

/-- Integers in 7, 13, 16, 24, 32 or 64 bits, and lengths in 6, 12 or 32 bits, big endian. -/
inductive LpCode
  | uint7 | len6 | int13 | len12 | len32 | int16 | int24 | int32 | int64
  deriving DecidableEq, Repr

def LpCode.code : LpCode → Code
  | uint7 => ⟨fun b => b &&& 0x80 = 0x00, 0, fun _ => 0⟩
  | len6 => ⟨fun b => b &&& 0xc0 = 0x80, 0, fun c => be_nat c % 2 ^ 6⟩
  | int13 => ⟨fun b => b &&& 0xe0 = 0xc0, 1, fun _ => 0⟩
  | len12 => ⟨fun b => b &&& 0xf0 = 0xe0, 1, fun c => be_nat c % 2 ^ 12⟩
  | len32 => ⟨fun b => b = 0xf0, 4, fun c => be_nat c % 2 ^ 32⟩
  | int16 => ⟨fun b => b = 0xf1, 2, fun _ => 0⟩
  | int24 => ⟨fun b => b = 0xf2, 3, fun _ => 0⟩
  | int32 => ⟨fun b => b = 0xf3, 4, fun _ => 0⟩
  | int64 => ⟨fun b => b = 0xf4, 8, fun _ => 0⟩

/-- The bytes that are no opcode of a list pack: the prefixes that are not used, and the end marker. -/
def LpCode.unused (b : UInt8) : Bool := 0xf5 ≤ b

namespace Code

variable {c : Code} {p : Mem}

/-- The bytes at a code, with what it announces. -/
theorem coded_take (h : c.opcode (p 0) = true) :
    c.Coded (p.take (1 + c.nbyte + c.text (p.take (1 + c.nbyte)))) := by
  have hcode : p.take (1 + c.nbyte) = p 0 :: (p.add 1).take c.nbyte := by rw [Nat.add_comm, Mem.take_succ]
  refine ⟨p 0, (p.add 1).take c.nbyte, (p.add (1 + c.nbyte)).take (c.text (p.take (1 + c.nbyte))), ?_, h,
    Mem.take_length _ _, ?_⟩
  · rw [Mem.take_add, hcode, List.cons_append]
  · rw [Mem.take_length, hcode]

/-- What lies at a code has its opcode first, and as much text as is announced there. -/
theorem Coded.at {bs : List UInt8} (h : c.Coded bs) (hp : p.Starts bs) :
    c.opcode (p 0) = true ∧ bs.length = 1 + c.nbyte + c.text (p.take (1 + c.nbyte)) := by
  obtain ⟨b, rest, text, rfl, hop, hrest, htext⟩ := h
  have hfirst : p 0 = b := (Mem.starts_cons.mp hp).1
  have hcode : p.take (1 + c.nbyte) = b :: rest := by
    rw [← List.cons_append, Mem.starts_append] at hp
    have htake := hp.1.take
    rwa [List.length_cons, hrest, Nat.add_comm] at htake
  refine ⟨by rwa [hfirst], ?_⟩
  rw [hcode, List.length_cons, List.length_append, hrest, htext]
  omega

end Code

/-- The high byte of a number. -/
theorem be_nat_cons (b : UInt8) (bs : List UInt8) : be_nat (b :: bs) = b.toNat * 256 ^ bs.length + be_nat bs := by
  rw [be_nat, be_nat, List.reverse_cons, le_nat_append, List.length_reverse, le_nat, le_nat, Nat.mul_zero,
    Nat.add_zero, Nat.mul_comm,
    Nat.add_comm]

end rdbparser.format
