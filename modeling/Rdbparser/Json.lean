import Rdbparser.Types

namespace rdbparser

/-- The size of the buffer that `print_s` fills. -/
def OUT_SIZE : Nat := 128

/-- The buffer of `print_s`, as far as it is filled, and what was passed to `fwrite`. -/
structure Printer where
  out : List UInt8
  written : List (List UInt8)

namespace Printer

/-- Store behind what is filled. -/
def put (p : Printer) (bs : List UInt8) : Option Printer :=
  if p.out.length + bs.length ≤ OUT_SIZE then some { p with out := p.out ++ bs } else none

def flush (p : Printer) : Printer := { out := [], written := p.written ++ [p.out] }

end Printer

/-- What a byte is put out as. The number behind `\u` is decimal. -/
def escape (b : UInt8) : List UInt8 :=
  if 0x20 ≤ b ∧ b ≤ 126 then
    if b = 0x27 ∨ b = 0x22 then [0x5c, b] else [b]
  else
    match b.toNat with
    | 8 => [0x5c, 0x62] -- \b
    | 12 => [0x5c, 0x66] -- \f
    | 10 => [0x5c, 0x6e] -- \n
    | 13 => [0x5c, 0x72] -- \r
    | 9 => [0x5c, 0x74] -- \t
    | n => [0x5c, 0x75, 0x30, UInt8.ofNat (0x30 + n / 100 % 10), UInt8.ofNat (0x30 + n / 10 % 10),
        UInt8.ofNat (0x30 + n % 10)]

/-- The loop over the bytes of a string. -/
def print_loop : List UInt8 → Printer → Option Printer
  | [], p => some p
  | b :: s, p =>
    match p.put (escape b) with
    | none => none
    | some p => print_loop s (if 120 < p.out.length then p.flush else p)

/-- The chunks a string is passed to `fwrite` in. -/
def print_str (s : List UInt8) (use_quotes : Bool) : Option (List (List UInt8)) :=
  let quote := if use_quotes then [0x22] else []
  match (Printer.mk [] []).put quote with
  | none => none
  | some p =>
    match print_loop s p with
    | none => none
    | some p =>
      match p.put quote with
      | none => none
      | some p => some (if 0 < p.out.length then p.flush else p).written

/-- "nil" in quotes -/
def nil_text : List UInt8 := [0x22, 0x6e, 0x69, 0x6c, 0x22]

/-- `fmt` is what `printf` makes of a double with `%g`. -/
def print_s (fmt : Nat → List UInt8) (str : RdbString) (use_quotes : Bool) : Option (List (List UInt8)) :=
  match str.coding with
  | .RDB_NO_VAL => some [nil_text]
  | .RDB_INT_VAL => some [int_text str.ival]
  | .RDB_STR_VAL => print_str (str.s.mem.take str.s_len) use_quotes
  | .RDB_DBL_VAL => some [fmt str.u]

end rdbparser
