import Rdbparser.ZipList

namespace rdbparser

/-- A list pack of `lpbytes` bytes at `base`; `data` and `end_` are offsets from there. -/
structure RdbListPack where
  lpbytes : Nat
  lplen : Nat
  base : Ptr
  data : Nat
  end_ : Nat

/-- Expanding opcode, ints and strings. -/
inductive ListPackEnc
  | LP_7BIT_UINT | LP_6BIT_STR | LP_13BIT_INT | LP_12BIT_STR | LP_32BIT_STR | LP_16BIT_INT
  | LP_24BIT_INT | LP_32BIT_INT | LP_64BIT_INT | LP_END | LP_UNUSED
  deriving DecidableEq, Repr

namespace RdbListPack

open ListPackEnc

/-- Header is [ lpbytes * 4 ][ lplen * 2 ]. -/
def init (b : Ptr) (sz : Nat) : Option RdbListPack :=
  if sz < 6 then none
  else
    let lpbytes := le_nat (b.mem.take 4)
    if lpbytes < 7 then none -- if only end marker (255)
    else some { lpbytes := lpbytes, lplen := le_nat ((b.mem.add 4).take 2)
                base := b, data := 6, end_ := lpbytes }

def code : ListPackEnc → Nat
  | LP_7BIT_UINT => 0
  | LP_6BIT_STR => 1
  | LP_13BIT_INT => 2
  | LP_12BIT_STR => 3
  | LP_32BIT_STR => 4
  | LP_16BIT_INT => 5
  | LP_24BIT_INT => 6
  | LP_32BIT_INT => 7
  | LP_64BIT_INT => 8
  | LP_END => 9
  | LP_UNUSED => 10

def is_immed (e : ListPackEnc) : Bool := e ≠ LP_6BIT_STR ∧ e ≠ LP_12BIT_STR ∧ e ≠ LP_32BIT_STR

def ISZ (v : Nat) (e : ListPackEnc) : Nat := v <<< (code e * 4)

/-- The size of each opcode, a nibble each. -/
def LP_SIZE : Nat :=
  ISZ 1 LP_7BIT_UINT ||| ISZ 1 LP_6BIT_STR ||| ISZ 2 LP_13BIT_INT ||| ISZ 2 LP_12BIT_STR |||
  ISZ 5 LP_32BIT_STR ||| ISZ 3 LP_16BIT_INT ||| ISZ 4 LP_24BIT_INT ||| ISZ 5 LP_32BIT_INT |||
  ISZ 9 LP_64BIT_INT ||| ISZ 1 LP_END ||| ISZ 0 LP_UNUSED

def lp_size (e : ListPackEnc) : Nat := (LP_SIZE >>> (code e * 4)) &&& 0xf

/-- The loop of `lpback_size`; a 64 bit `x` is below 128 after at most nine turns. -/
def lpback_size_loop : Nat → Nat → Nat → Nat
  | 0, _, i => i
  | fuel + 1, x, i => if 128 ≤ x then lpback_size_loop fuel (x >>> 7) (i + 1) else i

def lpback_size (x : Nat) : Nat := lpback_size_loop 9 x 1

def lp_code (b : UInt8) : ListPackEnc :=
  let hi := (b &&& 0xf0) >>> 4
  if hi < 8 then LP_7BIT_UINT
  else if hi < 12 then LP_6BIT_STR
  else if hi < 14 then LP_13BIT_INT
  else if hi = 14 then LP_12BIT_STR
  else if b &&& 0x0f = 0 then LP_32BIT_STR
  else if b &&& 0x0f = 1 then LP_16BIT_INT
  else if b &&& 0x0f = 2 then LP_24BIT_INT
  else if b &&& 0x0f = 3 then LP_32BIT_INT
  else if b &&& 0x0f = 4 then LP_64BIT_INT
  else if b &&& 0x0f = 15 then LP_END
  else LP_UNUSED

/-- Contents of index. -/
def lp_val (e : ListPackEnc) (p : Mem) : Nat :=
  match e with
  | LP_7BIT_UINT => (p 0).toNat &&& 0x7f
  | LP_6BIT_STR => (p 0).toNat &&& 0x3f
  | LP_13BIT_INT => s13 p
  | LP_12BIT_STR => (((p 0).toNat &&& 0xf) <<< 8) ||| (p 1).toNat
  | LP_32BIT_STR => l32 (p.add 1)
  | LP_16BIT_INT => s16 (p.add 1)
  | LP_24BIT_INT => s24 (p.add 1)
  | LP_32BIT_INT => s32 (p.add 1)
  | LP_64BIT_INT => s64 (p.add 1)
  | LP_END => 0
  | LP_UNUSED => 0

/-- The element `next` finds at an opcode, the back code included. -/
def entry_at (l : RdbListPack) (n : ListPackEnc) (lval : RdbListValue) : RdbListValue :=
  let next := lval.entry + lp_size n
  if next ≤ l.end_ then
    let ival := lp_val n (l.base.mem.add lval.entry)
    let lval := if is_immed n then { lval with ival := ival, entry_len := lp_size n }
      else { lval with
        ival := ival, entry_len := lp_size n + ival, data := some next, data_len := ival }
    { lval with entry_len := lval.entry_len + lpback_size lval.entry_len }
  else lval

def next (l : RdbListPack) (lval : RdbListValue) : Bool × RdbListValue :=
  -- if a test below fails, the entry is past the end
  let lval : RdbListValue := { entry := lval.entry + lval.entry_len, entry_len := l.lpbytes }
  if lval.entry < l.end_ then
    let n := lp_code (l.base.mem lval.entry)
    if n = LP_END then (false, lval)
    else
      let lval := l.entry_at n lval
      (decide (lval.entry + lval.entry_len ≤ l.end_), lval)
  else (decide (lval.entry + lval.entry_len ≤ l.end_), lval)

def first (l : RdbListPack) : Bool × RdbListValue := l.next { entry := l.data, entry_len := 0 }

def first_ival (l : RdbListPack) : Bool × RdbListValue :=
  let (b, lval) := l.first
  (b && lval.data.isNone, lval)

def next_ival (l : RdbListPack) (lval : RdbListValue) : Bool × RdbListValue :=
  let (b, lval) := l.next lval
  (b && lval.data.isNone, lval)

end RdbListPack

end rdbparser
