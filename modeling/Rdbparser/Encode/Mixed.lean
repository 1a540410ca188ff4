import Rdbparser.Encode.Imm

/-! List packs of strings and immediate integers. -/

namespace rdbparser

open RdbListPackEncode RdbListPack format

/-- An element as it is appended. -/
inductive LpArg
  | str (arg : LinkArg)
  | int (val : Int64)

/-- The code and what is behind it. -/
def LpArg.body : LpArg → List UInt8
  | .str arg => str_code arg.text.length ++ arg.text
  | .int val => imm_code val.toInt

/-- An element as it is written. -/
def LpArg.bytes (x : LpArg) : List UInt8 := x.body ++ lpback 9 x.body.length

namespace RdbListPackEncode

def append_arg (e : RdbListPackEncode) : LpArg → RdbListPackEncode
  | .str arg => e.append arg
  | .int val => e.append_immediate_int val.toInt

/-- The same in a pass for the size. -/
def calc_arg (e : RdbListPackEncode) : LpArg → RdbListPackEncode
  | .str arg => e.calc_link arg.text.length
  | .int val => e.calc_immediate_int val.toInt

/-- What is written for the elements. -/
def encode_args (out : Mem) (xs : List LpArg) : RdbListPackEncode := (xs.foldl append_arg (init out)).append_end

/-- The pass for the size. -/
def calc_args (out : Mem) (xs : List LpArg) : RdbListPackEncode := (xs.foldl calc_arg (init out)).calc_end

/-- A string, an integer and a string in two parts. -/
def three_args : List LpArg :=
  [.str (.whole (Mem.ofList [0x61] 0) 1), .int 300, .str (.two (Mem.ofList [0x62] 0) (Mem.ofList [0x63] 0) 1 1)]

variable {e : RdbListPackEncode} {bs : List UInt8}

/-- An element of any kind is put down behind what is there. -/
theorem append_arg_written (x : LpArg) (h : Written e.p e.off bs) (hfits : bs.length + x.bytes.length < 2 ^ 32) :
    Written (e.append_arg x).p (e.append_arg x).off (bs ++ x.bytes) := by
  cases x with
  | str arg =>
    have hsize : (LpArg.str arg).bytes.length = str_size arg.text.length := by
      rw [LpArg.bytes, LpArg.body, List.length_append, List.length_append, str_size]
    obtain ⟨y, htext, hwritten⟩ := append_written arg h (hsize ▸ hfits)
    rw [LpStr.bytes, htext, ← List.length_append] at hwritten
    exact hwritten
  | int val => exact append_immediate_int_written val.toInt h hfits

/-- So are any number of them, by induction. -/
theorem append_args_written (xs : List LpArg) (h : Written e.p e.off bs)
    (hfits : bs.length + (xs.flatMap LpArg.bytes).length < 2 ^ 32) :
    Written (xs.foldl append_arg e).p (xs.foldl append_arg e).off (bs ++ xs.flatMap LpArg.bytes) := by
  induction xs generalizing e bs with
  | nil => rwa [List.flatMap_nil, List.append_nil]
  | cons x xs ih =>
    rw [List.flatMap_cons, List.length_append] at hfits
    have hrest := ih (append_arg_written x h (by omega)) (by
      rw [List.length_append]
      omega)
    rwa [List.flatMap_cons, ← List.append_assoc]

end RdbListPackEncode

end rdbparser
