import Rdbparser.Body
import Rdbparser.Format.Record

namespace rdbparser.format

/-- A score of a `RDB_ZSET`: text with its length in a byte, or one of three codes. -/
inductive ScoreText
  | text (s : List UInt8) (h : s.length < 253)
  | nan
  | inf
  | neg_inf

def ScoreText.bytes : ScoreText → List UInt8
  | text s _ => UInt8.ofNat s.length :: s
  | nan => [253]
  | inf => [254]
  | neg_inf => [255]

def ScoreText.val : ScoreText → RdbVal
  | text s _ => .str s
  | nan => .str RdbDecode.score_nan
  | inf => .str RdbDecode.score_inf
  | neg_inf => .str RdbDecode.score_neg_inf

/-- A score of a `RDB_ZSET_2`: the 64 bits of a double. -/
structure ScoreBits where
  bits : Nat
  h : bits < 2 ^ 64

def ScoreBits.bytes (s : ScoreBits) : List UInt8 := le_bytes 8 s.bits

def ScoreBits.val (s : ScoreBits) : RdbVal := .dbl s.bits

/-- The value of a sorted set, in either of its two types. -/
inductive ZSet (E : Env)
  | zset (n : StoredLen) (members : List (StoredStr E × ScoreText)) (hn : n.val = members.length)
  | zset_2 (n : StoredLen) (members : List (StoredStr E × ScoreBits)) (hn : n.val = members.length)

namespace ZSet

variable {E : Env}

def type : ZSet E → RdbType
  | zset .. => .RDB_ZSET
  | zset_2 .. => .RDB_ZSET_2

def type_byte : ZSet E → UInt8
  | zset .. => 3
  | zset_2 .. => 5

def head : ZSet E → Head E
  | zset n _ _ | zset_2 n _ _ => .len n

/-- The members with their scores. -/
def plain : ZSet E → List UInt8
  | zset _ xs _ => xs.flatMap fun x => x.1.bytes ++ x.2.bytes
  | zset_2 _ xs _ => xs.flatMap fun x => x.1.bytes ++ x.2.bytes

/-- One callback per member, in order. -/
def calls : ZSet E → List Callback
  | zset n xs _ => xs.mapIdx fun num x => .d_zset num n.val x.1.val x.2.val
  | zset_2 n xs _ => xs.mapIdx fun num x => .d_zset num n.val x.1.val x.2.val

/-- The members as they are stored. -/
def members : ZSet E → List (StoredStr E)
  | zset _ xs _ => xs.map Prod.fst
  | zset_2 _ xs _ => xs.map Prod.fst

instance : Encoding E (ZSet E) where
  type := type
  type_byte := type_byte
  head := head
  plain := plain
  calls := calls
  get_rdb_type_byte v := by cases v <;> rfl
  type_ne_bad v := by cases v <;> exact RdbType.noConfusion
  get_rdb_meta_byte v := by cases v <;> rfl
  of_value v c hc := by
    cases v with
    | zset | zset_2 =>
      obtain ⟨num, hnum, rfl⟩ := List.mem_mapIdx.mp hc
      rfl

end ZSet

end rdbparser.format
