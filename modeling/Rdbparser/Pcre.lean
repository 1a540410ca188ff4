import Rdbparser.Types

namespace rdbparser

/-- A letter as `strncasecmp` sees it. -/
def tolower (b : UInt8) : UInt8 := if 0x41 ≤ b ∧ b ≤ 0x5a then b + 0x20 else b

/-- `strncasecmp( s, name, n ) == 0` on two texts of `n` bytes, of which a zero is the end. -/
def strncasecmp : List UInt8 → List UInt8 → Bool
  | a :: as, b :: bs => tolower a = tolower b && (a = 0 || strncasecmp as bs)
  | _, _ => true

/-- Filter keys by pcre; `name` is the simple string to match, of `name_len` bytes, and `pcre2_match`
the result on a subject for the expression that was compiled. -/
structure PcreFilter where
  name : List UInt8
  pcre2_match : List UInt8 → Int
  ignore_case : Bool
  invert : Bool

namespace PcreFilter

/-- Whether the expression matches a text. -/
def matched (f : PcreFilter) (s : List UInt8) : Bool :=
  if f.name.length ≠ 0 then
    s.length = f.name.length && (if ¬ f.ignore_case then s = f.name else strncasecmp s f.name)
  else 0 < f.pcre2_match s

/-- Return true if key matched. -/
def match_key (f : PcreFilter) (key : RdbVal) : Bool :=
  let matched :=
    match key with
    | .str s => f.matched s
    | _ => false
  if f.invert then ! matched else matched

end PcreFilter

end rdbparser
