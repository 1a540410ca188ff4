import Rdbparser.Bytes

namespace rdbparser

/-- Converts a glob wildcard to a pcre wildcard, of bytes; a buffer without a `maxlen` has no end. -/
structure GlobCvt where
  out : Mem
  off : Nat -- off will be > maxlen on buf space failure
  maxlen : Option Nat

namespace GlobCvt

def init (o : Mem) (len : Option Nat) : GlobCvt := { out := o, off := 0, maxlen := len }

/-- `n <= maxlen` -/
def fits (g : GlobCvt) (n : Nat) : Bool :=
  match g.maxlen with
  | none => true
  | some maxlen => n ≤ maxlen

def char_out (g : GlobCvt) (c : UInt8) : GlobCvt :=
  let off := g.off + 1
  { g with off := off, out := if g.fits off then g.out.store (off - 1) [c] else g.out }

/-- The string is never empty. -/
def str_out (g : GlobCvt) (s : List UInt8) : GlobCvt :=
  let i := g.off
  let off := g.off + s.length
  { g with off := off, out := if g.fits off then g.out.store i s else g.out }

/-- "(?i)", match any case -/
def any_case : List UInt8 := [0x28, 0x3f, 0x69, 0x29]

/-- "(?s)", match newlines -/
def newlines : List UInt8 := [0x28, 0x3f, 0x73, 0x29]

/-- "\A", anchor at start -/
def at_start : List UInt8 := [0x5c, 0x41]

/-- "\z", anchor at end -/
def at_end : List UInt8 := [0x5c, 0x7a]

/-- "(*COMMIT).*?", commit and star -/
def commit_star : List UInt8 := [0x28, 0x2a, 0x43, 0x4f, 0x4d, 0x4d, 0x49, 0x54, 0x29, 0x2e, 0x2a, 0x3f]

/-- The loop over the pattern from `k` on. -/
def convert_loop (pattern : Mem) (patlen k : Nat) (inside_bracket : Bool) (g : GlobCvt) : GlobCvt :=
  if k < patlen then
    if pattern k = 0x5c then
      if k + 1 < patlen then
        let c := pattern (k + 1)
        let g := if c = 0x5c ∨ c = 0x3f ∨ c = 0x2a then g.char_out 0x5c else g
        convert_loop pattern patlen (k + 2) inside_bracket (g.char_out c)
      else convert_loop pattern patlen (k + 1) inside_bracket g
    else if ! inside_bracket then
      if pattern k = 0x2a then
        -- skip duplicate '*'
        if 0 < k ∧ pattern (k - 1) = 0x2a then convert_loop pattern patlen (k + 2) inside_bracket g
        else convert_loop pattern patlen (k + 1) inside_bracket (g.str_out commit_star)
      else if pattern k = 0x3f then convert_loop pattern patlen (k + 1) inside_bracket (g.char_out 0x2e)
      else if pattern k = 0x2e then convert_loop pattern patlen (k + 1) inside_bracket ((g.char_out 0x5c).char_out 0x2e)
      else convert_loop pattern patlen (k + 1) (inside_bracket || pattern k = 0x5b) (g.char_out (pattern k))
    else convert_loop pattern patlen (k + 1) (inside_bracket && pattern k ≠ 0x5d) (g.char_out (pattern k))
  else g
termination_by patlen - k

/-- 0 on success or -1 on failure. -/
def convert_glob (g : GlobCvt) (pattern : Mem) (patlen : Nat) (anchor_start opt_caseins : Bool) : Int × GlobCvt :=
  let g := if opt_caseins then g.str_out any_case else g
  let g := g.str_out newlines
  let g :=
    if 0 < patlen then
      let g := if pattern 0 ≠ 0x2a ∧ anchor_start then g.str_out at_start else g
      let k := if pattern 0 ≠ 0x2a then 0 else 1 -- skip anchor, starts with '*'
      let trail : Bool := k < patlen ∧ pattern (patlen - 1) = 0x2a ∧ (patlen = 1 ∨ pattern (patlen - 2) ≠ 0x5c)
      let anchor_end := ! trail
      let patlen := if trail then patlen - 1 else patlen -- no need to match trail
      let g := convert_loop pattern patlen k false g
      if anchor_end then g.str_out at_end else g
    else g
  (if g.fits g.off then 0 else -1, g)

end GlobCvt

end rdbparser
