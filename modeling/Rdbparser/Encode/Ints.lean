import Rdbparser.Encode.Overflow

/-! List packs of immediate integers that are written and read back. -/

namespace rdbparser.RdbListPackEncode

open format RdbListPack ListPackEnc

/-- What was written is read back as the integers it was written for, if and only if its size fits and each of
them is kept. They may be any integers of 64 bits, in any number, and nothing is assumed of the memory they are
written to. -/
theorem list_encode_ints_iff (out : Mem) (vs : List Int64) (blk : Block) :
    (∃ l, RdbListPack.init ⟨blk, (encode_ints out vs).p⟩ (encode_ints out vs).off = some l ∧ l.first = l.next l.start ∧
      l.walk.Finds (fun i => i + 1 = (encode_ints out vs).off ∧ (encode_ints out vs).p i = 0xff) l.start
        (vs.map fun v => .int (twos 64 v.toInt))) ↔
    6 + (vs.flatMap fun v => imm_bytes v.toInt).length + 1 < 2 ^ 32 ∧ ∀ v ∈ vs, Kept v.toInt := by
  by_cases hfits : 6 + (vs.flatMap fun v => imm_bytes v.toInt).length + 1 < 2 ^ 32
  · obtain ⟨lplen, hstarts, hoff⟩ := encode_ints_written out vs hfits
    rw [and_iff_right hfits, hoff, listpack_imm_iff hfits (b := ⟨blk, (encode_ints out vs).p⟩) hstarts]
    exact forall₂_congr fun v _ => imm_read_eq v.toInt
  · refine iff_of_false ?_ fun h => hfits h.1
    rintro ⟨l, hinit, -, hfinds⟩
    exact hfits (found_fits hinit hfinds)

/-- -1 is read as 4095. -/
theorem list_encode_minus_one : ¬ ∀ (out : Mem) (vs : List Int64) (blk : Block),
    ∃ l, RdbListPack.init ⟨blk, (encode_ints out vs).p⟩ (encode_ints out vs).off = some l ∧ l.first = l.next l.start ∧
      l.walk.Finds (fun i => i + 1 = (encode_ints out vs).off ∧ (encode_ints out vs).p i = 0xff) l.start
        (vs.map fun v => .int (twos 64 v.toInt)) := by
  intro h
  have hfound := h 0 [-1] .input
  have hfits : 6 + ([(-1 : Int64)].flatMap fun v => imm_bytes v.toInt).length + 1 < 2 ^ 32 := by decide +kernel
  obtain ⟨lplen, hstarts, hoff⟩ := encode_ints_written 0 [-1] hfits
  rw [hoff, listpack_imm_iff hfits (b := ⟨.input, (encode_ints 0 [-1]).p⟩) hstarts] at hfound
  exact absurd (hfound (-1) List.mem_cons_self) (by decide +kernel)

end rdbparser.RdbListPackEncode
