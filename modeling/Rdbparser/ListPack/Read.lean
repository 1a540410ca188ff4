import Rdbparser.Format.ListPack
import Rdbparser.Walk
import Rdbparser.ZipList.Immediate

/-! The walk over a list pack. -/

namespace rdbparser.RdbListPack

open format ListPackEnc

def walk (l : RdbListPack) : Walk RdbListValue ListPackElem where
  next := l.next
  found := l.elem
  pos lval := lval.entry + lval.entry_len

/-- The sizes that `LP_SIZE` packs. -/
theorem lp_size_eq (e : ListPackEnc) : lp_size e =
    match e with
    | LP_UNUSED => 0
    | LP_7BIT_UINT | LP_6BIT_STR | LP_END => 1
    | LP_13BIT_INT | LP_12BIT_STR => 2
    | LP_16BIT_INT => 3
    | LP_24BIT_INT => 4
    | LP_32BIT_STR | LP_32BIT_INT => 5
    | LP_64BIT_INT => 9 := by
  cases e <;> decide

variable {l : RdbListPack} {lval : RdbListValue} {e : ListPackEnc}

/-- An immediate integer. -/
theorem next_imm (hcode : lp_code (l.base.mem (l.walk.pos lval)) = e) (himm : is_immed e = true) (hne : e ≠ LP_END)
    (hend : l.walk.pos lval + (lp_size e + lpback_size (lp_size e)) ≤ l.end_) :
    ∃ t, l.walk.next lval = (true, t) ∧ l.walk.found t = .int (lp_val e (l.base.mem.add (l.walk.pos lval))) ∧
      l.walk.pos t = l.walk.pos lval + (lp_size e + lpback_size (lp_size e)) := by
  have hpos := lpback_size_pos (lp_size e)
  have hrun : l.next lval = (true,
      { entry := lval.entry + lval.entry_len, entry_len := lp_size e + lpback_size (lp_size e)
        ival := lp_val e (l.base.mem.add (lval.entry + lval.entry_len)) }) := by
    change lp_code (l.base.mem (lval.entry + lval.entry_len)) = e at hcode
    change lval.entry + lval.entry_len + _ ≤ _ at hend
    have hin : lval.entry + lval.entry_len + lp_size e ≤ l.end_ := by omega
    rw [RdbListPack.next]
    simp only [if_pos (show lval.entry + lval.entry_len < l.end_ by omega), hcode, if_neg hne, entry_at, if_pos hin,
      himm, if_true, decide_eq_true hend]
  exact ⟨_, hrun, rfl, rfl⟩

/-- A string, or what is taken for one. -/
theorem next_str {n : Nat} (hcode : lp_code (l.base.mem (l.walk.pos lval)) = e) (himm : is_immed e = false)
    (hval : lp_val e (l.base.mem.add (l.walk.pos lval)) = n) (hin : l.walk.pos lval + lp_size e ≤ l.end_)
    (hlt : l.walk.pos lval < l.end_) :
    l.walk.next lval = (decide (l.walk.pos lval + (lp_size e + n + lpback_size (lp_size e + n)) ≤ l.end_),
      { entry := l.walk.pos lval, entry_len := lp_size e + n + lpback_size (lp_size e + n), ival := n
        data := some (l.walk.pos lval + lp_size e), data_len := n }) := by
  have hne : e ≠ LP_END := by
    rintro rfl
    exact absurd himm (by decide)
  change lp_code (l.base.mem (lval.entry + lval.entry_len)) = e at hcode
  change lp_val e (l.base.mem.add (lval.entry + lval.entry_len)) = n at hval
  change lval.entry + lval.entry_len + _ ≤ _ at hin
  change lval.entry + lval.entry_len < _ at hlt
  change l.next lval = _
  rw [RdbListPack.next]
  simp only [if_pos hlt, hcode, if_neg hne, entry_at, if_pos hin, himm, Bool.false_eq_true, if_false, hval]
  rfl

/-- Nothing is found at the end marker. -/
theorem next_end (hlast : l.base.mem (l.walk.pos lval) = 0xff) (hend : l.walk.pos lval < l.end_) :
    (l.walk.next lval).1 = false := by
  have hlt : lval.entry + lval.entry_len < l.end_ := hend
  have hcode : lp_code (l.base.mem (lval.entry + lval.entry_len)) = LP_END := by
    change lp_code (l.base.mem (l.walk.pos lval)) = _
    rw [hlast]
    decide
  change (l.next lval).1 = false
  rw [RdbListPack.next]
  simp only [if_pos hlt, if_pos hcode]

/-- What `init` makes of a list pack. -/
theorem init_listpack {lplen : Nat} {elems : List UInt8} (hfits : 6 + elems.length + 1 < 2 ^ 32) {b : Ptr}
    (hb : b.mem.Starts (listpack lplen elems)) :
    init b (listpack lplen elems).length = some { lpbytes := 6 + elems.length + 1, lplen := lplen % 2 ^ 16
                                                  base := b, data := 6, end_ := 6 + elems.length + 1 } := by
  have hlen := listpack_length lplen elems
  rw [listpack, Mem.starts_append, Mem.starts_append, le_bytes_length] at hb
  obtain ⟨hbytes, hllen, -⟩ := hb
  have hbytes : b.mem.take 4 = le_bytes 4 (6 + elems.length + 1) := by simpa using hbytes.take
  have hllen : (b.mem.add 4).take 2 = le_bytes 2 lplen := by simpa using hllen.take
  have hval : le_nat (le_bytes 4 (6 + elems.length + 1)) = 6 + elems.length + 1 := by
    rw [le_nat_le_bytes, Nat.mod_eq_of_lt (by omega)]
  rw [init, if_neg (by omega)]
  simp only [hbytes, hval, hllen, le_nat_le_bytes]
  rw [if_neg (by omega)]
  rfl

section elements

variable {α : Type} {bytes : α → List UInt8} (value : α → ListPackElem) (Good : α → Prop)

/-- A list pack whose elements are read back one by one, some of them with another value. -/
theorem listpack_finds
    (hgood : ∀ a (l : RdbListPack) lval, Good a → (l.base.mem.add (l.walk.pos lval)).Starts (bytes a) →
      l.walk.pos lval + (bytes a).length < l.end_ → ∃ t, l.walk.next lval = (true, t) ∧ l.walk.found t = value a ∧
        l.walk.pos t = l.walk.pos lval + (bytes a).length)
    (hbad : ∀ a (l : RdbListPack) lval, ¬ Good a → (l.base.mem.add (l.walk.pos lval)).Starts (bytes a) →
      l.walk.pos lval + (bytes a).length < l.end_ → ∀ t, l.walk.next lval = (true, t) → l.walk.found t ≠ value a)
    {lplen : Nat} {as : List α} (hfits : 6 + (as.flatMap bytes).length + 1 < 2 ^ 32) {b : Ptr}
    (hb : b.mem.Starts (listpack lplen (as.flatMap bytes))) :
    ∃ l, init b (listpack lplen (as.flatMap bytes)).length = some l ∧
      (l.walk.Finds (fun i => b.mem i = 0xff) l.start (as.map value) ↔ ∀ a ∈ as, Good a) ∧
      ((∀ a ∈ as, Good a) →
        l.walk.Yields (fun i => b.mem i = 0xff) l.start (as.map fun a => ((bytes a).length, value a))) := by
  refine ⟨_, init_listpack hfits hb, ?_⟩
  rw [listpack, Mem.starts_append, Mem.starts_append, Mem.add_add, le_bytes_length, le_bytes_length] at hb
  have hlimit : 6 + (as.flatMap bytes).length < 6 + (as.flatMap bytes).length + 1 := Nat.lt_succ_self _
  exact ⟨Walk.finds_iff_of_layout Good _ (fun a s => hgood a _ s) (fun a s => hbad a _ s)
    (fun s => next_end) hb.2.2 hlimit,
    Walk.yields_of_layout Good _ (fun a s => hgood a _ s) (fun s => next_end) hb.2.2 hlimit⟩

/-- The elements are found, up to the end of the list pack, where all of them are read back. -/
theorem listpack_finds_iff
    (hgood : ∀ a (l : RdbListPack) lval, Good a → (l.base.mem.add (l.walk.pos lval)).Starts (bytes a) →
      l.walk.pos lval + (bytes a).length < l.end_ → ∃ t, l.walk.next lval = (true, t) ∧ l.walk.found t = value a ∧
        l.walk.pos t = l.walk.pos lval + (bytes a).length)
    (hbad : ∀ a (l : RdbListPack) lval, ¬ Good a → (l.base.mem.add (l.walk.pos lval)).Starts (bytes a) →
      l.walk.pos lval + (bytes a).length < l.end_ → ∀ t, l.walk.next lval = (true, t) → l.walk.found t ≠ value a)
    {lplen : Nat} {as : List α} (hfits : 6 + (as.flatMap bytes).length + 1 < 2 ^ 32) {b : Ptr}
    (hb : b.mem.Starts (listpack lplen (as.flatMap bytes))) :
    (∃ l, init b (listpack lplen (as.flatMap bytes)).length = some l ∧ l.first = l.next l.start ∧
      l.walk.Finds (fun i => i + 1 = (listpack lplen (as.flatMap bytes)).length ∧
        b.mem i = 0xff) l.start (as.map value)) ↔
    ∀ a ∈ as, Good a := by
  obtain ⟨l, hinit, hfinds, hyields⟩ := listpack_finds value Good hgood hbad hfits hb
  constructor
  · rintro ⟨l', hinit', -, xs, hxs, hyields'⟩
    obtain rfl := Option.some.inj (hinit.symm.trans hinit')
    exact hfinds.mp ⟨xs, hxs, hyields'.stops fun h => h.2⟩
  · intro hall
    refine ⟨l, hinit, rfl, _, ?_, (hyields hall).stops fun hlast => ⟨?_, hlast⟩⟩
    · rw [List.map_map]
      rfl
    · obtain rfl := Option.some.inj ((init_listpack hfits hb).symm.trans hinit)
      rw [List.map_map, listpack_length, List.length_flatMap]
      rfl

end elements

end rdbparser.RdbListPack
