import Rdbparser.Stream.Items

namespace rdbparser

namespace RdbStreamEntry

open format

/-- `read_entry` finds the entries `items` one after the other, each as it is stored, and then the
elements `rest`. -/
def ReadsItems (list : RdbListPack) (master rest : List ListPackElem) :
    RdbStreamEntry → RdbListValue → List StreamItem → Prop
  | _, lval, [] => list.Ahead lval rest
  | e, lval, x :: xs => ∃ e' lval', e.read_entry list lval = some (true, e', lval') ∧
      e'.flags = x.flags ∧ e'.diff = ⟨x.ms, x.ser⟩ ∧ e'.pairs list.base = some (x.pairs master) ∧
      list.Ahead lval' (xs.flatMap (StreamItem.elems master.length) ++ rest) ∧
      ReadsItems list master rest e' lval' xs

/-- `read_header` and then `read_entry` find the block `p`. -/
def ReadsBlock (list : RdbListPack) (p : StreamBlock) (rest : List ListPackElem) : Prop :=
  ∃ e lval, ({} : RdbStreamEntry).read_header list = some (true, e, lval) ∧
    list.Ahead lval (p.items.flatMap (StreamItem.elems p.master.length) ++ rest) ∧
    ReadsItems list p.master rest e lval p.items

/-- Master fields that fit in `tmp` are never released. -/
theorem Ready.in_tmp {e : RdbStreamEntry} {list : RdbListPack} {master : List ListPackElem}
    (he : e.Ready list master) (hm : master.length ≤ TMP_SIZE) : e.Live ∧ ¬ e.Shared := by
  have hmaster : e.master = .tmp 0 := by
    rcases he.laid with ⟨h, -⟩ | ⟨id, -, hlt, -⟩
    · exact h
    · rw [he.count] at hlt
      exact absurd hlt (Nat.not_lt.mpr hm)
  refine ⟨fun id hid => ?_, fun ⟨id, hid, _⟩ => ?_⟩
  · rw [hmaster] at hid
    cases hid
  · rw [hmaster] at hid
    cases hid

/-- The entries are read if each of them can be released, the last one excepted. -/
theorem reads_items_iff {list : RdbListPack} {master rest : List ListPackElem} {items : List StreamItem}
    {e : RdbStreamEntry} {lval : RdbListValue} (he : e.Ready list master) (hm : master.length ≤ TMP_SIZE)
    (hfits : ∀ x ∈ items, x.fields.Fits master.length)
    (hlen : (items.flatMap (StreamItem.elems master.length)).length < 2 ^ 32)
    (h : list.Ahead lval (items.flatMap (StreamItem.elems master.length) ++ rest)) :
    ReadsItems list master rest e lval items ↔ (items ≠ [] → e.Releasable) ∧
      ¬ (master.length = TMP_SIZE ∧ ∃ x ∈ items.dropLast, x.fields = .own []) := by
  induction items generalizing e lval with
  | nil =>
    refine ⟨fun _ => ⟨fun hne => absurd rfl hne, fun ⟨_, x, hx, _⟩ => ?_⟩, fun _ => h⟩
    cases hx
  | cons x xs ih =>
    rw [List.flatMap_cons, List.length_append] at hlen
    rw [List.flatMap_cons, List.append_assoc] at h
    have hcount := StreamFields.count_le (hfits x (List.mem_cons_self ..))
    have helems : (x.elems master.length).length = 3 + (x.fields.elems master.length).length := by
      rw [StreamItem.elems, List.length_cons, List.length_cons, List.length_cons]
      omega
    by_cases hrel : e.Releasable
    · obtain ⟨e', lval', hread, h', hdel⟩ := read_entry_run he hrel (hfits x (List.mem_cons_self ..))
        (Nat.lt_of_le_of_lt hm (by decide)) (by omega) h
      have hlive' := (hdel.ready.in_tmp hm).1
      have hrel' : e'.Releasable ↔ ¬ (master.length = TMP_SIZE ∧ x.fields = .own []) := by
        rw [hdel.releasable]
        exact and_iff_right fun _ => hlive'
      have hstep : ReadsItems list master rest e lval (x :: xs) ↔ ReadsItems list master rest e' lval' xs := by
        constructor
        · rintro ⟨e₁, lval₁, hread₁, -, -, -, -, hxs⟩
          rw [hread] at hread₁
          cases hread₁
          exact hxs
        · intro hxs
          exact ⟨e', lval', hread, hdel.flags, hdel.diff, hdel.pairs fun _ => hlive', h', hxs⟩
      rw [hstep, ih hdel.ready (fun y hy => hfits y (List.mem_cons_of_mem x hy)) (by omega) h', hrel']
      cases xs with
      | nil => simp [hrel]
      | cons y ys =>
        rw [List.dropLast_cons_cons]
        simp only [List.mem_cons, exists_eq_or_imp, ne_eq, reduceCtorEq, not_false_eq_true, true_implies, hrel,
          true_and]
        rw [and_or_left, not_or]
    · refine ⟨fun ⟨e', lval', hread, _⟩ => ?_, fun ⟨h, _⟩ => absurd (h (List.cons_ne_nil x xs)) hrel⟩
      rw [read_entry_none hrel h] at hread
      cases hread

/-- There is room for as many master fields as a block has. -/
theorem block_small {b : Ptr} {sz : Nat} {list : RdbListPack} (hinit : RdbListPack.init b sz = some list)
    {p : StreamBlock} {rest : List ListPackElem} (h : list.Ahead list.start (p.elems ++ rest)) :
    p.master.length < 2 ^ 32 ∧ (p.items.flatMap (StreamItem.elems p.master.length)).length < 2 ^ 32 := by
  obtain ⟨-, hdata, hend, -, hlt⟩ := RdbListPack.init_some hinit
  have hpos : 0 < list.start.entry + list.start.entry_len := by
    rw [RdbListPack.start, hdata]
    decide
  rcases h.length_le hend hpos with hnil | hle
  · rw [StreamBlock.elems] at hnil
    cases hnil
  · rw [StreamBlock.elems] at hle
    simp only [List.cons_append, List.length_cons, List.length_append] at hle
    omega

end RdbStreamEntry

open format RdbStreamEntry

/-- The header of a block with at most 64 master fields and its entries are read as they are stored, unless
there are 64 master fields and an entry without fields has another one behind it: its fields are then
a place behind `tmp`, which is given to `free`. -/
theorem read_block_iff {b : Ptr} {sz : Nat} {list : RdbListPack} (hinit : RdbListPack.init b sz = some list)
    (p : StreamBlock) (hm : p.master.length ≤ TMP_SIZE) {rest : List ListPackElem}
    (h : list.Ahead list.start (p.elems ++ rest)) :
    ReadsBlock list p rest ↔
      ¬ (p.master.length = TMP_SIZE ∧ ∃ x ∈ p.items.dropLast, x.fields = .own []) := by
  obtain ⟨hmaster, hitems⟩ := block_small hinit h
  have hs : Sound ({} : RdbStreamEntry) := by
    refine ⟨?_, ?_, ?_, ?_⟩ <;> intro id hid <;> cases hid
  obtain ⟨e, lval, hheader, h', hready, -, -, hrel, -⟩ := read_header_run hs
    (by rw [LIST_VALUE_SIZE]; omega) h
  have hread := reads_items_iff hready hm p.fits hitems h'
  have hfresh : e.Releasable := hrel.mpr ⟨trivial, trivial⟩
  constructor
  · rintro ⟨e₁, lval₁, hheader₁, -, hitems₁⟩
    rw [hheader] at hheader₁
    cases hheader₁
    exact (hread.mp hitems₁).2
  · intro hfull
    exact ⟨e, lval, hheader, h', hread.mpr ⟨fun _ => hfresh, hfull⟩⟩

/-- A listpack of integers of 7 bits. -/
def RdbListPack.uints (xs : List UInt8) : List UInt8 :=
  let elems := xs.flatMap (fun x => [x, 1]) ++ [0xff]
  le_bytes 4 (6 + elems.length) ++ le_bytes 2 xs.length ++ elems

def RdbListPack.of_uints (xs : List UInt8)
    (h : (RdbListPack.init (.lit (uints xs)) (uints xs).length).isSome := by decide +kernel) : RdbListPack :=
  (RdbListPack.init (.lit (uints xs)) (uints xs).length).get h

/-- An entry with a field of its own, and one with the master field. -/
def format.StreamBlock.mixed : StreamBlock where
  items_count := 2
  deleted_count := 0
  master := [.int 7]
  term := .int 0
  items := [.of_own 5 0 [(.int 8, .int 9)], .of_same 5 1 [.int 6]]
  fits := by simp [StreamFields.Fits, StreamItem.of_own, StreamItem.of_same]

theorem read_block_mixed : ReadsBlock (.of_uints [2, 0, 1, 7, 0, 0, 5, 0, 1, 8, 9, 6, 2, 5, 1, 6, 4]) .mixed [] :=
  (read_block_iff (Option.some_get _).symm .mixed (by decide) (by decide +kernel)).mpr
    fun h => absurd h.1 (by decide)

/-- 64 master fields, and two entries that have none of these and no other. -/
def format.StreamBlock.full : StreamBlock where
  items_count := 2
  deleted_count := 0
  master := List.replicate 64 (.int 7)
  term := .int 0
  items := [.of_own 5 0 [], .of_own 5 1 []]
  fits := by simp [StreamFields.Fits, StreamItem.of_own]

/-- The entry without fields can not be released. -/
theorem full_block_not_read : ¬ ∀ (b : Ptr) (sz : Nat) (list : RdbListPack) (p : StreamBlock)
    (rest : List ListPackElem), RdbListPack.init b sz = some list → p.master.length ≤ TMP_SIZE →
      list.Ahead list.start (p.elems ++ rest) → ReadsBlock list p rest := by
  intro h
  let list := RdbListPack.of_uints
    ([2, 0, 64] ++ List.replicate 64 7 ++ [0] ++ [0, 5, 0, 0, 4] ++ [0, 5, 1, 0, 4])
  obtain ⟨e, lval, hheader, -, e₁, lval₁, hread₁, -, -, -, -, e₂, lval₂, hread₂, -⟩ :=
    h _ _ list .full [] (Option.some_get _).symm (by decide) (by decide +kernel)
  have hnone : (do let r ← ({} : RdbStreamEntry).read_header list
                   let r ← r.2.1.read_entry list r.2.2
                   r.2.1.read_entry list r.2.2).isNone = true := by
    decide +kernel
  simp [hheader, hread₁, hread₂] at hnone

end rdbparser
