import Rdbparser.Stream.Block
import Rdbparser.Stream.Calls

namespace rdbparser

/-- How many of the next `n` elements are there. -/
def RdbListPack.found (list : RdbListPack) : Nat → RdbListValue → Nat
  | 0, _ => 0
  | n + 1, lval =>
    match list.next lval with
    | (false, _) => 0
    | (true, lval) => list.found n lval + 1

/-- No more elements are found than are looked for. -/
theorem RdbListPack.found_le (list : RdbListPack) (n : Nat) (lval : RdbListValue) : list.found n lval ≤ n := by
  induction n generalizing lval with
  | zero => exact Nat.le_refl _
  | succ n ih =>
    unfold found
    split
    · exact Nat.zero_le _
    · exact Nat.succ_le_succ (ih _)

namespace RdbStreamEntry

/-- The state of an entry after calls that were accepted. -/
inductive Reached : RdbStreamEntry → Prop
  | start : Reached {}
  | call {e e' : RdbStreamEntry} {c : StreamCall} {lval : RdbListValue} :
    Reached e → e.call c = some (true, e', lval) → Reached e'
  | numbered {e : RdbStreamEntry} (num cnt : Nat) (id : RdbStreamRecId) :
    Reached e → Reached { e with num := num, cnt := cnt, id := id }

/-- The slots of a block of that many bytes. -/
def slots (bytes : Nat) : Nat := bytes / LIST_VALUE_SIZE

/-- No master field is stored behind its array. -/
def HeaderInside (e : RdbStreamEntry) (list : RdbListPack) : Prop := e.read_header list ≠ none

/-- No field and no value of an entry that comes to them is stored behind its array. -/
def EntryInside (e : RdbStreamEntry) (list : RdbListPack) (lval : RdbListValue) : Prop :=
  ∀ e' lval', e.opened list lval = some (e', lval') → e'.place.read_fields list lval' ≠ none

/-- The bytes of the master fields can be counted in 64 bits, or the list pack has no more elements than
the block that is allocated has slots. -/
def HeaderFits (e : RdbStreamEntry) (list : RdbListPack) : Prop :=
  ∀ e' lval, e.read_counts list = (true, e', lval) →
    LIST_VALUE_SIZE * e'.master_field_count < 2 ^ 64 ∨
      list.found e'.master_field_count lval ≤ slots (LIST_VALUE_SIZE * e'.master_field_count % 2 ^ 64)

/-- The bytes of the fields can be counted in 64 bits. -/
def EntryFits (e : RdbStreamEntry) (list : RdbListPack) (lval : RdbListValue) : Prop :=
  ∀ e' lval', e.opened list lval = some (e', lval') → LIST_VALUE_SIZE * e'.entry_field_count < 2 ^ 64

/-- The first index, then the others. -/
theorem forall_from_succ {P : Nat → Prop} {i n : Nat} :
    (∀ k < n + 1, P (i + k)) ↔ P i ∧ ∀ k < n, P (i + 1 + k) := by
  rw [Nat.forall_lt_succ_left]
  simp only [Nat.add_zero, Nat.add_assoc, Nat.add_comm 1]

theorem store_ne_none {e : RdbStreamEntry} {p : ArrPtr} {i : Nat} {v : RdbListValue} {e' : RdbStreamEntry}
    (h : e.store p i v = some e') : e.inside p i = true := by
  cases hin : e.inside p i with
  | true => rfl
  | false =>
    rw [store_none.mpr hin] at h
    cases h

/-- The master fields are stored as far as the list pack has them. -/
theorem read_master_inside {list : RdbListPack} {i n : Nat} {e : RdbStreamEntry} {lval : RdbListValue} :
    read_master list i n e lval ≠ none ↔
      ∀ k < list.found n lval, e.inside e.master (i + k) = true := by
  induction n generalizing i e lval with
  | zero => simp [read_master, RdbListPack.found]
  | succ n ih =>
    rcases hnext : list.next lval with ⟨b, lval₁⟩
    cases b with
    | false => simp [read_master, RdbListPack.found, hnext]
    | true =>
      simp only [read_master, RdbListPack.found, hnext]
      rw [forall_from_succ (P := fun k => e.inside e.master k = true)]
      cases hstore : e.store e.master i lval₁ with
      | none =>
        have hin := store_none.mp hstore
        simp [hin]
      | some e₁ =>
        have hkept := (store_get hstore).1
        have hmaster : e₁.master = e.master := by rw [hkept]
        simp only [ih, hkept.inside, hmaster]
        exact ⟨fun h => ⟨store_ne_none hstore, h⟩, And.right⟩

/-- The fields and values are stored all, whether the list pack has them or not. -/
theorem read_pairs_inside {list : RdbListPack} {i n : Nat} {b : Bool} {e : RdbStreamEntry}
    {lval : RdbListValue} : read_pairs list i n b e lval ≠ none ↔
      ∀ k < n, e.inside e.values (i + k) = true ∧
        (e.same_fields = false → e.inside e.fields (i + k) = true) := by
  induction n generalizing i b e lval with
  | zero => simp [read_pairs]
  | succ n ih =>
    rw [forall_from_succ (P := fun k => e.inside e.values k = true ∧
      (e.same_fields = false → e.inside e.fields k = true))]
    cases hsame : e.same_fields with
    | true =>
      simp only [read_pairs, hsame, if_true]
      cases hvalue : e.store e.values i (list.next lval).2 with
      | none =>
        have hin := store_none.mp hvalue
        simp [hin]
      | some e₁ =>
        have hkept := (store_get hvalue).1
        have hvalues : e₁.values = e.values := by rw [hkept]
        have hsame₁ : e₁.same_fields = true := by
          rw [hkept]
          exact hsame
        have hin := store_ne_none hvalue
        simp [ih, hkept.inside, hvalues, hsame₁, hin]
    | false =>
      simp only [read_pairs, hsame, Bool.false_eq_true, if_false]
      cases hfield : e.store e.fields i (list.next lval).2 with
      | none =>
        have hin := store_none.mp hfield
        simp [hin]
      | some e₁ =>
        have hkept₁ := (store_get hfield).1
        have hvalues₁ : e₁.values = e.values := by rw [hkept₁]
        have hinf := store_ne_none hfield
        dsimp only
        cases hvalue : e₁.store e₁.values i (list.next (list.next lval).2).2 with
        | none =>
          have hin := store_none.mp hvalue
          rw [hkept₁.inside, hvalues₁] at hin
          simp [hin]
        | some e₂ =>
          have hkept := hkept₁.trans (store_get hvalue).1
          have hvalues : e₂.values = e.values := by rw [hkept]
          have hfields : e₂.fields = e.fields := by rw [hkept]
          have hsame₂ : e₂.same_fields = false := by
            rw [hkept]
            exact hsame
          have hinv := store_ne_none hvalue
          rw [hkept₁.inside, hvalues₁] at hinv
          simp [ih, hkept.inside, hvalues, hfields, hsame₂, hinf, hinv]

/-- The fields of an entry are stored inside if and only if all of its places are, those of the fields only where they
are its own. -/
theorem read_fields_inside {list : RdbListPack} {e : RdbStreamEntry} {lval : RdbListValue} :
    e.read_fields list lval ≠ none ↔ ∀ k < e.entry_field_count, e.inside e.values k = true ∧
      (e.same_fields = false → e.inside e.fields k = true) := by
  have hpairs := @read_pairs_inside list 0 e.entry_field_count true e lval
  simp only [Nat.zero_add] at hpairs
  rw [← hpairs]
  unfold read_fields
  dsimp only
  split
  · next h => simp [h]
  · next h => simp [h]

/-- An array for `n` values: slots of `tmp`, or a block of the size that is asked for. -/
def Allocated (e : RdbStreamEntry) (p : ArrPtr) (n : Nat) : Prop :=
  (∃ j, p = .tmp j ∧ j + n ≤ TMP_SIZE) ∨
    ∃ id, p = .heap id ∧ id ∉ e.freed ∧ e.size id = LIST_VALUE_SIZE * n % 2 ^ 64

theorem inside_slots {e : RdbStreamEntry} {id : Nat} (hfreed : id ∉ e.freed) (k : Nat) :
    e.inside (.heap id) k = true ↔ k < slots (e.size id) := by
  have hpos : 0 < LIST_VALUE_SIZE := by decide
  rw [slots, Nat.lt_iff_add_one_le, Nat.le_div_iff_mul_le hpos, Nat.mul_comm]
  exact decide_eq_true_iff.trans ⟨And.right, fun h => ⟨hfreed, h⟩⟩

/-- The slots of a block are enough if and only if its size has not wrapped. -/
theorem slots_wrapped {n : Nat} :
    n ≤ slots (LIST_VALUE_SIZE * n % 2 ^ 64) ↔ LIST_VALUE_SIZE * n < 2 ^ 64 := by
  rw [slots, Nat.le_div_iff_mul_le (by decide), LIST_VALUE_SIZE]
  omega

/-- The slots of an array are inside of its block if and only if the size it was allocated with has not wrapped around
64 bits. -/
theorem Allocated.inside_iff {e : RdbStreamEntry} {p : ArrPtr} {n : Nat} (h : e.Allocated p n) :
    (∀ k < n, e.inside p k = true) ↔ LIST_VALUE_SIZE * n < 2 ^ 64 := by
  rcases h with ⟨j, rfl, hle⟩ | ⟨id, rfl, hfreed, hsize⟩
  · refine ⟨fun _ => ?_, fun _ k hk => inside_tmp hle hk⟩
    rw [TMP_SIZE] at hle
    rw [LIST_VALUE_SIZE]
    omega
  · simp only [inside_slots hfreed, hsize]
    rw [← slots_wrapped]
    refine ⟨fun h => ?_, fun h k hk => Nat.lt_of_lt_of_le hk h⟩
    by_contra hlt
    exact Nat.lt_irrefl _ (h _ (Nat.lt_of_not_le hlt))

/-- The master fields are not read yet, or they are in `tmp` and fit there, or they are in a block. -/
def Based (e : RdbStreamEntry) : Prop :=
  (e.master = .null ∧ e.master_field_count = 0) ∨ (e.master = .tmp 0 ∧ e.master_field_count ≤ TMP_SIZE) ∨
    ∃ id, e.master = .heap id

theorem Based.room {e : RdbStreamEntry} (h : e.Based) : e.room.1 + e.room.2 = TMP_SIZE := by
  rcases h with ⟨hmaster, -⟩ | ⟨hmaster, hle⟩ | ⟨id, hmaster⟩
  · rw [RdbStreamEntry.room, if_neg (by rw [hmaster]; exact ArrPtr.noConfusion), Nat.zero_add]
  · rw [RdbStreamEntry.room, if_pos hmaster, sub64, if_pos hle, Nat.add_sub_of_le hle]
  · rw [RdbStreamEntry.room, if_neg (by rw [hmaster]; exact ArrPtr.noConfusion), Nat.zero_add]

/-- An entry finds room of the size it asks for. -/
theorem place_allocated {e : RdbStreamEntry} (hs : e.Sound) (hb : e.Based) (hfields : e.fields = .null)
    (hvalues : e.values = .null) (hnull : e.master = .null → e.same_fields = false) :
    e.place.Allocated e.place.values e.entry_field_count ∧
      (e.same_fields = false → e.place.Allocated e.place.fields e.entry_field_count) := by
  have hroom := hb.room
  have hnew : e.mallocs ∉ e.freed := fun h => Nat.lt_irrefl _ (hs.freed _ h)
  have hnew' : e.mallocs + 1 ∉ e.freed := fun h => absurd (hs.freed _ h) (by omega)
  have hne : e.mallocs ≠ e.mallocs + 1 := Nat.ne_of_lt (Nat.lt_succ_self _)
  cases hsame : e.same_fields with
  | false =>
    rcases place_own_cases hfields hvalues hsame with ⟨hfit, h⟩ | ⟨hfit, -, h⟩ | ⟨-, h⟩
    · rw [h]
      exact ⟨.inl ⟨_, rfl, by omega⟩, fun _ => .inl ⟨_, rfl, by omega⟩⟩
    · rw [h]
      exact ⟨.inr ⟨_, rfl, hnew, if_pos rfl⟩, fun _ => .inl ⟨_, rfl, by omega⟩⟩
    · rw [h]
      exact ⟨.inr ⟨_, rfl, hnew', if_pos rfl⟩, fun _ => .inr ⟨_, rfl, hnew, (if_neg hne).trans (if_pos rfl)⟩⟩
  | true =>
    have hmaster : e.master ≠ .null := fun h => by
      rw [hnull h] at hsame
      cases hsame
    refine ⟨?_, fun h => by cases h⟩
    rcases place_same_cases hmaster hvalues hsame with ⟨hfit, h⟩ | ⟨-, h⟩
    · rw [h]
      exact .inl ⟨_, rfl, by omega⟩
    · rw [h]
      exact .inr ⟨_, rfl, hnew, if_pos rfl⟩

theorem place_master_based (e : RdbStreamEntry) : e.place_master.Based := by
  rcases place_master_cases e with ⟨-, h⟩ | ⟨hle, h⟩
  · rw [h]
    exact .inr (.inr ⟨_, rfl⟩)
  · rw [h]
    exact .inr (.inl ⟨rfl, hle⟩)

theorem Based.of_eq {e e' : RdbStreamEntry} (h : e.Based) (hmaster : e'.master = e.master)
    (hcount : e'.master_field_count = e.master_field_count) : e'.Based := by
  rw [Based, hmaster, hcount]
  exact h

/-- A call that is accepted leaves the master fields in an array that they fit. -/
theorem Based.call {e e' : RdbStreamEntry} {c : StreamCall} {lval : RdbListValue} (hs : e.Sound) (hb : e.Based)
    (h : e.call c = some (true, e', lval)) : e'.Based := by
  cases c with
  | header list =>
    rcases read_header_held h with ⟨-, hb, -⟩ | ⟨-, hkept⟩
    · cases hb
    · exact (place_master_based _).of_eq (by rw [hkept]) (by rw [hkept])
  | entry list lval₀ =>
    rcases read_entry_held hs h with ⟨-, hb, -⟩ | ⟨-, hb, -⟩ | ⟨e₁, lval₁, hopened, hkept⟩
    · cases hb
    · cases hb
    · obtain ⟨-, hheld, -, hcount⟩ := opened_held hs hopened
      have hplace := (opened_allotted hs hopened).2.eq
      refine hb.of_eq ?_ ?_
      · rw [hkept, hplace]
        exact (held_eq hheld).1
      · rw [hkept, hplace]
        exact hcount

theorem Reached.based {e : RdbStreamEntry} (h : e.Reached) : e.Sound ∧ e.Based := by
  induction h with
  | start => exact ⟨sound_start, .inl ⟨rfl, rfl⟩⟩
  | call _ hcall ih => exact ⟨ih.1.call hcall, ih.2.call ih.1 hcall⟩
  | numbered num cnt id _ ih => exact ⟨ih.1.of_held rfl, ih.2.of_eq rfl rfl⟩

/-- Behind its counts, a header is read inside if and only if its master fields are. -/
theorem read_header_counted {e e' : RdbStreamEntry} {list : RdbListPack} {lval : RdbListValue}
    (h : e.read_counts list = (true, e', lval)) :
    e.read_header list ≠ none ↔ read_master list 0 e'.master_field_count e'.place_master lval ≠ none := by
  unfold read_header
  rw [h]
  dsimp only
  rcases read_master list 0 e'.master_field_count e'.place_master lval with - | ⟨b, e'', lval'⟩
  · simp
  · cases b <;> simp

/-- The first `n` slots of the array for the master fields are there if there are so many. -/
theorem place_master_inside {e : RdbStreamEntry} (hs : e.Sound) {n : Nat} (hn : n ≤ e.master_field_count) :
    (∀ k < n, e.place_master.inside e.place_master.master k = true) ↔
      LIST_VALUE_SIZE * e.master_field_count < 2 ^ 64 ∨
        n ≤ slots (LIST_VALUE_SIZE * e.master_field_count % 2 ^ 64) := by
  rcases place_master_cases e with ⟨-, h⟩ | ⟨hle, h⟩
  · rw [h]
    have hnew : e.mallocs ∉ e.freed := fun h => Nat.lt_irrefl _ (hs.freed _ h)
    simp only [inside_slots (e := { (e.malloc _).2 with master := .heap e.mallocs }) hnew]
    rw [show ({ (e.malloc (LIST_VALUE_SIZE * e.master_field_count % 2 ^ 64)).2 with
      master := .heap e.mallocs } : RdbStreamEntry).size e.mallocs = _ from if_pos rfl]
    constructor
    · intro h
      refine .inr ?_
      by_contra hlt
      exact Nat.lt_irrefl _ (h _ (Nat.lt_of_not_le hlt))
    · intro h k hk
      rcases h with h | h
      · exact Nat.lt_of_lt_of_le hk (Nat.le_trans hn (slots_wrapped.mpr h))
      · exact Nat.lt_of_lt_of_le hk h
  · rw [h]
    refine ⟨fun _ => .inl ?_, fun _ k hk => inside_tmp (n := n) (by omega) hk⟩
    rw [TMP_SIZE] at hle
    rw [LIST_VALUE_SIZE]
    omega

/-- Master fields are stored inside their array if and only if their bytes can be counted or the list
pack ends before the array. -/
theorem header_inside_iff {e : RdbStreamEntry} (hs : e.Sound) (list : RdbListPack) :
    e.HeaderInside list ↔ e.HeaderFits list := by
  have hs' := hs.of_held (e.read_counts_held list)
  rcases hcounts : e.read_counts list with ⟨b, e', lval⟩
  rw [hcounts] at hs'
  cases b with
  | false => simp [HeaderInside, HeaderFits, read_header, hcounts]
  | true =>
    have hfits : e.HeaderFits list ↔ LIST_VALUE_SIZE * e'.master_field_count < 2 ^ 64 ∨
        list.found e'.master_field_count lval ≤ slots (LIST_VALUE_SIZE * e'.master_field_count % 2 ^ 64) := by
      refine ⟨fun h => h e' lval hcounts, fun h e'' lval' hcounts' => ?_⟩
      obtain ⟨rfl, rfl⟩ : e' = e'' ∧ lval = lval' := by simpa [hcounts] using hcounts'
      exact h
    rw [HeaderInside, read_header_counted hcounts, read_master_inside, hfits,
      ← place_master_inside hs' (list.found_le _ _)]
    simp only [Nat.zero_add]

/-- Fields and values are stored inside their arrays if and only if their bytes can be counted. -/
theorem entry_inside_iff {e : RdbStreamEntry} (hs : e.Sound) (hb : e.Based) (list : RdbListPack)
    (lval : RdbListValue) : e.EntryInside list lval ↔ e.EntryFits list lval := by
  refine forall_congr' fun e' => forall_congr' fun lval' => forall_congr' fun hopened => ?_
  obtain ⟨-, hheld, -, hcount⟩ := opened_held hs hopened
  obtain ⟨hmaster, hfields, hvalues, -, -⟩ := held_eq hheld
  obtain ⟨hs', hplace⟩ := opened_allotted hs hopened
  obtain ⟨-, -, -, -, hsame⟩ := opened_some hopened
  have hb' : e'.Based := hb.of_eq hmaster hcount
  have hflags : e'.place.same_fields = e'.same_fields := by
    rw [hplace.eq]
    rfl
  have hn : e'.place.entry_field_count = e'.entry_field_count := by rw [hplace.eq]
  rw [read_fields_inside, hn, hflags]
  by_cases hnull : e'.master = .null ∧ e'.same_fields = true
  · -- there are no master fields before a header is read
    have hzero : e'.entry_field_count = 0 := by
      rw [hsame hnull.2]
      rcases hb' with ⟨-, hzero⟩ | ⟨htmp, -⟩ | ⟨id, hheap⟩
      · exact hzero
      · cases hnull.1.symm.trans htmp
      · cases hnull.1.symm.trans hheap
    simp [hzero]
  · obtain ⟨hvals, hflds⟩ := place_allocated hs' hb' hfields hvalues fun hm =>
      Bool.eq_false_iff.mpr fun h => hnull ⟨hm, h⟩
    rw [← hvals.inside_iff]
    refine ⟨fun h k hk => (h k hk).1, fun h k hk => ⟨h k hk, fun hown => ?_⟩⟩
    exact (hflds hown).inside_iff.mpr (hvals.inside_iff.mp h) k hk

/-- Every call stores inside the arrays if and only if the counts it reads fit. The entry may have been through
any calls before that were accepted, the list pack may hold anything, and the call may start anywhere in it. -/
theorem stores_inside_iff {e : RdbStreamEntry} (h : e.Reached) (list : RdbListPack) (lval : RdbListValue) :
    (e.HeaderInside list ↔ e.HeaderFits list) ∧ (e.EntryInside list lval ↔ e.EntryFits list lval) :=
  ⟨header_inside_iff h.based.1 list, entry_inside_iff h.based.1 h.based.2 list lval⟩

/-- An entry with a field of its own, and one with the master field. -/
def mixed_list : RdbListPack := .of_uints [2, 0, 1, 7, 0, 0, 5, 0, 1, 8, 6, 6, 2, 5, 1, 9, 4]

theorem mixed_header_some : (read_header {} mixed_list).isSome = true := by decide +kernel

/-- What the header of the list leaves behind. -/
def mixed_header : RdbStreamEntry × RdbListValue := ((read_header {} mixed_list).get mixed_header_some).2

theorem mixed_entry_some : (read_entry mixed_header.1 mixed_list mixed_header.2).isSome = true := by decide +kernel

/-- What its first entry leaves behind. -/
def mixed_entry : RdbStreamEntry × RdbListValue :=
  ((read_entry mixed_header.1 mixed_list mixed_header.2).get mixed_entry_some).2

theorem Reached.of_get {e : RdbStreamEntry} {c : StreamCall} (h : e.Reached) (hsome : (e.call c).isSome = true)
    (htrue : ((e.call c).get hsome).1 = true) : Reached ((e.call c).get hsome).2.1 := by
  obtain ⟨⟨b, e', lval⟩, hcall⟩ := Option.isSome_iff_exists.mp hsome
  simp only [hcall, Option.get_some] at htrue ⊢
  exact .call h (htrue ▸ hcall)

theorem mixed_entry_reached : Reached mixed_entry.1 := by
  have hheader : Reached mixed_header.1 :=
    Reached.of_get (c := .header mixed_list) .start mixed_header_some (by decide +kernel)
  exact Reached.of_get (c := .entry mixed_list mixed_header.2) hheader mixed_entry_some (by decide +kernel)

/-- The second entry behind the first one, or the header once more. -/
theorem stores_inside_mixed :
    HeaderInside mixed_entry.1 mixed_list ∧ EntryInside mixed_entry.1 mixed_list mixed_entry.2 := by
  have hiff := stores_inside_iff mixed_entry_reached mixed_list mixed_entry.2
  constructor
  · refine hiff.1.mpr fun e' lval hcounts => .inl ?_
    have hcount : (read_counts mixed_entry.1 mixed_list).2.1.master_field_count = 1 := by
      decide +kernel
    rw [hcounts] at hcount
    rw [hcount]
    decide
  · refine hiff.2.mpr fun e' lval' hopened => ?_
    have hcount : (opened mixed_entry.1 mixed_list mixed_entry.2).map (fun x => x.1.entry_field_count) = some 1 := by
      decide +kernel
    rw [hopened] at hcount
    have hone : e'.entry_field_count = 1 := Option.some.inj hcount
    rw [hone]
    decide

/-- A header with 2^61 master fields, the first of which is there. -/
def wrapped_bytes : List UInt8 :=
  le_bytes 4 25 ++ le_bytes 2 5 ++ [1, 1, 0, 1] ++ (0xf4 :: le_bytes 8 (2 ^ 61) ++ [9]) ++ [7, 1, 0, 1, 0xff]

def wrapped : RdbListPack :=
  (RdbListPack.init (.lit wrapped_bytes) wrapped_bytes.length).get (by decide +kernel)

/-- No byte is allocated for these. -/
theorem stores_outside : ¬ ∀ (e : RdbStreamEntry) (_ : e.Reached) (list : RdbListPack) (lval : RdbListValue),
    e.HeaderInside list ∧ e.EntryInside list lval := by
  intro h
  have hnone : (read_header {} wrapped).isNone = true := by
    decide +kernel
  exact (h {} .start wrapped {}).1 (Option.isNone_iff_eq_none.mp hnone)

end RdbStreamEntry

end rdbparser
