import Rdbparser.Stream

namespace rdbparser.RdbStreamEntry

/-- What is known of an entry before it is read: its number, the number of entries and the id of its
node. -/
def head (e : RdbStreamEntry) : Nat × Nat × RdbStreamRecId := (e.num, e.cnt, e.id)

/-- Releasing an array leaves what is at the head of an entry. -/
theorem release_head {e e' : RdbStreamEntry} {f : ArrPtr} (h : e.release f = some e') :
    e'.head = e.head := by
  unfold release at h
  cases f with
  | null =>
    cases h
    rfl
  | tmp | heap =>
    simp only at h
    split at h <;> cases h
    rfl

/-- So does a store into one. -/
theorem store_head {e e' : RdbStreamEntry} {p : ArrPtr} {i : Nat} {lval : RdbListValue}
    (h : e.store p i lval = some e') : e'.head = e.head := by
  unfold store at h
  split at h
  · cases p with
    | null => cases h
    | tmp | heap =>
      cases h
      rfl
  · cases h

/-- Reading the master fields leaves what is at the head of an entry. -/
theorem read_master_head {list : RdbListPack} {i n : Nat} {e e' : RdbStreamEntry}
    {lval lval' : RdbListValue} {b : Bool} (h : read_master list i n e lval = some (b, e', lval')) :
    e'.head = e.head := by
  induction n generalizing i e lval with
  | zero =>
    cases h
    rfl
  | succ n ih =>
    unfold read_master at h
    split at h
    · cases h
      rfl
    · split at h
      · cases h
      · next hstore => rw [ih h, store_head hstore]

@[simp] theorem place_master_head (e : RdbStreamEntry) : e.place_master.head = e.head := by
  unfold place_master
  split <;> rfl

@[simp] theorem read_counts_head (e : RdbStreamEntry) (list : RdbListPack) :
    (e.read_counts list).2.1.head = e.head := rfl

/-- So does reading the header of a node. -/
theorem read_header_head {e e' : RdbStreamEntry} {list : RdbListPack} {lval : RdbListValue} {b : Bool}
    (h : e.read_header list = some (b, e', lval)) : e'.head = e.head := by
  have hcounts := e.read_counts_head list
  unfold read_header at h
  split at h
  · next heq =>
    rw [heq] at hcounts
    cases h
    exact hcounts
  · next heq =>
    rw [heq] at hcounts
    split at h
    · cases h
    · next hmaster =>
      cases h
      rw [read_master_head hmaster, place_master_head, hcounts]
    · next hmaster =>
      cases h
      rw [read_master_head hmaster, place_master_head, hcounts]

/-- So does reading the pairs of an entry. -/
theorem read_pairs_head {list : RdbListPack} {i n : Nat} {b b' : Bool} {e e' : RdbStreamEntry}
    {lval lval' : RdbListValue} (h : read_pairs list i n b e lval = some (b', e', lval')) :
    e'.head = e.head := by
  induction n generalizing i b e lval with
  | zero =>
    cases h
    rfl
  | succ n ih =>
    unfold read_pairs at h
    split at h
    · simp only at h
      split at h
      · cases h
      · next hvalue => rw [ih h, store_head hvalue]
    · simp only at h
      split at h
      · cases h
      · next hfield =>
        split at h
        · cases h
        · next hvalue => rw [ih h, store_head hvalue, store_head hfield]

@[simp] theorem read_delta_head (e : RdbStreamEntry) (list : RdbListPack) (lval : RdbListValue) :
    (e.read_delta list lval).2.1.head = e.head := rfl

/-- So does clearing the entry. -/
theorem clear_head {e e' : RdbStreamEntry} (h : e.clear = some e') : e'.head = e.head := by
  unfold clear at h
  split at h
  · cases h
  · next hfields =>
    split at h
    · cases h
    · next hvalues =>
      cases h
      exact (release_head hvalues).trans (release_head hfields)

@[simp] theorem read_field_count_head (e : RdbStreamEntry) (list : RdbListPack) (lval : RdbListValue) :
    (e.read_field_count list lval).2.1.head = e.head := by
  unfold read_field_count
  split <;> rfl

@[simp] theorem place_fields_head (e : RdbStreamEntry) (fld sz : Nat) :
    (e.place_fields fld sz).2.2.head = e.head := by
  unfold place_fields
  split
  · rfl
  · split <;> rfl

@[simp] theorem place_values_head (e : RdbStreamEntry) (fld sz : Nat) :
    (e.place_values fld sz).head = e.head := by
  unfold place_values
  simp only
  split <;> split <;> split <;> rfl

/-- And so does reading an entry, whether or not one is found. -/
theorem read_entry_head {e e' : RdbStreamEntry} {list : RdbListPack} {lval lval' : RdbListValue} {b : Bool}
    (h : e.read_entry list lval = some (b, e', lval')) : e'.head = e.head := by
  have hdelta := e.read_delta_head list lval
  unfold read_entry at h
  split at h
  · next heq =>
    rw [heq] at hdelta
    cases h
    exact hdelta
  · next e₀ lval₀ heq =>
    rw [heq] at hdelta
    split at h
    · cases h
    · next e₁ hclear =>
      have hcount := e₁.read_field_count_head list lval₀
      split at h
      · next heq' =>
        rw [heq'] at hcount
        cases h
        rw [hcount, clear_head hclear, hdelta]
      · next heq' =>
        rw [heq'] at hcount
        simp only [read_fields] at h
        split at h
        · cases h
        · next hpairs =>
          cases h
          rw [read_pairs_head hpairs, place_values_head, place_fields_head, hcount, clear_head hclear,
            hdelta]

end rdbparser.RdbStreamEntry
