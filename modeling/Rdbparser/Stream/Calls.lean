import Rdbparser.Stream.Room

namespace rdbparser

/-- A call on an entry. -/
inductive StreamCall
  | header (list : RdbListPack)
  | entry (list : RdbListPack) (lval : RdbListValue)

namespace RdbStreamEntry

def call (e : RdbStreamEntry) : StreamCall → Option (Bool × RdbStreamEntry × RdbListValue)
  | .header list => e.read_header list
  | .entry list lval => e.read_entry list lval

/-- A store changes the slot that is stored to and no other. -/
theorem store_get {e e' : RdbStreamEntry} {p : ArrPtr} {i : Nat} {v : RdbListValue}
    (h : e.store p i v = some e') :
    Kept e e' ∧ (∀ σ, p.slot i = some σ → e'.get σ = v) ∧ ∀ σ, e'.get σ = v ∨ e'.get σ = e.get σ := by
  have hin : e.inside p i = true := by
    unfold store at h
    split at h
    · assumption
    · cases h
  obtain ⟨e₁, hstore, hkept, hload, hget⟩ := store_run hin v
  obtain rfl : e₁ = e' := Option.some.inj (hstore.symm.trans h)
  obtain ⟨-, τ, hτ, hv⟩ := load_some.mp hload
  refine ⟨hkept, fun σ hσ => ?_, fun σ => ?_⟩
  · rw [hτ] at hσ
    rwa [← Option.some.inj hσ]
  · by_cases hσ : p.slot i = some σ
    · rw [hτ] at hσ
      exact .inl (Option.some.inj hσ ▸ hv)
    · exact .inr (hget σ hσ)

theorem store_none {e : RdbStreamEntry} {p : ArrPtr} {i : Nat} {v : RdbListValue} :
    e.store p i v = none ↔ e.inside p i = false := by
  cases hin : e.inside p i with
  | false => simp [store, hin]
  | true =>
    obtain ⟨e', hstore, -⟩ := store_run hin v
    simp [hstore]

/-- Reading the master fields changes what the slots hold and nothing else, also where it stops. -/
theorem read_master_kept {list : RdbListPack} {i n : Nat} {b : Bool} {e e' : RdbStreamEntry}
    {lval lval' : RdbListValue} (h : read_master list i n e lval = some (b, e', lval')) : Kept e e' := by
  induction n generalizing i e lval with
  | zero =>
    cases h
    exact .refl _
  | succ n ih =>
    unfold read_master at h
    split at h
    · cases h
      exact .refl _
    · split at h
      · cases h
      · next hstore => exact (store_get hstore).1.trans (ih h)

/-- Nor does reading the pairs of an entry. -/
theorem read_pairs_kept {list : RdbListPack} {i n : Nat} {b b' : Bool} {e e' : RdbStreamEntry}
    {lval lval' : RdbListValue} (h : read_pairs list i n b e lval = some (b', e', lval')) : Kept e e' := by
  induction n generalizing i b e lval with
  | zero =>
    cases h
    exact .refl _
  | succ n ih =>
    unfold read_pairs at h
    split at h
    · dsimp only at h
      split at h
      · cases h
      · next hvalue => exact (store_get hvalue).1.trans (ih h)
    · dsimp only at h
      split at h
      · cases h
      · next hfield =>
        split at h
        · cases h
        · next hvalue => exact ((store_get hfield).1.trans (store_get hvalue).1).trans (ih h)

/-- Reading the fields of an entry changes what the slots hold and nothing else. -/
theorem read_fields_kept {list : RdbListPack} {b : Bool} {e e' : RdbStreamEntry} {lval lval' : RdbListValue}
    (h : e.read_fields list lval = some (b, e', lval')) : Kept e e' := by
  unfold read_fields at h
  dsimp only at h
  split at h
  · cases h
  · next hpairs =>
    cases h
    exact read_pairs_kept hpairs

/-- Room is found without a change to any slot. -/
theorem place_keeps (e : RdbStreamEntry) : e.place = { e with
    fields := e.place.fields, values := e.place.values, size := e.place.size, mallocs := e.place.mallocs } := by
  unfold place place_fields
  split
  · unfold place_values
    dsimp only
    split <;> split <;> split <;> rfl
  · split
    · unfold place_values
      dsimp only
      split <;> split <;> split <;> rfl
    · unfold place_values
      dsimp only
      split <;> split <;> split <;> rfl

/-- The master fields serve an entry that has them. -/
theorem place_same_fields {e : RdbStreamEntry} (hmaster : e.master ≠ .null) (hsame : e.same_fields = true) :
    e.place.fields = e.master := by
  unfold place place_fields
  rw [if_pos hsame]
  by_cases hfit : e.entry_field_count ≤ e.room.2
  · simp only [place_values, hfit, if_true, hmaster, if_false, reduceCtorEq]
  · simp only [place_values, hfit, if_false, hmaster]
    split <;> rfl

/-- Releasing an array changes what has been freed and nothing else. -/
theorem release_keeps {e e' : RdbStreamEntry} {p : ArrPtr} (h : e.release p = some e') :
    e' = { e with freed := e'.freed } := by
  unfold release at h
  split at h
  · cases h
    rfl
  · split at h
    · cases h
      rfl
    · cases h
  · split at h
    · cases h
    · cases h
      rfl

/-- Clearing an entry forgets its arrays, and changes what has been freed. -/
theorem clear_keeps {e e' : RdbStreamEntry} (h : e.clear = some e') :
    e' = { e with fields := .null, values := .null, freed := e'.freed } := by
  unfold clear at h
  split at h
  · cases h
  · next hfields =>
    split at h
    · cases h
    · next hvalues =>
      cases h
      rw [release_keeps hvalues, release_keeps hfields]

/-- What is read of an entry in front of its fields; none if it is given up before that. -/
def opened (e : RdbStreamEntry) (list : RdbListPack) (lval : RdbListValue) :
    Option (RdbStreamEntry × RdbListValue) :=
  match e.read_delta list lval with
  | (false, _, _) => none
  | (true, e, lval) =>
    match e.clear with
    | none => none
    | some e =>
      match e.read_field_count list lval with
      | (false, _, _) => none
      | (true, e, lval) => some (e, lval)

/-- An entry that is opened is read on from where its arrays are placed. -/
theorem read_entry_opened {e e' : RdbStreamEntry} {list : RdbListPack} {lval lval' : RdbListValue}
    (h : e.opened list lval = some (e', lval')) : e.read_entry list lval = e'.place.read_fields list lval' := by
  unfold opened at h
  unfold read_entry
  rcases hdelta : e.read_delta list lval with ⟨_ | _, e₁, lval₁⟩ <;> simp only [hdelta] at h ⊢
  · cases h
  rcases hclear : e₁.clear with _ | e₂ <;> simp only [hclear] at h ⊢
  · cases h
  rcases hcount : e₂.read_field_count list lval₁ with ⟨_ | _, e₃, lval₃⟩ <;> simp only [hcount] at h ⊢ <;> cases h
  rfl

/-- An entry that is opened has released what was read before it. -/
theorem opened_some {e e' : RdbStreamEntry} {list : RdbListPack} {lval lval' : RdbListValue}
    (h : e.opened list lval = some (e', lval')) :
    (e.read_delta list lval).1 = true ∧ ∃ e₂, (e.read_delta list lval).2.1.clear = some e₂ ∧
      e' = { e₂ with entry_field_count := e'.entry_field_count } ∧
      (e'.same_fields = true → e'.entry_field_count = e'.master_field_count) := by
  unfold opened at h
  split at h
  · cases h
  · next hdelta =>
    rw [hdelta]
    refine ⟨rfl, ?_⟩
    split at h
    · cases h
    · next e₂ hclear =>
      refine ⟨e₂, hclear, ?_⟩
      unfold read_field_count at h
      cases hsame : e₂.same_fields with
      | true =>
        rw [if_pos hsame] at h
        cases h
        exact ⟨rfl, fun _ => rfl⟩
      | false =>
        rw [if_neg (by rw [hsame]; exact Bool.false_ne_true)] at h
        split at h
        · cases h
        · next hcount =>
          cases h
          simp only [Prod.mk.injEq] at hcount
          obtain ⟨-, rfl, -⟩ := hcount
          refine ⟨rfl, fun hsame' => ?_⟩
          change e₂.same_fields = true at hsame'
          rw [hsame] at hsame'
          cases hsame'

/-- An entry that is not opened has released what was read before it or nothing. -/
theorem read_entry_closed {e e' : RdbStreamEntry} {list : RdbListPack} {lval lval' : RdbListValue} {b : Bool}
    (h : e.opened list lval = none) (hr : e.read_entry list lval = some (b, e', lval')) :
    b = false ∧ ((e.read_delta list lval).1 = false ∧ e' = (e.read_delta list lval).2.1 ∨
      (e.read_delta list lval).1 = true ∧ (e.read_delta list lval).2.1.same_fields = false ∧
        ∃ e₂, (e.read_delta list lval).2.1.clear = some e₂ ∧
          e' = { e₂ with entry_field_count := e'.entry_field_count }) := by
  unfold opened at h
  unfold read_entry at hr
  split at h
  · next hdelta =>
    rw [hdelta] at hr ⊢
    cases hr
    exact ⟨rfl, .inl ⟨rfl, rfl⟩⟩
  · next e₁ lval₁ hdelta =>
    rw [hdelta] at hr ⊢
    dsimp only at hr
    split at hr
    · cases hr
    · next e₂ hclear =>
      rw [hclear] at h
      dsimp only at h
      split at hr
      · next hcount =>
        cases hr
        unfold read_field_count at hcount
        split at hcount
        · cases hcount
        · next hsame =>
          simp only [Prod.mk.injEq] at hcount
          obtain ⟨-, rfl, -⟩ := hcount
          refine ⟨rfl, .inr ⟨rfl, ?_, e₂, hclear, rfl⟩⟩
          rw [clear_keeps hclear] at hsame
          exact Bool.eq_false_iff.mpr hsame
      · next hcount =>
        rw [hcount] at h
        cases h

/-- Where the arrays are, and what has been allocated and freed. -/
def held (e : RdbStreamEntry) : ArrPtr × ArrPtr × ArrPtr × Nat × List Nat :=
  (e.master, e.fields, e.values, e.mallocs, e.freed)

theorem Kept.held {e e' : RdbStreamEntry} (h : Kept e e') : e'.held = e.held := by
  rw [h]
  rfl

theorem held_eq {e e' : RdbStreamEntry} (h : e'.held = e.held) : e'.master = e.master ∧
    e'.fields = e.fields ∧ e'.values = e.values ∧ e'.mallocs = e.mallocs ∧ e'.freed = e.freed := by
  simpa only [RdbStreamEntry.held, Prod.mk.injEq] using h

/-- What is sound is told by where the arrays are, and what has been allocated and freed. -/
theorem Sound.of_held {e e' : RdbStreamEntry} (hs : e.Sound) (h : e'.held = e.held) : e'.Sound := by
  obtain ⟨hmaster, hfields, hvalues, hmallocs, hfreed⟩ := held_eq h
  refine ⟨?_, ?_, ?_, ?_⟩
  · rw [hfreed, hmallocs]
    exact hs.freed
  · rw [hmaster, hmallocs]
    exact hs.master
  · rw [hfields, hmallocs]
    exact hs.fields
  · rw [hmaster, hfields, hvalues, hmallocs, hfreed]
    exact hs.values

theorem cleared_held {e e' : RdbStreamEntry} (h : e'.held = e.held) : e'.cleared.held = e.cleared.held := by
  obtain ⟨hmaster, hfields, hvalues, hmallocs, hfreed⟩ := held_eq h
  simp only [RdbStreamEntry.held, cleared, hmaster, hfields, hvalues, hmallocs, hfreed]

theorem Releasable.of_clear {e e' : RdbStreamEntry} (h : e.clear = some e') : e.Releasable := by
  by_contra hnot
  rw [clear_none hnot] at h
  cases h

/-- What is released is gone, and nothing else. -/
theorem clear_held {e e' : RdbStreamEntry} (hs : e.Sound) (h : e.clear = some e') :
    e'.held = e.cleared.held := by
  rw [clear_some hs (.of_clear h)] at h
  cases h
  rfl

theorem read_delta_held (e : RdbStreamEntry) (list : RdbListPack) (lval : RdbListValue) :
    (e.read_delta list lval).2.1.held = e.held := rfl

theorem read_delta_releasable {e e' : RdbStreamEntry} {list : RdbListPack} {lval : RdbListValue}
    (h : (e.read_delta list lval).2.1.clear = some e') : e.Releasable := by
  have hrel := Releasable.of_clear h
  exact hrel

theorem read_counts_held (e : RdbStreamEntry) (list : RdbListPack) :
    (e.read_counts list).2.1.held = e.held := rfl

/-- What a header does to the arrays: one whose counts are read finds new room for the master fields. -/
theorem read_header_held {e e' : RdbStreamEntry} {list : RdbListPack} {lval : RdbListValue} {b : Bool}
    (h : e.read_header list = some (b, e', lval)) :
    ((e.read_counts list).1 = false ∧ b = false ∧ e'.held = e.held) ∨
      ((e.read_counts list).1 = true ∧ Kept (e.read_counts list).2.1.place_master e') := by
  unfold read_header at h
  split at h
  · next hcounts =>
    cases h
    refine .inl ⟨by rw [hcounts], rfl, ?_⟩
    rw [← e.read_counts_held list, hcounts]
  · next hcounts =>
    refine .inr ⟨by rw [hcounts], ?_⟩
    rw [hcounts]
    split at h
    · cases h
    · next hmaster =>
      cases h
      exact read_master_kept hmaster
    · next hmaster =>
      cases h
      exact read_master_kept hmaster

/-- The fields of an entry are the master fields. -/
def takes (e : RdbStreamEntry) (list : RdbListPack) (lval : RdbListValue) : Bool :=
  (e.read_delta list lval).1 && (e.read_delta list lval).2.1.same_fields

/-- Where an entry is read up to its fields, what the one before held has been released. -/
theorem opened_held {e e' : RdbStreamEntry} {list : RdbListPack} {lval lval' : RdbListValue} (hs : e.Sound)
    (h : e.opened list lval = some (e', lval')) :
    e.Releasable ∧ e'.held = e.cleared.held ∧ e'.same_fields = e.takes list lval ∧
      e'.master_field_count = e.master_field_count := by
  obtain ⟨hdelta, e₂, hclear, he', -⟩ := opened_some h
  have hkeeps := clear_keeps hclear
  refine ⟨read_delta_releasable hclear, ?_, ?_, ?_⟩
  · rw [he']
    exact (clear_held (hs.of_held (e.read_delta_held list lval)) hclear).trans
      (cleared_held (e.read_delta_held list lval))
  · rw [he', takes, hdelta, hkeeps]
    rfl
  · rw [he', hkeeps]
    rfl

/-- What an entry does to the arrays: it fails at the start, or releases what was read before it, and if
it comes to its fields finds room for them. -/
theorem read_entry_held {e e' : RdbStreamEntry} {list : RdbListPack} {lval lval' : RdbListValue} {b : Bool}
    (hs : e.Sound) (h : e.read_entry list lval = some (b, e', lval')) :
    (e.takes list lval = false ∧ b = false ∧ e'.held = e.held) ∨
      (e.takes list lval = false ∧ b = false ∧ e.Releasable ∧ e'.held = e.cleared.held) ∨
      ∃ e₁ lval₁, e.opened list lval = some (e₁, lval₁) ∧ Kept e₁.place e' := by
  cases hopened : e.opened list lval with
  | some r =>
    rw [read_entry_opened hopened] at h
    exact .inr (.inr ⟨r.1, r.2, rfl, read_fields_kept h⟩)
  | none =>
    obtain ⟨hb, ⟨hdelta, he'⟩ | ⟨hdelta, hown, e₂, hclear, he'⟩⟩ := read_entry_closed hopened h
    · refine .inl ⟨by rw [takes, hdelta, Bool.false_and], hb, ?_⟩
      rw [he']
      rfl
    · refine .inr (.inl ⟨by rw [takes, hown, Bool.and_false], hb, read_delta_releasable hclear, ?_⟩)
      rw [he']
      exact (clear_held (hs.of_held (e.read_delta_held list lval)) hclear).trans
        (cleared_held (e.read_delta_held list lval))

theorem opened_allotted {e e' : RdbStreamEntry} {list : RdbListPack} {lval lval' : RdbListValue} (hs : e.Sound)
    (h : e.opened list lval = some (e', lval')) : e'.Sound ∧ e'.Allotted e'.place := by
  obtain ⟨-, hheld, -⟩ := opened_held hs h
  obtain ⟨-, hfields, hvalues, -⟩ := held_eq hheld
  have hs' := hs.cleared.of_held hheld
  exact ⟨hs', place_allotted hs' hfields hvalues⟩

/-- The blocks are in order after each call. -/
theorem Sound.call {e e' : RdbStreamEntry} {c : StreamCall} {lval : RdbListValue} {b : Bool} (hs : e.Sound)
    (h : e.call c = some (b, e', lval)) : e'.Sound := by
  cases c with
  | header list =>
    rcases read_header_held h with ⟨-, -, hheld⟩ | ⟨-, hkept⟩
    · exact hs.of_held hheld
    · exact hkept.sound (place_master_sound (hs.of_held (e.read_counts_held list))).1
  | entry list lval₀ =>
    rcases read_entry_held hs h with ⟨-, -, hheld⟩ | ⟨-, -, -, hheld⟩ | ⟨e₁, lval₁, hopened, hkept⟩
    · exact hs.of_held hheld
    · exact hs.cleared.of_held hheld
    · obtain ⟨hs₁, hplace⟩ := opened_allotted hs hopened
      exact hkept.sound (hplace.sound hs₁)

theorem sound_start : Sound {} := by
  refine ⟨?_, ?_, ?_, ?_⟩ <;> intro id hid <;> cases hid

end RdbStreamEntry

end rdbparser
