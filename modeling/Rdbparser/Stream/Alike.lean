import Rdbparser.Stream.Calls
import Rdbparser.Stream.Nodes

namespace rdbparser

namespace RdbListPack

variable {l l' : RdbListPack}

/-! Entries are read alike from lists that hold the same bytes. -/

theorem Same.read_master (h : l.Same l') (i n : Nat) (e : RdbStreamEntry) (lval : RdbListValue) :
    RdbStreamEntry.read_master l' i n e lval = RdbStreamEntry.read_master l i n e lval := by
  induction n generalizing i e lval with
  | zero => rfl
  | succ n ih => simp only [RdbStreamEntry.read_master, h.next_eq, ih]

theorem Same.read_header (h : l.Same l') (e : RdbStreamEntry) : e.read_header l' = e.read_header l := by
  simp only [RdbStreamEntry.read_header, RdbStreamEntry.read_counts, h.first_ival_eq, h.next_ival_eq, h.read_master,
    h.next_eq]

theorem Same.read_pairs (h : l.Same l') (i n : Nat) (b : Bool) (e : RdbStreamEntry) (lval : RdbListValue) :
    RdbStreamEntry.read_pairs l' i n b e lval = RdbStreamEntry.read_pairs l i n b e lval := by
  induction n generalizing i b e lval with
  | zero => rfl
  | succ n ih => simp only [RdbStreamEntry.read_pairs, h.next_eq, ih]

theorem Same.read_entry (h : l.Same l') (e : RdbStreamEntry) (lval : RdbListValue) :
    e.read_entry l' lval = e.read_entry l lval := by
  simp only [RdbStreamEntry.read_entry, RdbStreamEntry.read_delta, RdbStreamEntry.read_field_count,
    RdbStreamEntry.read_fields, h.next_ival_eq, h.read_pairs, h.next_eq]

end RdbListPack

namespace RdbStreamEntry

/-- The first `n` slots of an array hold elements of the list. -/
def Filled (list : RdbListPack) (e : RdbStreamEntry) (p : ArrPtr) (n : Nat) : Prop :=
  ∀ k < n, ∀ σ, p.slot k = some σ → list.InRange (e.get σ)

theorem Filled.store {list : RdbListPack} {e e' : RdbStreamEntry} {p q : ArrPtr} {i n : Nat} {v : RdbListValue}
    (h : e.store p i v = some e') (hv : list.InRange v) (hq : Filled list e q n) : Filled list e' q n := by
  intro k hk σ hσ
  rcases (store_get h).2.2 σ with hnew | hold
  · rwa [hnew]
  · rw [hold]
    exact hq k hk σ hσ

/-- A store fills one more slot. -/
theorem Filled.store_next {list : RdbListPack} {e e' : RdbStreamEntry} {p : ArrPtr} {i : Nat} {v : RdbListValue}
    (h : e.store p i v = some e') (hv : list.InRange v) (hp : Filled list e p i) : Filled list e' p (i + 1) := by
  intro k hk σ hσ
  rcases Nat.lt_succ_iff_lt_or_eq.mp hk with hlt | rfl
  · exact Filled.store h hv hp k hlt σ hσ
  · rwa [(store_get h).2.1 σ hσ]

/-- Reading the master fields fills their slots with elements of the list. -/
theorem read_master_filled {list : RdbListPack} {i n : Nat} {e e' : RdbStreamEntry} {lval lval' : RdbListValue}
    (h : read_master list i n e lval = some (true, e', lval')) (hm : Filled list e e.master i) :
    Kept e e' ∧ Filled list e' e.master (i + n) := by
  induction n generalizing i e lval with
  | zero =>
    cases h
    exact ⟨.refl _, hm⟩
  | succ n ih =>
    unfold read_master at h
    split at h
    · cases h
    · next hnext =>
      split at h
      · cases h
      · next e₁ hstore =>
        have hkept := (store_get hstore).1
        have hmaster : e₁.master = e.master := by rw [hkept]
        have hv := RdbListPack.next_in_range hnext
        obtain ⟨hkept', hfilled⟩ := ih h (hmaster ▸ Filled.store_next hstore hv hm)
        rw [hmaster, Nat.add_assoc, Nat.add_comm 1] at hfilled
        exact ⟨hkept.trans hkept', hfilled⟩

/-- An element that is not there is not forgotten. -/
theorem read_pairs_true {list : RdbListPack} {i n : Nat} {b : Bool} {e e' : RdbStreamEntry}
    {lval lval' : RdbListValue} (h : read_pairs list i n b e lval = some (true, e', lval')) : b = true := by
  induction n generalizing i b e lval with
  | zero =>
    cases h
    rfl
  | succ n ih =>
    unfold read_pairs at h
    split at h
    · dsimp only at h
      split at h
      · cases h
      · exact (Bool.and_eq_true_iff.mp (ih h)).1
    · dsimp only at h
      split at h
      · cases h
      · split at h
        · cases h
        · exact (Bool.and_eq_true_iff.mp (Bool.and_eq_true_iff.mp (ih h)).1).1

/-- What `next` has handed out in a run that finds all elements. -/
theorem in_range_of_true {list : RdbListPack} {lval : RdbListValue} (h : (list.next lval).1 = true) :
    list.InRange (list.next lval).2 := RdbListPack.next_in_range (Prod.ext h rfl)

/-- Reading the pairs of an entry fills the slots of its values, and those of its fields if they are its own. -/
theorem read_pairs_filled {list : RdbListPack} {i n : Nat} {b : Bool} {e e' : RdbStreamEntry}
    {lval lval' : RdbListValue} (h : read_pairs list i n b e lval = some (true, e', lval'))
    (hf : e.same_fields = false → Filled list e e.fields i) (hv : Filled list e e.values i) :
    Kept e e' ∧ (e.same_fields = false → Filled list e' e.fields (i + n)) ∧
      Filled list e' e.values (i + n) ∧ ∀ p m, Filled list e p m → Filled list e' p m := by
  induction n generalizing i b e lval with
  | zero =>
    cases h
    exact ⟨.refl _, hf, hv, fun _ _ h => h⟩
  | succ n ih =>
    have hadd : i + (n + 1) = i + 1 + n := by omega
    rw [hadd]
    unfold read_pairs at h
    cases hsame : e.same_fields with
    | true =>
      rw [if_pos hsame] at h
      dsimp only at h
      split at h
      · cases h
      · next e₁ hstore =>
        have hkept := (store_get hstore).1
        have hvalues : e₁.values = e.values := by rw [hkept]
        have hsame₁ : e₁.same_fields = true := by
          rw [hkept]
          exact hsame
        have hin := in_range_of_true (Bool.and_eq_true_iff.mp (read_pairs_true h)).2
        obtain ⟨hkept', -, hfilled, hrest⟩ := ih h (fun hown => by rw [hsame₁] at hown; cases hown)
          (hvalues ▸ Filled.store_next hstore hin hv)
        rw [hvalues] at hfilled
        exact ⟨hkept.trans hkept', fun hown => Bool.noConfusion hown, hfilled,
          fun p m hp => hrest p m (Filled.store hstore hin hp)⟩
    | false =>
      rw [if_neg (by rw [hsame]; exact Bool.false_ne_true)] at h
      dsimp only at h
      split at h
      · cases h
      · next e₁ hfield =>
        split at h
        · cases h
        · next e₂ hvalue =>
          have hkept₁ := (store_get hfield).1
          have hkept := hkept₁.trans (store_get hvalue).1
          have hvalues₁ : e₁.values = e.values := by rw [hkept₁]
          have hfields : e₂.fields = e.fields := by rw [hkept]
          have hvalues : e₂.values = e.values := by rw [hkept]
          have hboth := Bool.and_eq_true_iff.mp (read_pairs_true h)
          have hin₁ := in_range_of_true (Bool.and_eq_true_iff.mp hboth.1).2
          have hin₂ := in_range_of_true hboth.2
          rw [hvalues₁] at hvalue
          have hf₂ := Filled.store hvalue hin₂ (Filled.store_next hfield hin₁ (hf hsame))
          have hv₂ := Filled.store_next hvalue hin₂ (Filled.store hfield hin₁ hv)
          obtain ⟨hkept', hfilledf, hfilledv, hrest⟩ := ih h (fun _ => hfields ▸ hf₂) (hvalues ▸ hv₂)
          rw [hfields] at hfilledf
          rw [hvalues] at hfilledv
          refine ⟨hkept.trans hkept', fun _ => hfilledf ?_, hfilledv,
            fun p m hp => hrest p m (Filled.store hvalue hin₂ (Filled.store hfield hin₁ hp))⟩
          rw [hkept]
          exact hsame

/-- The header of a block leaves the master fields in their array. -/
theorem read_header_filled {list : RdbListPack} {e e' : RdbStreamEntry} {lval : RdbListValue}
    (h : e.read_header list = some (true, e', lval)) :
    e'.master ≠ .null ∧ Filled list e' e'.master e'.master_field_count := by
  unfold read_header at h
  split at h
  · cases h
  · next e₁ lval₁ hcounts =>
    split at h
    · cases h
    · cases h
    · next e₂ lval₂ hmaster =>
      simp only [Option.some.injEq, Prod.mk.injEq] at h
      obtain ⟨-, rfl, -⟩ := h
      have hnil : Filled list e₁.place_master e₁.place_master.master 0 := fun k hk => absurd hk (Nat.not_lt_zero k)
      obtain ⟨hkept, hfilled⟩ := read_master_filled hmaster hnil
      have hcount : e₁.place_master.master_field_count = e₁.master_field_count := by
        unfold place_master
        split <;> rfl
      have hnull : e₁.place_master.master ≠ .null := by
        unfold place_master
        split <;> exact ArrPtr.noConfusion
      rw [Nat.zero_add, ← hcount] at hfilled
      rw [hkept]
      exact ⟨hnull, hfilled⟩

/-- What is read of an entry in front of its fields leaves the slots and the master fields alone. -/
theorem read_entry_opens {list : RdbListPack} {e e' : RdbStreamEntry} {lval lval' : RdbListValue}
    (h : e.read_entry list lval = some (true, e', lval')) :
    ∃ (e₁ : RdbStreamEntry) (lval₁ : RdbListValue), e₁.place.read_fields list lval₁ = some (true, e', lval') ∧
      e₁.master = e.master ∧
      e₁.master_field_count = e.master_field_count ∧ e₁.get = e.get ∧
      (e₁.same_fields = true → e₁.entry_field_count = e.master_field_count) := by
  unfold read_entry at h
  split at h
  · cases h
  · next e₁ lval₁ hdelta =>
    have he₁ : e₁ = { e with flags := e₁.flags, diff := e₁.diff } := by
      rw [read_delta] at hdelta
      simp only [Prod.mk.injEq] at hdelta
      rw [← hdelta.2.1]
    split at h
    · cases h
    · next e₂ hclear =>
      have he₂ := clear_keeps hclear
      unfold read_field_count at h
      cases hsame : e₂.same_fields with
      | true =>
        rw [if_pos hsame] at h
        refine ⟨_, _, h, ?_, ?_, ?_, fun _ => ?_⟩
        · rw [he₂, he₁]
        · rw [he₂, he₁]
        · rw [he₂, he₁]
          rfl
        · rw [he₂, he₁]
      | false =>
        rw [if_neg (by rw [hsame]; exact Bool.false_ne_true)] at h
        split at h
        · cases h
        · next hcount =>
          simp only [Prod.mk.injEq] at hcount
          obtain ⟨-, rfl, -⟩ := hcount
          refine ⟨_, _, h, ?_, ?_, ?_, fun hsame' => ?_⟩
          · rw [he₂, he₁]
          · rw [he₂, he₁]
          · rw [he₂, he₁]
            rfl
          · change e₂.same_fields = true at hsame'
            rw [hsame] at hsame'
            cases hsame'

/-- An entry that is read is in its arrays. -/
theorem read_entry_filled {list : RdbListPack} {e e' : RdbStreamEntry} {lval lval' : RdbListValue}
    (h : e.read_entry list lval = some (true, e', lval')) (hnull : e.master ≠ .null)
    (hm : Filled list e e.master e.master_field_count) :
    (e'.master ≠ .null ∧ Filled list e' e'.master e'.master_field_count) ∧
      Filled list e' e'.fields e'.entry_field_count ∧ Filled list e' e'.values e'.entry_field_count := by
  obtain ⟨e₁, lval₁, hread, hmaster₁, hcount₁, hget₁, hsame₁⟩ := read_entry_opens h
  have hplace := e₁.place_keeps
  have hsame₂ : e₁.same_fields = true → e₁.place.fields = e₁.master := place_same_fields (hmaster₁ ▸ hnull)
  generalize e₁.place = e₂ at hplace hread hsame₂
  have hmaster₂ : e₂.master = e.master := by
    rw [hplace]
    exact hmaster₁
  have hget₂ : e₂.get = e.get := by
    rw [hplace, ← hget₁]
    rfl
  have hflags : e₂.same_fields = e₁.same_fields := by
    rw [hplace]
    rfl
  have hm₂ : Filled list e₂ e.master e.master_field_count := fun k hk σ hσ => by
    rw [hget₂]
    exact hm k hk σ hσ
  unfold read_fields at hread
  dsimp only at hread
  split at hread
  · cases hread
  · next b e₃ lval₂ hpairs =>
    simp only [Option.some.injEq, Prod.mk.injEq, Bool.and_eq_true] at hread
    obtain ⟨⟨⟨rfl, -⟩, -⟩, rfl, -⟩ := hread
    have hnil : ∀ p, Filled list e₂ p 0 := fun p k hk => absurd hk (Nat.not_lt_zero k)
    obtain ⟨hkept, hfields, hvalues, hrest⟩ := read_pairs_filled hpairs (fun _ => hnil _) (hnil _)
    rw [Nat.zero_add] at hfields hvalues
    have hmaster₃ : e₃.master = e.master := by
      rw [hkept]
      exact hmaster₂
    have hmfc₃ : e₃.master_field_count = e.master_field_count := by
      rw [hkept, hplace]
      exact hcount₁
    have hefc₃ : e₃.entry_field_count = e₂.entry_field_count := by rw [hkept]
    have hfields₃ : e₃.fields = e₂.fields := by rw [hkept]
    have hvalues₃ : e₃.values = e₂.values := by rw [hkept]
    rw [hmaster₃, hmfc₃, hefc₃, hfields₃, hvalues₃]
    refine ⟨⟨hnull, hrest _ _ hm₂⟩, ?_, hvalues⟩
    cases hsame : e₁.same_fields with
    | true =>
      have hefc₂ : e₂.entry_field_count = e.master_field_count := by
        rw [hplace]
        exact hsame₁ hsame
      rw [hsame₂ hsame, hmaster₁, hefc₂]
      exact hrest _ _ hm₂
    | false => exact hfields (hflags.trans hsame)

theorem decode_lval_same {list list' : RdbListPack} (h : list.Same list') {lval : RdbListValue}
    (hin : list.InRange lval) :
    (RdbDecode.decode_lval list'.base lval).val = (RdbDecode.decode_lval list.base lval).val := by
  rw [list'.decode_lval_elem, list.decode_lval_elem, h.elem hin]

theorem load_filled {list : RdbListPack} {e : RdbStreamEntry} {p : ArrPtr} {i n : Nat} {v : RdbListValue}
    (hp : Filled list e p n) (hi : i < n) (hload : e.load p i = some v) : list.InRange v := by
  obtain ⟨-, σ, hσ, hv⟩ := load_some.mp hload
  rw [← hv]
  exact hp i hi σ hσ

/-- A pair whose slots hold elements of the list is handed out the same from lists with the same bytes. -/
theorem pair_same {list list' : RdbListPack} (h : list.Same list') {e : RdbStreamEntry} {i n : Nat}
    (hf : Filled list e e.fields n) (hv : Filled list e e.values n) (hi : i < n) :
    e.pair list'.base i = e.pair list.base i := by
  unfold pair
  cases hfield : e.load e.fields i with
  | none => rfl
  | some field =>
    cases hvalue : e.load e.values i with
    | none => rfl
    | some val =>
      simp only [decode_lval_same h (load_filled hf hi hfield), decode_lval_same h (load_filled hv hi hvalue)]

theorem mapM_congr {α β : Type} {f g : α → Option β} {xs : List α} (h : ∀ x ∈ xs, f x = g x) :
    xs.mapM f = xs.mapM g := by
  induction xs with
  | nil => rfl
  | cons x xs ih =>
    rw [List.mapM_cons, List.mapM_cons, h x (List.mem_cons_self ..),
      ih fun y hy => h y (List.mem_cons_of_mem x hy)]

/-- What the arrays of an entry hold does not depend on where the list lies. -/
theorem pairs_same {list list' : RdbListPack} (h : list.Same list') {e : RdbStreamEntry}
    (hf : Filled list e e.fields e.entry_field_count) (hv : Filled list e e.values e.entry_field_count) :
    e.pairs list'.base = e.pairs list.base := by
  have hmap : (List.range e.entry_field_count).mapM (e.pair list'.base) =
      (List.range e.entry_field_count).mapM (e.pair list.base) :=
    mapM_congr fun i hi => pair_same h hf hv (List.mem_range.mp hi)
  exact hmap

end RdbStreamEntry

namespace RdbDecode

open RdbStreamEntry

/-- The entries of a list are handed out the same from any list with the same bytes, by induction on how many are
still counted: what is in the slots is of the list. -/
theorem stream_entries_same {list list' : RdbListPack} (h : list.Same list') (n : Nat) {e : RdbStreamEntry}
    (lval : RdbListValue) (hnull : e.master ≠ .null) (hm : Filled list e e.master e.master_field_count) :
    stream_entries list' n e lval = stream_entries list n e lval := by
  induction n generalizing e lval with
  | zero => rfl
  | succ n ih =>
    unfold stream_entries
    rw [h.read_entry]
    cases hread : e.read_entry list lval with
    | none => rfl
    | some r =>
      obtain ⟨b, e', lval'⟩ := r
      cases b with
      | false => rfl
      | true =>
        obtain ⟨⟨hnull', hm'⟩, hf, hv⟩ := read_entry_filled hread hnull hm
        have hentry : stream_entry e' list'.base = stream_entry e' list.base := by
          rw [stream_entry, stream_entry, pairs_same h hf hv]
        dsimp only
        rw [hentry, ih lval' hnull' hm', ih (e := { e' with num := e'.num + 1 }) lval' hnull' hm']

/-- The block of a node is decoded alike from every memory. -/
theorem stream_block_same {b : Ptr} {text : List UInt8} (hb : b.mem.Starts text) (htext : format.Bounded text)
    (e : RdbStreamEntry) (id : RdbStreamRecId) :
    stream_block e (id, b, text.length) = stream_block e (id, .lit text, text.length) := by
  have hlit : (Ptr.lit text).mem.Starts text := Mem.ofList_starts text fun _ => 0
  unfold stream_block
  cases hinit : RdbListPack.init (.lit text) text.length with
  | none => simp only [RdbListPack.init_none_same hinit hlit hb]
  | some list =>
    obtain ⟨list', hinit', hsame, -⟩ := RdbListPack.init_same hinit hlit hb (htext list hinit)
    simp only [hinit', hsame.read_header]
    cases hheader : RdbStreamEntry.read_header { e with id := id } list with
    | none => rfl
    | some r =>
      obtain ⟨b, e', lval⟩ := r
      cases b with
      | false => rfl
      | true =>
        obtain ⟨hnull, hm⟩ := read_header_filled hheader
        exact stream_entries_same hsame _ lval hnull hm

end RdbDecode

end rdbparser
