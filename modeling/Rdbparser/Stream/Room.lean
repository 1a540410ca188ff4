import Rdbparser.Stream.Slots

namespace rdbparser

/-- The allocated block an array is in. -/
def ArrPtr.blocks : ArrPtr → List Nat
  | .heap id => [id]
  | _ => []

namespace RdbStreamEntry

/-- `release` of an array is in order. -/
def Frees (e : RdbStreamEntry) : ArrPtr → Prop
  | .null => True
  | .tmp i => i < TMP_SIZE
  | .heap id => id ∉ e.freed

theorem release_some {e : RdbStreamEntry} {p : ArrPtr} (h : e.Frees p) :
    e.release p = some { e with freed := p.blocks ++ e.freed } := by
  cases p with
  | null => rfl
  | tmp i => exact if_pos h
  | heap id => exact if_neg h

theorem release_none {e : RdbStreamEntry} {p : ArrPtr} (h : ¬ e.Frees p) : e.release p = none := by
  cases p with
  | null => exact absurd trivial h
  | tmp i => exact if_neg h
  | heap id => exact if_pos (not_not.mp h)

/-- The blocks an entry knows of have been allocated, and that of the values is no other's. -/
structure Sound (e : RdbStreamEntry) : Prop where
  freed : ∀ id ∈ e.freed, id < e.mallocs
  master : ∀ id ∈ e.master.blocks, id < e.mallocs
  fields : ∀ id ∈ e.fields.blocks, id < e.mallocs
  values : ∀ id ∈ e.values.blocks,
    id < e.mallocs ∧ id ∉ e.freed ∧ id ∉ e.fields.blocks ∧ id ∉ e.master.blocks

/-- The fields and values of the entry before can be released. -/
def Releasable (e : RdbStreamEntry) : Prop := e.Frees e.fields ∧ e.Frees e.values

/-- The master fields are still there. -/
def Live (e : RdbStreamEntry) : Prop := ∀ id ∈ e.master.blocks, id ∉ e.freed

/-- The fields are the master fields, in an allocated block. -/
def Shared (e : RdbStreamEntry) : Prop := ∃ id ∈ e.master.blocks, id ∈ e.fields.blocks

theorem mem_blocks {p : ArrPtr} {id : Nat} : id ∈ p.blocks ↔ p = .heap id := by
  cases p with
  | null | tmp => simp [ArrPtr.blocks]
  | heap id' => simp only [ArrPtr.blocks, List.mem_singleton, ArrPtr.heap.injEq, eq_comm]

/-- What `clear` leaves: the fields and values are released. -/
def cleared (e : RdbStreamEntry) : RdbStreamEntry :=
  { e with fields := .null, values := .null, freed := e.values.blocks ++ (e.fields.blocks ++ e.freed) }

/-- What can be released behind other blocks is none of these. -/
theorem frees_append {e : RdbStreamEntry} {bs : List Nat} {p : ArrPtr} :
    Frees { e with freed := bs ++ e.freed } p ↔ e.Frees p ∧ ∀ id ∈ p.blocks, id ∉ bs := by
  cases p with
  | null => exact (and_iff_left fun id hid => absurd hid List.not_mem_nil).symm
  | tmp i => exact (and_iff_left fun id hid => absurd hid List.not_mem_nil).symm
  | heap id =>
    rw [Frees, Frees, ArrPtr.blocks, List.forall_mem_singleton, List.mem_append, not_or]
    exact And.comm

theorem clear_some {e : RdbStreamEntry} (hs : e.Sound) (h : e.Releasable) : e.clear = some e.cleared := by
  have hvalues : Frees { e with freed := e.fields.blocks ++ e.freed } e.values :=
    frees_append.mpr ⟨h.2, fun id hid => (hs.values id hid).2.2.1⟩
  simp only [clear, release_some h.1]
  rw [release_some hvalues]
  rfl

theorem clear_none {e : RdbStreamEntry} (h : ¬ e.Releasable) : e.clear = none := by
  by_cases hfields : e.Frees e.fields
  · have hvalues : ¬ Frees { e with freed := e.fields.blocks ++ e.freed } e.values := fun hfrees =>
      h ⟨hfields, (frees_append.mp hfrees).1⟩
    simp only [clear, release_some hfields, release_none hvalues]
  · simp only [clear, release_none hfields]

/-- Arrays are released one by one, each with the ones before it freed. -/
theorem release_all_cons {e : RdbStreamEntry} {p : ArrPtr} {ps : List ArrPtr} :
    (e.release_all (p :: ps)).isSome = true ↔
      e.Frees p ∧ (release_all { e with freed := p.blocks ++ e.freed } ps).isSome = true := by
  rw [release_all]
  by_cases hp : e.Frees p
  · rw [release_some hp, and_iff_right hp]
  · rw [release_none hp]
    exact iff_of_false Bool.false_ne_true fun h => hp h.1

/-- The destructor goes through if each array can be released and the fields are not the master fields, in one block. -/
theorem destroy_iff {e : RdbStreamEntry} (hs : e.Sound) :
    e.destroy.isSome = true ↔ e.Frees e.master ∧ ¬ e.Shared ∧ e.Releasable := by
  have hvalues : ∀ bs, bs = e.master.blocks ∨ bs = e.fields.blocks → ∀ id ∈ e.values.blocks, id ∉ bs := by
    rintro bs (rfl | rfl) id hid
    · exact (hs.values id hid).2.2.2
    · exact (hs.values id hid).2.2.1
  have hshared : (∀ id ∈ e.fields.blocks, id ∉ e.master.blocks) ↔ ¬ e.Shared :=
    ⟨fun h ⟨id, hm, hf⟩ => h id hf hm, fun h id hf hm => h ⟨id, hm, hf⟩⟩
  rw [destroy, release_all_cons, release_all_cons, release_all_cons, frees_append, frees_append, frees_append, hshared,
    and_iff_left (hvalues _ (.inl rfl)), and_iff_left (hvalues _ (.inr rfl)), Releasable]
  have hend : ∀ e' : RdbStreamEntry, (e'.release_all []).isSome = true := fun _ => rfl
  rw [and_iff_left (hend _)]
  exact and_congr_right fun _ => ⟨fun h => ⟨h.1.2, h.1.1, h.2⟩, fun h => ⟨⟨h.2.1, h.1⟩, h.2.2⟩⟩

theorem cleared_freed {e : RdbStreamEntry} {id : Nat} :
    id ∈ e.cleared.freed ↔ id ∈ e.values.blocks ∨ id ∈ e.fields.blocks ∨ id ∈ e.freed := by
  simp only [cleared, List.mem_append]

/-- Clearing a sound entry leaves a sound one. -/
theorem Sound.cleared {e : RdbStreamEntry} (hs : e.Sound) : e.cleared.Sound := by
  refine ⟨?_, hs.master, ?_, ?_⟩
  · intro id hid
    rcases cleared_freed.mp hid with hid | hid | hid
    · exact (hs.values id hid).1
    · exact hs.fields id hid
    · exact hs.freed id hid
  · intro id hid
    cases hid
  · intro id hid
    cases hid

/-- New blocks for the fields and values. -/
theorem Sound.placed {e e' : RdbStreamEntry} (hs : e.Sound) (hmaster : e'.master = e.master)
    (hfreed : e'.freed = e.freed) (hmallocs : e.mallocs ≤ e'.mallocs)
    (hfields : ∀ id ∈ e'.fields.blocks, id < e'.mallocs)
    (hvalues : ∀ id ∈ e'.values.blocks, e.mallocs ≤ id ∧ id < e'.mallocs ∧ id ∉ e'.fields.blocks) :
    e'.Sound := by
  refine ⟨fun id hid => ?_, fun id hid => ?_, hfields, fun id hid => ?_⟩
  · rw [hfreed] at hid
    have := hs.freed id hid
    omega
  · rw [hmaster] at hid
    have := hs.master id hid
    omega
  · obtain ⟨hge, hlt, hid'⟩ := hvalues id hid
    refine ⟨hlt, fun hf => ?_, hid', fun hm => ?_⟩
    · rw [hfreed] at hf
      have := hs.freed id hf
      omega
    · rw [hmaster] at hm
      have := hs.master id hm
      omega

theorem Kept.sound {e e' : RdbStreamEntry} (h : Kept e e') (hs : e.Sound) : e'.Sound := by
  rw [h]
  exact ⟨hs.freed, hs.master, hs.fields, hs.values⟩

/-- The two places of the master fields. -/
theorem place_master_cases (e : RdbStreamEntry) :
    (TMP_SIZE < e.master_field_count ∧ e.place_master =
      { (e.malloc (LIST_VALUE_SIZE * e.master_field_count % 2 ^ 64)).2 with master := .heap e.mallocs }) ∨
    (e.master_field_count ≤ TMP_SIZE ∧ e.place_master = { e with master := .tmp 0 }) := by
  by_cases hfit : TMP_SIZE < e.master_field_count
  · refine .inl ⟨hfit, ?_⟩
    simp only [place_master, if_pos hfit, malloc]
  · refine .inr ⟨Nat.le_of_not_lt hfit, ?_⟩
    simp only [place_master, if_neg hfit]

/-- New master fields are no other's. -/
theorem place_master_sound {e : RdbStreamEntry} (hs : e.Sound) :
    e.place_master.Sound ∧ e.place_master.Live ∧ ¬ e.place_master.Shared := by
  rcases place_master_cases e with ⟨-, h⟩ | ⟨-, h⟩
  · rw [h]
    refine ⟨⟨fun id hid => Nat.lt_succ_of_lt (hs.freed id hid), fun id hid => ?_,
      fun id hid => Nat.lt_succ_of_lt (hs.fields id hid), fun id hid => ?_⟩, fun id hid => ?_,
      fun ⟨id, hid, hfields⟩ => ?_⟩
    · obtain rfl := List.mem_singleton.mp hid
      exact Nat.lt_succ_self _
    · obtain ⟨hlt, hfreed, hfields, -⟩ := hs.values id hid
      refine ⟨Nat.lt_succ_of_lt hlt, hfreed, hfields, fun h => ?_⟩
      obtain rfl := List.mem_singleton.mp h
      exact Nat.lt_irrefl _ hlt
    · obtain rfl := List.mem_singleton.mp hid
      exact fun h => Nat.lt_irrefl _ (hs.freed _ h)
    · obtain rfl := List.mem_singleton.mp hid
      exact Nat.lt_irrefl _ (hs.fields _ hfields)
  · rw [h]
    refine ⟨⟨hs.freed, fun id hid => (by cases hid), hs.fields, fun id hid => ?_⟩,
      fun id hid => (by cases hid), fun ⟨id, hid, _⟩ => (by cases hid)⟩
    obtain ⟨hlt, hfreed, hfields, -⟩ := hs.values id hid
    exact ⟨hlt, hfreed, hfields, List.not_mem_nil⟩

/-- The master fields are still there behind it if they were, and the entry did not share them. -/
theorem cleared_live {e : RdbStreamEntry} (hs : e.Sound) : e.cleared.Live ↔ e.Live ∧ ¬ e.Shared := by
  constructor
  · intro h
    refine ⟨fun id hid hfreed => ?_, fun ⟨id, hid, hfields⟩ => ?_⟩
    · exact h id hid (cleared_freed.mpr (.inr (.inr hfreed)))
    · exact h id hid (cleared_freed.mpr (.inr (.inl hfields)))
  · intro ⟨hlive, hshared⟩ id hid hfreed
    rcases cleared_freed.mp hfreed with hvalues | hfields | hfreed
    · exact (hs.values id hvalues).2.2.2 hid
    · exact hshared ⟨id, hid, hfields⟩
    · exact hlive id hid hfreed

/-- The master fields are at the start of `tmp` if they fit there, else in a block of their own. -/
def Laid (e : RdbStreamEntry) : Prop :=
  (e.master = .tmp 0 ∧ e.master_field_count ≤ TMP_SIZE) ∨
    ∃ id, e.master = .heap id ∧ TMP_SIZE < e.master_field_count ∧
      e.size id = LIST_VALUE_SIZE * e.master_field_count

/-- The master fields can be freed if they have not been. -/
theorem Laid.frees {e : RdbStreamEntry} (h : e.Laid) : e.Frees e.master ↔ e.Live := by
  rcases h with ⟨hmaster, -⟩ | ⟨id, hmaster, -, -⟩
  · rw [Live, hmaster]
    refine ⟨fun _ id hid => ?_, fun _ => ?_⟩
    · cases hid
    · change 0 < TMP_SIZE
      decide
  · rw [Live, hmaster]
    exact ⟨fun h id' hid => List.mem_singleton.mp hid ▸ h, fun h => h id (List.mem_singleton.mpr rfl)⟩

/-- Master fields that are gone were in a block. -/
theorem Laid.not_live {e : RdbStreamEntry} (h : e.Laid) (hlive : ¬ e.Live) :
    TMP_SIZE < e.master_field_count ∧ e.load e.master 0 = none := by
  rcases h with ⟨hmaster, -⟩ | ⟨id, hmaster, hlt, -⟩
  · refine absurd (fun id hid => ?_) hlive
    rw [hmaster] at hid
    cases hid
  · have hfreed : id ∈ e.freed := by
      by_contra hnot
      apply hlive
      intro id' hid
      rw [hmaster] at hid
      rwa [List.mem_singleton.mp hid]
    refine ⟨hlt, ?_⟩
    rw [hmaster, load, if_neg]
    exact fun hin => (of_decide_eq_true hin).1 hfreed

/-- The room in `tmp` ends with it and has no slot of the master fields. None is left if there are as
many of these as slots. -/
theorem room_spec {e : RdbStreamEntry} (h : e.Laid) :
    e.room.1 + e.room.2 = TMP_SIZE ∧ (e.room.1 = TMP_SIZE ↔ e.master_field_count = TMP_SIZE) ∧
      ∀ j n, e.room.1 ≤ j → Apart e.master e.master_field_count (.tmp j) n := by
  rcases h with ⟨hmaster, hle⟩ | ⟨id, hmaster, hlt, -⟩
  · have hroom : e.room = (e.master_field_count, TMP_SIZE - e.master_field_count) := by
      rw [room, if_pos hmaster, sub64, if_pos hle]
    rw [hroom, hmaster]
    refine ⟨Nat.add_sub_of_le hle, Iff.rfl, fun j n hj => apart_tmp ?_ n⟩
    rwa [Nat.zero_add]
  · have hroom : e.room = (0, TMP_SIZE) := by
      rw [room, if_neg (by rw [hmaster]; exact ArrPtr.noConfusion)]
    rw [hroom, hmaster]
    refine ⟨Nat.zero_add _, ⟨fun h0 => absurd h0 (by decide), fun hm => ?_⟩,
      fun j n _ => apart_heap_tmp id _ j n⟩
    rw [hm] at hlt
    exact absurd hlt (Nat.lt_irrefl _)

/-- Room has been found in `e'` for the fields and values of `e`; nothing else has changed. -/
structure Placed (e e' : RdbStreamEntry) : Prop where
  eq : e' = { e with
    fields := e'.fields, values := e'.values, size := e'.size, mallocs := e'.mallocs }
  mallocs : e.mallocs ≤ e'.mallocs
  size : ∀ id < e.mallocs, e'.size id = e.size id
  inside : ∀ k < e.entry_field_count, e'.inside e'.values k = true
  apart : Apart e.master e.master_field_count e'.values e.entry_field_count
  blocks : ∀ id ∈ e'.values.blocks, e.mallocs ≤ id ∧ id < e'.mallocs ∧ id ∉ e'.fields.blocks
  frees : e.master_field_count ≠ TMP_SIZE ∨ 0 < e.entry_field_count → e'.Frees e'.values

/-- The fields have found room of their own. -/
structure PlacedOwn (e e' : RdbStreamEntry) : Prop extends Placed e e' where
  fields_inside : ∀ k < e.entry_field_count, e'.inside e'.fields k = true
  fields_apart : Apart e.master e.master_field_count e'.fields e.entry_field_count
  fields_values : Apart e'.fields e.entry_field_count e'.values e.entry_field_count
  fields_blocks : ∀ id ∈ e'.fields.blocks, e.mallocs ≤ id ∧ id < e'.mallocs
  fields_frees : e'.Frees e'.fields ↔ e.master_field_count ≠ TMP_SIZE ∨ 0 < e.entry_field_count

/-- The entry with room for its fields and values. -/
def place (e : RdbStreamEntry) : RdbStreamEntry :=
  (e.place_fields e.room.1 e.room.2).2.2.place_values (e.place_fields e.room.1 e.room.2).1
    (e.place_fields e.room.1 e.room.2).2.1

theorem inside_tmp {e : RdbStreamEntry} {j n : Nat} (h : j + n ≤ TMP_SIZE) {k : Nat} (hk : k < n) :
    e.inside (.tmp j) k = true := decide_eq_true (by omega)

theorem inside_heap {e : RdbStreamEntry} {id n : Nat} (hfreed : id ∉ e.freed)
    (hsize : e.size id = LIST_VALUE_SIZE * n) {k : Nat} (hk : k < n) : e.inside (.heap id) k = true := by
  refine decide_eq_true ⟨hfreed, ?_⟩
  rw [hsize]
  exact Nat.mul_le_mul_left _ hk

/-- A block that has just been allocated is apart from the master fields. -/
theorem master_apart_new {e : RdbStreamEntry} (hs : e.Sound) (m : Nat) {id : Nat} (hid : e.mallocs ≤ id)
    (n : Nat) : Apart e.master m (.heap id) n := by
  cases hmaster : e.master with
  | null =>
    intro i _ j _ σ hσ
    cases hσ
  | tmp i => exact apart_tmp_heap i m id n
  | heap id' =>
    have hlt := hs.master id' (mem_blocks.mpr hmaster)
    exact apart_heap (by omega) m n

/-- Fields and values in `tmp`. -/
theorem placed_tmp {e : RdbStreamEntry} (hl : e.Laid)
    (hfit : e.entry_field_count + e.entry_field_count ≤ e.room.2) :
    e.PlacedOwn { e with
      fields := .tmp e.room.1, values := .tmp (e.room.1 + e.entry_field_count) } := by
  obtain ⟨hroom, hfull, happ⟩ := room_spec hl
  have hfields : e.room.1 < TMP_SIZE ↔ e.master_field_count ≠ TMP_SIZE ∨ 0 < e.entry_field_count := by
    rw [Ne, ← hfull]
    omega
  exact
    { eq := rfl
      mallocs := Nat.le_refl _
      size := fun _ _ => rfl
      inside := fun k hk => inside_tmp (by omega) hk
      apart := happ _ _ (Nat.le_add_right _ _)
      blocks := fun id hid => by cases hid
      frees := fun h => by
        have hlt := hfields.mpr h
        change e.room.1 + e.entry_field_count < TMP_SIZE
        omega
      fields_inside := fun k hk => inside_tmp (by omega) hk
      fields_apart := happ _ _ (Nat.le_refl _)
      fields_values := apart_tmp (Nat.le_refl _) _
      fields_blocks := fun id hid => by cases hid
      fields_frees := hfields }

/-- Fields in `tmp` and values in a new block. -/
theorem placed_tmp_new {e : RdbStreamEntry} (hs : e.Sound) (hl : e.Laid)
    (hfit : e.entry_field_count ≤ e.room.2) (hrest : e.room.2 < e.entry_field_count + e.entry_field_count) :
    e.PlacedOwn { (e.malloc (LIST_VALUE_SIZE * e.entry_field_count)).2 with
      fields := .tmp e.room.1, values := .heap e.mallocs } := by
  obtain ⟨hroom, hfull, happ⟩ := room_spec hl
  have hnew : e.mallocs ∉ e.freed := fun h => Nat.lt_irrefl _ (hs.freed _ h)
  exact
    { eq := rfl
      mallocs := Nat.le_succ _
      size := fun id hid => if_neg (Nat.ne_of_lt hid)
      inside := fun k hk => by
        apply inside_heap ?_ ?_ hk
        · exact hnew
        · exact if_pos rfl
      apart := master_apart_new hs _ (Nat.le_refl _) _
      blocks := fun id hid => by
        obtain rfl := List.mem_singleton.mp hid
        exact ⟨Nat.le_refl _, Nat.lt_succ_self _, List.not_mem_nil⟩
      frees := fun _ => hnew
      fields_inside := fun k hk => inside_tmp (by omega) hk
      fields_apart := happ _ _ (Nat.le_refl _)
      fields_values := apart_tmp_heap _ _ _ _
      fields_blocks := fun id hid => by cases hid
      fields_frees := by
        change e.room.1 < TMP_SIZE ↔ _
        rw [Ne, ← hfull]
        omega }

/-- Fields and values in new blocks. -/
theorem placed_new {e : RdbStreamEntry} (hs : e.Sound) (hn : 0 < e.entry_field_count) :
    e.PlacedOwn { ((e.malloc (LIST_VALUE_SIZE * e.entry_field_count)).2.malloc
        (LIST_VALUE_SIZE * e.entry_field_count)).2 with
      fields := .heap e.mallocs, values := .heap (e.mallocs + 1) } := by
  have hnew : e.mallocs ∉ e.freed := fun h => Nat.lt_irrefl _ (hs.freed _ h)
  have hnew' : e.mallocs + 1 ∉ e.freed := fun h => absurd (hs.freed _ h) (by omega)
  have hne : e.mallocs ≠ e.mallocs + 1 := Nat.ne_of_lt (Nat.lt_succ_self _)
  exact
    { eq := rfl
      mallocs := Nat.le_add_right _ 2
      size := fun id hid => (if_neg (Nat.ne_of_lt (Nat.lt_succ_of_lt hid))).trans (if_neg (Nat.ne_of_lt hid))
      inside := fun k hk => by
        apply inside_heap ?_ ?_ hk
        · exact hnew'
        · exact if_pos rfl
      apart := master_apart_new hs _ (Nat.le_succ _) _
      blocks := fun id hid => by
        obtain rfl := List.mem_singleton.mp hid
        exact ⟨Nat.le_succ _, Nat.lt_succ_self _, fun h => hne (List.mem_singleton.mp h).symm⟩
      frees := fun _ => hnew'
      fields_inside := fun k hk => by
        apply inside_heap ?_ ?_ hk
        · exact hnew
        · exact (if_neg hne).trans (if_pos rfl)
      fields_apart := master_apart_new hs _ (Nat.le_refl _) _
      fields_values := apart_heap hne _ _
      fields_blocks := fun id hid => by
        obtain rfl := List.mem_singleton.mp hid
        exact ⟨Nat.le_refl _, Nat.lt_add_of_pos_right Nat.two_pos⟩
      fields_frees := ⟨fun _ => .inr hn, fun _ => hnew⟩ }

/-- The bytes that are allocated for fields or values. -/
def bytes (e : RdbStreamEntry) : Nat := LIST_VALUE_SIZE * e.entry_field_count % 2 ^ 64

/-- Where the fields and values of an entry are put. -/
theorem place_own_cases {e : RdbStreamEntry} (hfields : e.fields = .null) (hvalues : e.values = .null)
    (hown : e.same_fields = false) :
    (e.entry_field_count + e.entry_field_count ≤ e.room.2 ∧ e.place = { e with
        fields := .tmp e.room.1, values := .tmp (e.room.1 + e.entry_field_count) }) ∨
      (e.entry_field_count ≤ e.room.2 ∧ e.room.2 < e.entry_field_count + e.entry_field_count ∧
        e.place = { (e.malloc e.bytes).2 with fields := .tmp e.room.1, values := .heap e.mallocs }) ∨
      (e.room.2 < e.entry_field_count ∧ e.place = { ((e.malloc e.bytes).2.malloc e.bytes).2 with
        fields := .heap e.mallocs, values := .heap (e.mallocs + 1) }) := by
  by_cases hfit : e.entry_field_count ≤ e.room.2
  · by_cases hfit' : e.entry_field_count ≤ e.room.2 - e.entry_field_count
    · refine .inl ⟨by omega, ?_⟩
      simp only [place, place_fields, hown, Bool.false_eq_true, if_false, hfit, if_true, place_values, hfit',
        reduceCtorEq]
    · refine .inr (.inl ⟨hfit, by omega, ?_⟩)
      simp only [place, place_fields, hown, Bool.false_eq_true, if_false, hfit, if_true, place_values, hfit',
        reduceCtorEq, hvalues, malloc, bytes]
  · refine .inr (.inr ⟨by omega, ?_⟩)
    simp only [place, place_fields, hown, Bool.false_eq_true, if_false, hfit, place_values, hfields, if_true,
      hvalues, malloc, bytes]

/-- Where the values of an entry with the master fields are put. -/
theorem place_same_cases {e : RdbStreamEntry} (hmaster : e.master ≠ .null) (hvalues : e.values = .null)
    (hsame : e.same_fields = true) :
    (e.entry_field_count ≤ e.room.2 ∧ e.place = { e with fields := e.master, values := .tmp e.room.1 }) ∨
      (e.room.2 < e.entry_field_count ∧
        e.place = { (e.malloc e.bytes).2 with fields := e.master, values := .heap e.mallocs }) := by
  by_cases hfit : e.entry_field_count ≤ e.room.2
  · refine .inl ⟨hfit, ?_⟩
    simp only [place, place_fields, hsame, if_true, place_values, hfit, hmaster, if_false, reduceCtorEq]
  · refine .inr ⟨by omega, ?_⟩
    simp only [place, place_fields, hsame, if_true, place_values, hfit, hmaster, if_false, hvalues, malloc, bytes]

/-- Room for the fields of an entry that is to have the master fields before there are any. -/
theorem place_null_cases {e : RdbStreamEntry} (hmaster : e.master = .null) (hvalues : e.values = .null)
    (hsame : e.same_fields = true) :
    (e.entry_field_count ≤ e.room.2 ∧ e.place = { (e.malloc e.bytes).2 with
        fields := .heap e.mallocs, values := .tmp e.room.1 }) ∨
      (e.room.2 < e.entry_field_count ∧ e.place = { ((e.malloc e.bytes).2.malloc e.bytes).2 with
        fields := .heap e.mallocs, values := .heap (e.mallocs + 1) }) := by
  by_cases hfit : e.entry_field_count ≤ e.room.2
  · refine .inl ⟨hfit, ?_⟩
    simp only [place, place_fields, hsame, if_true, place_values, hfit, hmaster, malloc, bytes, reduceCtorEq,
      if_false]
  · refine .inr ⟨by omega, ?_⟩
    simp only [place, place_fields, hsame, if_true, place_values, hfit, hmaster, if_false, hvalues, malloc, bytes]

/-- The fields and values of `e'` are in `tmp` or in blocks allocated since `e`, or the fields are the
master fields. -/
structure Allotted (e e' : RdbStreamEntry) : Prop where
  eq : e' = { e with
    fields := e'.fields, values := e'.values, size := e'.size, mallocs := e'.mallocs }
  mallocs : e.mallocs ≤ e'.mallocs
  fields : e.same_fields = true ∧ e'.fields = e.master ∨
    ∀ id ∈ e'.fields.blocks, e.mallocs ≤ id ∧ id < e'.mallocs
  values : ∀ id ∈ e'.values.blocks, e.mallocs ≤ id ∧ id < e'.mallocs ∧ id ∉ e'.fields.blocks

/-- Fields and values in new blocks. -/
theorem allotted_new (e : RdbStreamEntry) :
    e.Allotted { ((e.malloc e.bytes).2.malloc e.bytes).2 with
      fields := .heap e.mallocs, values := .heap (e.mallocs + 1) } where
  eq := rfl
  mallocs := Nat.le_add_right _ 2
  fields := .inr fun id hid => by
    obtain rfl := List.mem_singleton.mp hid
    exact ⟨Nat.le_refl _, Nat.lt_add_of_pos_right Nat.two_pos⟩
  values := fun id hid => by
    obtain rfl := List.mem_singleton.mp hid
    exact ⟨Nat.le_succ _, Nat.lt_succ_self _, fun h => Nat.succ_ne_self _ (List.mem_singleton.mp h)⟩

/-- Where room is found. -/
theorem place_allotted {e : RdbStreamEntry} (hs : e.Sound) (hfields : e.fields = .null)
    (hvalues : e.values = .null) : e.Allotted e.place := by
  cases hsame : e.same_fields with
  | false =>
    rcases place_own_cases hfields hvalues hsame with ⟨-, h⟩ | ⟨-, -, h⟩ | ⟨-, h⟩
    · rw [h]
      exact ⟨rfl, Nat.le_refl _, .inr fun id hid => (by cases hid), fun id hid => (by cases hid)⟩
    · rw [h]
      refine ⟨rfl, Nat.le_succ _, .inr fun id hid => (by cases hid), fun id hid => ?_⟩
      obtain rfl := List.mem_singleton.mp hid
      exact ⟨Nat.le_refl _, Nat.lt_succ_self _, List.not_mem_nil⟩
    · rw [h]
      exact allotted_new e
  | true =>
    by_cases hmaster : e.master = .null
    · rcases place_null_cases hmaster hvalues hsame with ⟨-, h⟩ | ⟨-, h⟩
      · rw [h]
        refine ⟨rfl, Nat.le_succ _, .inr fun id hid => ?_, fun id hid => (by cases hid)⟩
        obtain rfl := List.mem_singleton.mp hid
        exact ⟨Nat.le_refl _, Nat.lt_succ_self _⟩
      · rw [h]
        exact allotted_new e
    · rcases place_same_cases hmaster hvalues hsame with ⟨-, h⟩ | ⟨-, h⟩
      · rw [h]
        exact ⟨rfl, Nat.le_refl _, .inl ⟨hsame, rfl⟩, fun id hid => (by cases hid)⟩
      · rw [h]
        refine ⟨rfl, Nat.le_succ _, .inl ⟨hsame, rfl⟩, fun id hid => ?_⟩
        obtain rfl := List.mem_singleton.mp hid
        exact ⟨Nat.le_refl _, Nat.lt_succ_self _, fun hm => Nat.lt_irrefl _ (hs.master _ hm)⟩

theorem Allotted.fields_lt {e e' : RdbStreamEntry} (h : e.Allotted e') (hs : e.Sound) :
    ∀ id ∈ e'.fields.blocks, id < e'.mallocs := by
  intro id hid
  rcases h.fields with ⟨-, hmaster⟩ | hnew
  · exact Nat.lt_of_lt_of_le (hs.master id (hmaster ▸ hid)) h.mallocs
  · exact (hnew id hid).2

theorem Allotted.sound {e e' : RdbStreamEntry} (h : e.Allotted e') (hs : e.Sound) : e'.Sound :=
  hs.placed (by rw [h.eq]) (by rw [h.eq]) h.mallocs (h.fields_lt hs) h.values

/-- An entry with fields of its own is placed in slots, or in blocks of its own. -/
theorem place_own {e : RdbStreamEntry} (hs : e.Sound) (hl : e.Laid) (hfields : e.fields = .null)
    (hvalues : e.values = .null) (hown : e.same_fields = false)
    (hn : LIST_VALUE_SIZE * e.entry_field_count < 2 ^ 64) : e.PlacedOwn e.place := by
  have hbytes : e.bytes = LIST_VALUE_SIZE * e.entry_field_count := Nat.mod_eq_of_lt hn
  rcases place_own_cases hfields hvalues hown with ⟨hfit, h⟩ | ⟨hfit, hrest, h⟩ | ⟨hfit, h⟩
  · rw [h]
    exact placed_tmp hl hfit
  · rw [h, hbytes]
    exact placed_tmp_new hs hl hfit hrest
  · rw [h, hbytes]
    exact placed_new hs (by omega)

/-- An entry with the master fields finds room for its values. -/
theorem place_same {e : RdbStreamEntry} (hs : e.Sound) (hl : e.Laid) (hvalues : e.values = .null)
    (hsame : e.same_fields = true) (hcount : e.entry_field_count = e.master_field_count)
    (hn : LIST_VALUE_SIZE * e.entry_field_count < 2 ^ 64) :
    e.Placed e.place ∧ e.place.fields = e.master := by
  obtain ⟨hroom, hfull, happ⟩ := room_spec hl
  have hbytes : e.bytes = LIST_VALUE_SIZE * e.entry_field_count := Nat.mod_eq_of_lt hn
  have hmaster : e.master ≠ .null := by
    rcases hl with ⟨h, -⟩ | ⟨id, h, -⟩ <;> rw [h] <;> exact ArrPtr.noConfusion
  rcases place_same_cases hmaster hvalues hsame with ⟨hfit, h⟩ | ⟨hfit, h⟩
  · rw [h]
    refine ⟨?_, rfl⟩
    exact
      { eq := rfl
        mallocs := Nat.le_refl _
        size := fun _ _ => rfl
        inside := fun k hk => inside_tmp (by omega) hk
        apart := happ _ _ (Nat.le_refl _)
        blocks := fun id hid => by cases hid
        frees := fun h => by
          change e.room.1 < TMP_SIZE
          rw [Ne, ← hfull] at h
          omega }
  · have hnew : e.mallocs ∉ e.freed := fun h => Nat.lt_irrefl _ (hs.freed _ h)
    rw [h, hbytes]
    refine ⟨?_, rfl⟩
    exact
      { eq := rfl
        mallocs := Nat.le_succ _
        size := fun id hid => if_neg (Nat.ne_of_lt hid)
        inside := fun k hk => by
          apply inside_heap ?_ ?_ hk
          · exact hnew
          · exact if_pos rfl
        apart := master_apart_new hs _ (Nat.le_refl _) _
        blocks := fun id hid => by
          obtain rfl := List.mem_singleton.mp hid
          exact ⟨Nat.le_refl _, Nat.lt_succ_self _, fun h => Nat.lt_irrefl _ (hs.master _ h)⟩
        frees := fun _ => hnew }

end RdbStreamEntry

end rdbparser
