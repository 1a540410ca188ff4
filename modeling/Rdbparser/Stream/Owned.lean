import Rdbparser.Stream.Block
import Rdbparser.Stream.Calls

namespace rdbparser.RdbStreamEntry

/-- No block is released that was released before, as far as the releases get. -/
def Once (e : RdbStreamEntry) : List ArrPtr → Prop
  | [] => True
  | p :: ps => (∀ id ∈ p.blocks, id ∉ e.freed) ∧ ∀ e', e.release p = some e' → e'.Once ps

/-- The master fields are in `tmp` or in a block that was not released. -/
def Refers (e : RdbStreamEntry) : Prop := e.master ≠ .null ∧ e.Live

/-- A call releases each block once, and takes fields from the master fields only where they are. -/
def CallOwned (e : RdbStreamEntry) : StreamCall → Prop
  | .header _ => True
  | .entry list lval => (e.read_delta list lval).1 = true →
    e.Once [e.fields, e.values] ∧ ∀ e', (e.read_delta list lval).2.1.clear = some e' →
      e.takes list lval = true → e'.Refers

/-- All calls of a run do so, and the destructor releases each block once. -/
def Owned : RdbStreamEntry → List StreamCall → Prop
  | e, [] => e.Once [e.master, e.fields, e.values]
  | e, c :: cs => e.CallOwned c ∧ ∀ b e' lval, e.call c = some (b, e', lval) → e'.Owned cs

/-- There are master fields, and if these are in a block it was not taken by an entry yet. -/
def MayTake (e : RdbStreamEntry) (taken : Bool) : StreamCall → Prop
  | .header _ => True
  | .entry list lval => e.takes list lval = true →
    e.master ≠ .null ∧ (e.master.blocks ≠ [] → taken = false)

/-- The block of the master fields has been taken by an entry. -/
def taken_by (e : RdbStreamEntry) (taken : Bool) : StreamCall → Bool
  | .header list => taken && !(e.read_counts list).1
  | .entry list lval => taken || (e.takes list lval && decide (e.master.blocks ≠ []))

/-- A block of master fields is taken by one entry at most, and others are read before the run ends. -/
def TakenOnce : RdbStreamEntry → Bool → List StreamCall → Prop
  | _, taken, [] => taken = false
  | e, taken, c :: cs => e.MayTake taken c ∧
    ∀ b e' lval, e.call c = some (b, e', lval) → e'.TakenOnce (e.taken_by taken c) cs

/-- The pointers of fields and values are not behind `tmp`. -/
def InTmp (e : RdbStreamEntry) : Prop :=
  (∀ i, e.fields = .tmp i → i < TMP_SIZE) ∧ ∀ i, e.values = .tmp i → i < TMP_SIZE

/-- The blocks of an entry, by whether that of the master fields has been taken. The entry that took it
released it or will; before, it is the entry's own. -/
structure Holds (e : RdbStreamEntry) (taken : Bool) : Prop where
  sound : e.Sound
  fields : ∀ id ∈ e.fields.blocks, id ∉ e.freed
  live : taken = false ↔ e.cleared.Live
  in_tmp : taken = true ∨ e.master = .null → e.InTmp

theorem holds_start : Holds {} false where
  sound := sound_start
  fields := fun id hid => by cases hid
  live := ⟨fun _ id hid => (by cases hid), fun _ => rfl⟩
  in_tmp := fun _ => ⟨fun i hi => (by cases hi), fun i hi => (by cases hi)⟩

/-- What is held is told by where the arrays are, and what has been allocated and freed. -/
theorem Holds.of_held {e e' : RdbStreamEntry} {taken : Bool} (h : e.Holds taken) (hheld : e'.held = e.held) :
    e'.Holds taken := by
  obtain ⟨hmaster, hfields, hvalues, hmallocs, hfreed⟩ := held_eq hheld
  refine ⟨h.sound.of_held hheld, ?_, ?_, ?_⟩
  · rw [hfields, hfreed]
    exact h.fields
  · rw [h.live, Live, Live, cleared, cleared, hmaster, hfields, hvalues, hfreed]
  · rw [InTmp, hmaster, hfields, hvalues]
    exact h.in_tmp

/-- Releasing an array adds its block to those that are freed. -/
theorem release_freed {e e' : RdbStreamEntry} {p : ArrPtr} (h : e.release p = some e') :
    e' = { e with freed := p.blocks ++ e.freed } := by
  have hfrees : e.Frees p := by
    by_contra hnot
    rw [release_none hnot] at h
    cases h
  rw [release_some hfrees] at h
  exact (Option.some.inj h).symm

/-- The entry before is released once. -/
theorem Holds.once {e : RdbStreamEntry} {taken : Bool} (h : e.Holds taken) : e.Once [e.fields, e.values] := by
  refine ⟨h.fields, fun e' hrel => ⟨fun id hid hfreed => ?_, fun _ _ => trivial⟩⟩
  rw [release_freed hrel] at hfreed
  obtain ⟨-, hnot, hfields, -⟩ := h.sound.values id hid
  exact (List.mem_append.mp hfreed).elim hfields hnot

/-- The destructor releases each block once unless that of the master fields has been taken. -/
theorem Holds.destroy_once {e : RdbStreamEntry} {taken : Bool} (h : e.Holds taken) :
    e.Once [e.master, e.fields, e.values] ↔ taken = false := by
  rw [h.live, cleared_live h.sound]
  constructor
  · intro honce
    refine ⟨honce.1, fun ⟨id, hmaster, hfields⟩ => ?_⟩
    have hheap := mem_blocks.mp hmaster
    have hrel : e.release e.master = some { e with freed := e.master.blocks ++ e.freed } := by
      refine release_some ?_
      rw [hheap]
      exact honce.1 id hmaster
    exact (honce.2 _ hrel).1 id hfields (List.mem_append_left _ hmaster)
  · intro ⟨hlive, hshared⟩
    refine ⟨hlive, fun e₁ hrel₁ => ?_⟩
    rw [release_freed hrel₁]
    refine ⟨fun id hid hfreed => ?_, fun e₂ hrel₂ => ?_⟩
    · exact (List.mem_append.mp hfreed).elim (fun hm => hshared ⟨id, hm, hid⟩) (h.fields id hid)
    · rw [release_freed hrel₂]
      refine ⟨fun id hid hfreed => ?_, fun _ _ => trivial⟩
      obtain ⟨-, hnot, hfields, hmaster⟩ := h.sound.values id hid
      rcases List.mem_append.mp hfreed with hf | hf
      · exact hfields hf
      · exact (List.mem_append.mp hf).elim hmaster hnot

/-- What is held can be released, where no pointer is behind the slots. -/
theorem Holds.releasable {e : RdbStreamEntry} {taken : Bool} (h : e.Holds taken) (hin : e.InTmp) :
    e.Releasable := by
  constructor
  · cases hf : e.fields with
    | null => trivial
    | tmp i => exact hin.1 i hf
    | heap id => exact h.fields id (mem_blocks.mpr hf)
  · cases hv : e.values with
    | null => trivial
    | tmp i => exact hin.2 i hv
    | heap id => exact (h.sound.values id (mem_blocks.mpr hv)).2.1

theorem Live.of_empty {e : RdbStreamEntry} (h : e.master.blocks = []) : e.Live := by
  intro id hid
  rw [h] at hid
  cases hid

theorem Live.of_held {e e' : RdbStreamEntry} (h : e.Live) (hheld : e'.held = e.held) : e'.Live := by
  obtain ⟨hmaster, -, -, -, hfreed⟩ := held_eq hheld
  rw [Live, hmaster, hfreed]
  exact h

/-- A call is in order if and only if it may take the master fields where it does. -/
theorem Holds.call_owned {e : RdbStreamEntry} {taken : Bool} (h : e.Holds taken) (c : StreamCall) :
    e.CallOwned c ↔ e.MayTake taken c := by
  cases c with
  | header list => exact Iff.rfl
  | entry list lval =>
    have hheld := e.read_delta_held list lval
    constructor
    · intro howned htakes
      obtain ⟨honce, hrefers⟩ := howned (Bool.and_eq_true_iff.mp htakes).1
      by_cases hrel : e.Releasable
      · obtain ⟨hnull, hlive⟩ := hrefers _ (clear_some (h.sound.of_held hheld) hrel) htakes
        exact ⟨hnull, fun _ => h.live.mpr hlive⟩
      · -- the pointer behind `tmp` is older than the master fields
        have hnot : ¬ (taken = true ∨ e.master = .null) := fun ht => hrel (h.releasable (h.in_tmp ht))
        exact ⟨fun hnull => hnot (.inr hnull), fun _ => Bool.eq_false_iff.mpr fun ht => hnot (.inl ht)⟩
    · intro hmay hdelta
      refine ⟨h.once, fun e' hclear htakes => ?_⟩
      obtain ⟨hnull, hfirst⟩ := hmay htakes
      have hheld' := (clear_held (h.sound.of_held hheld) hclear).trans (cleared_held hheld)
      refine ⟨?_, ?_⟩
      · rw [(held_eq hheld').1]
        exact hnull
      · by_cases hblocks : e.master.blocks = []
        · refine Live.of_empty ?_
          rw [(held_eq hheld').1]
          exact hblocks
        · exact (h.live.mp (hfirst hblocks)).of_held hheld'

/-- What is cleared has nothing to clear. -/
theorem Holds.cleared {e : RdbStreamEntry} {taken : Bool} (h : e.Holds taken) : e.cleared.Holds taken where
  sound := h.sound.cleared
  fields := fun id hid => by cases hid
  live := h.live
  in_tmp := fun _ => ⟨fun i hi => (by cases hi), fun i hi => (by cases hi)⟩

/-- Reading a header keeps what is said of the blocks: those of the entry before can still be released, and the master
fields of this node are the entry's own. -/
theorem Holds.header {e e' : RdbStreamEntry} {taken : Bool} (h : e.Holds taken) {list : RdbListPack}
    {lval : RdbListValue} {b : Bool} (hcall : e.read_header list = some (b, e', lval)) :
    e'.Holds (e.taken_by taken (.header list)) := by
  rcases read_header_held hcall with ⟨hcounts, -, hheld⟩ | ⟨hcounts, hkept⟩
  · rw [taken_by, hcounts, Bool.not_false, Bool.and_true]
    exact h.of_held hheld
  · rw [taken_by, hcounts, Bool.not_true, Bool.and_false]
    have h₁ := h.of_held (e.read_counts_held list)
    refine Holds.of_held ?_ hkept.held
    generalize (e.read_counts list).2.1 = e₁ at h₁
    obtain ⟨hsound, hlive, hshared⟩ := place_master_sound h₁.sound
    refine ⟨hsound, ?_, ?_, ?_⟩
    · rcases place_master_cases e₁ with ⟨-, hplace⟩ | ⟨-, hplace⟩
      · rw [hplace]
        exact h₁.fields
      · rw [hplace]
        exact h₁.fields
    · exact ⟨fun _ => (cleared_live hsound).mpr ⟨hlive, hshared⟩, fun _ => rfl⟩
    · rintro (htaken | hnull)
      · cases htaken
      · rcases place_master_cases e₁ with ⟨-, hplace⟩ | ⟨-, hplace⟩
        · rw [hplace] at hnull
          cases hnull
        · rw [hplace] at hnull
          cases hnull

/-- Where the master fields are not in `tmp`, the pointers are not behind it. -/
theorem place_in_tmp {e : RdbStreamEntry} (hmaster : ∀ i, e.master ≠ .tmp i) (hfields : e.fields = .null)
    (hvalues : e.values = .null) : e.place.InTmp := by
  have hroom : e.room = (0, TMP_SIZE) := if_neg (hmaster 0)
  have hpos : 0 < TMP_SIZE := by decide
  cases hsame : e.same_fields with
  | false =>
    rcases place_own_cases hfields hvalues hsame with ⟨hfit, h⟩ | ⟨-, -, h⟩ | ⟨-, h⟩
    · rw [hroom] at hfit
      rw [h, hroom]
      refine ⟨fun i hi => ?_, fun i hi => ?_⟩
      · cases hi
        exact hpos
      · cases hi
        change 0 + e.entry_field_count < TMP_SIZE
        dsimp only at hfit
        omega
    · rw [h, hroom]
      refine ⟨fun i hi => ?_, fun i hi => (by cases hi)⟩
      cases hi
      exact hpos
    · rw [h]
      exact ⟨fun i hi => (by cases hi), fun i hi => (by cases hi)⟩
  | true =>
    by_cases hnull : e.master = .null
    · rcases place_null_cases hnull hvalues hsame with ⟨-, h⟩ | ⟨-, h⟩
      · rw [h, hroom]
        refine ⟨fun i hi => (by cases hi), fun i hi => ?_⟩
        cases hi
        exact hpos
      · rw [h]
        exact ⟨fun i hi => (by cases hi), fun i hi => (by cases hi)⟩
    · rcases place_same_cases hnull hvalues hsame with ⟨-, h⟩ | ⟨-, h⟩
      · rw [h, hroom]
        refine ⟨fun i hi => absurd hi (hmaster i), fun i hi => ?_⟩
        cases hi
        exact hpos
      · rw [h]
        exact ⟨fun i hi => absurd hi (hmaster i), fun i hi => (by cases hi)⟩

/-- The arrays of an entry are its own, or it takes the master fields. -/
theorem Holds.place {e : RdbStreamEntry} {taken : Bool} (h : e.Holds taken) (hfields : e.fields = .null)
    (hvalues : e.values = .null)
    (hmay : e.same_fields = true → e.master ≠ .null ∧ (e.master.blocks ≠ [] → taken = false)) :
    e.place.Holds (taken || (e.same_fields && decide (e.master.blocks ≠ []))) := by
  have hplace := place_allotted h.sound hfields hvalues
  have hmaster : e.place.master = e.master := by rw [hplace.eq]
  have hfreed : e.place.freed = e.freed := by rw [hplace.eq]
  have hlive : taken = false ↔ e.Live := by
    rw [h.live, cleared_live h.sound]
    refine ⟨And.left, fun hl => ⟨hl, ?_⟩⟩
    rintro ⟨id, -, hid⟩
    rw [hfields] at hid
    cases hid
  have hlive' : e.place.Live ↔ taken = false := by
    rw [hlive, Live, Live, hmaster, hfreed]
  -- blocks allocated now are not released, and the master fields are in an older one
  have hnew : ∀ id, e.mallocs ≤ id → id ∉ e.freed ∧ id ∉ e.master.blocks := fun id hid =>
    ⟨fun hf => Nat.lt_irrefl _ (Nat.lt_of_lt_of_le (h.sound.freed id hf) hid),
      fun hm => Nat.lt_irrefl _ (Nat.lt_of_lt_of_le (h.sound.master id hm) hid)⟩
  refine ⟨hplace.sound h.sound, ?_, ?_, ?_⟩
  · rw [hfreed]
    intro id hid
    rcases hplace.fields with ⟨hsame, hf⟩ | hf
    · rw [hf] at hid
      exact hlive.mp ((hmay hsame).2 (List.ne_nil_of_mem hid)) id hid
    · exact (hnew id (hf id hid).1).1
  · rw [cleared_live (hplace.sound h.sound), hlive', Shared, hmaster, Bool.or_eq_false_iff]
    refine and_congr_right fun _ => ?_
    cases hsame : e.same_fields with
    | false =>
      refine ⟨?_, fun _ => rfl⟩
      rintro - ⟨id, hm, hid⟩
      rcases hplace.fields with ⟨hsame', -⟩ | hf
      · rw [hsame] at hsame'
        cases hsame'
      · exact (hnew id (hf id hid).1).2 hm
    | true =>
      rw [place_same_fields (hmay hsame).1 hsame, Bool.true_and, decide_eq_false_iff_not, not_not]
      constructor
      · rintro hempty ⟨id, hm, -⟩
        rw [hempty] at hm
        cases hm
      · intro hnot
        by_contra hne
        obtain ⟨id, hid⟩ := List.exists_mem_of_ne_nil _ hne
        exact hnot ⟨id, hid, hid⟩
  · intro htaken
    refine place_in_tmp (fun i hi => ?_) hfields hvalues
    rw [hmaster, hi] at htaken
    simp only [ArrPtr.blocks, ne_eq, not_true_eq_false, decide_false, Bool.and_false, Bool.or_false,
      reduceCtorEq, or_false] at htaken
    refine Bool.noConfusion (htaken.symm.trans (hlive.mpr (Live.of_empty ?_)))
    rw [hi]
    rfl

/-- So does reading an entry, if it may take the master fields where it has them. -/
theorem Holds.entry {e e' : RdbStreamEntry} {taken : Bool} (h : e.Holds taken) {list : RdbListPack}
    {lval lval' : RdbListValue} {b : Bool} (hmay : e.MayTake taken (.entry list lval))
    (hcall : e.read_entry list lval = some (b, e', lval')) :
    e'.Holds (e.taken_by taken (.entry list lval)) := by
  rcases read_entry_held h.sound hcall with ⟨htakes, -, hheld⟩ | ⟨htakes, -, -, hheld⟩ | ⟨e₁, lval₁, hopened, hkept⟩
  · rw [taken_by, htakes, Bool.false_and, Bool.or_false]
    exact h.of_held hheld
  · rw [taken_by, htakes, Bool.false_and, Bool.or_false]
    exact h.cleared.of_held hheld
  · obtain ⟨-, hheld, hsame, -⟩ := opened_held h.sound hopened
    obtain ⟨hmaster, hfields, hvalues, -, -⟩ := held_eq hheld
    change e₁.master = e.master at hmaster
    refine Holds.of_held ?_ hkept.held
    rw [taken_by, ← hsame, ← hmaster]
    refine (h.cleared.of_held hheld).place hfields hvalues fun htakes => ?_
    rw [hmaster]
    exact hmay (hsame ▸ htakes)

/-- What a call that is in order leaves. -/
theorem Holds.call {e e' : RdbStreamEntry} {taken b : Bool} {c : StreamCall} {lval : RdbListValue}
    (h : e.Holds taken) (hmay : e.MayTake taken c) (hcall : e.call c = some (b, e', lval)) :
    e'.Holds (e.taken_by taken c) := by
  cases c with
  | header list => exact h.header hcall
  | entry list lval₀ => exact h.entry hmay hcall

/-- A run is in order if and only if each call may take the master fields where it does. -/
theorem Holds.run_iff {e : RdbStreamEntry} {taken : Bool} (h : e.Holds taken) (cs : List StreamCall) :
    e.Owned cs ↔ e.TakenOnce taken cs := by
  induction cs generalizing e taken with
  | nil => exact h.destroy_once
  | cons c cs ih =>
    rw [Owned, TakenOnce, h.call_owned c]
    refine and_congr_right fun hmay => ?_
    refine forall_congr' fun b => forall_congr' fun e' => forall_congr' fun lval => forall_congr' fun hcall => ?_
    exact ih (h.call hmay hcall)

/-- The blocks of a run of calls and the destructor are each released once and not used after that, if and only
if every block of master fields is taken by one entry at most and then replaced. There may be any calls, on any
list packs and in any order. -/
theorem owned_iff (cs : List StreamCall) : Owned {} cs ↔ TakenOnce {} false cs := holds_start.run_iff cs

/-- 65 master fields, and one entry that has these. -/
def shared_block : RdbListPack :=
  .of_uints ([1, 0, 65] ++ List.replicate 65 7 ++ [0] ++ [2, 5, 1] ++ List.replicate 65 6 ++ [68])

/-- The destructor releases the block of the master fields twice. -/
theorem released_twice : ¬ ∀ cs : List StreamCall, Owned {} cs := by
  intro h
  have hrun : (do let r ← read_header {} shared_block
                  let r ← r.2.1.read_entry shared_block r.2.2
                  some (r.1, r.2.1.master, r.2.1.fields, r.2.1.freed)) =
      some (true, .heap 0, .heap 0, []) := by
    decide +kernel
  cases hheader : read_header {} shared_block with
  | none => simp [hheader] at hrun
  | some r =>
    obtain ⟨b, e, lval⟩ := r
    cases hentry : e.read_entry shared_block lval with
    | none => simp [hheader, hentry] at hrun
    | some r =>
      obtain ⟨b', e', lval'⟩ := r
      obtain ⟨-, hmaster, hfields, hfreed⟩ : b' = true ∧ e'.master = .heap 0 ∧ e'.fields = .heap 0 ∧
          e'.freed = [] := by
        simpa [hheader, hentry] using hrun
      have honce := ((h [.header shared_block, .entry shared_block lval]).2 b e lval hheader).2 b' e' lval' hentry
      have hfrees : e'.Frees e'.master := by
        rw [hmaster, Frees, hfreed]
        exact List.not_mem_nil
      have hrel : e'.release e'.master = some { e' with freed := [0] } := by
        rw [release_some hfrees, hmaster, hfreed]
        rfl
      refine (honce.2 _ hrel).1 0 ?_ (List.mem_singleton.mpr rfl)
      rw [hfields]
      exact List.mem_singleton.mpr rfl

end rdbparser.RdbStreamEntry
