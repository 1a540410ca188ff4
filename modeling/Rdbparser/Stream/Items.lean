import Rdbparser.Format.StreamBlock
import Rdbparser.Stream.Room

namespace rdbparser.RdbStreamEntry

open format

theorem Kept.laid {e e' : RdbStreamEntry} (h : Kept e e') (hl : e.Laid) : e'.Laid := by
  rw [h]
  exact hl

theorem Kept.frees {e e' : RdbStreamEntry} (h : Kept e e') (p : ArrPtr) : e'.Frees p ↔ e.Frees p := by
  rw [h]
  cases p <;> rfl

/-- The master fields of a block have been read; as long as they are not released, they are there. -/
structure Ready (e : RdbStreamEntry) (list : RdbListPack) (master : List ListPackElem) : Prop where
  sound : e.Sound
  laid : e.Laid
  count : e.master_field_count = master.length
  has : e.Live → e.Has list e.master 0 master

/-- The three counts in front of a listpack are read as they are stored. -/
theorem read_counts_run {list : RdbListPack} {a b m : Nat} {rest : List ListPackElem} (e : RdbStreamEntry)
    (h : list.Ahead list.start (.int a :: .int b :: .int m :: rest)) :
    ∃ lval, e.read_counts list = (true,
        { e with items_count := a, deleted_count := b, master_field_count := m }, lval) ∧
      list.Ahead lval rest := by
  obtain ⟨lval₁, h₁, rfl, hb⟩ := h.first_ival
  obtain ⟨lval₂, h₂, rfl, hm⟩ := hb.next_ival
  obtain ⟨lval₃, h₃, rfl, hrest⟩ := hm.next_ival
  refine ⟨lval₃, ?_, hrest⟩
  simp only [read_counts, h₁, h₂, h₃, Bool.and_self]

/-- Where the master fields are put. -/
theorem place_master_spec {e : RdbStreamEntry} (hs : e.Sound)
    (hm : LIST_VALUE_SIZE * e.master_field_count < 2 ^ 64) :
    e.place_master.Sound ∧ e.place_master.Laid ∧ e.place_master.Live ∧ ¬ e.place_master.Shared ∧
      (e.place_master.Releasable ↔ e.Releasable) ∧
      e.place_master.master_field_count = e.master_field_count ∧
      e.place_master.items_count = e.items_count ∧
      ∀ k < e.master_field_count, e.place_master.inside e.place_master.master k = true := by
  obtain ⟨hsound, hlive, hshared⟩ := place_master_sound hs
  refine ⟨hsound, ?_, hlive, hshared, ?_⟩
  · rcases place_master_cases e with ⟨hfit, h⟩ | ⟨hfit, h⟩
    · rw [h]
      exact .inr ⟨e.mallocs, rfl, hfit, (if_pos rfl).trans (Nat.mod_eq_of_lt hm)⟩
    · rw [h]
      exact .inl ⟨rfl, hfit⟩
  · rcases place_master_cases e with ⟨hfit, h⟩ | ⟨hfit, h⟩
    · rw [h]
      refine ⟨Iff.rfl, rfl, rfl, fun k hk => ?_⟩
      apply inside_heap ?_ ?_ hk
      · exact fun h => Nat.lt_irrefl _ (hs.freed _ h)
      · exact (if_pos rfl).trans (Nat.mod_eq_of_lt hm)
    · rw [h]
      exact ⟨Iff.rfl, rfl, rfl, fun k hk => inside_tmp (n := e.master_field_count) (by omega) hk⟩

/-- The header of a block is read, whatever was read before it. -/
theorem read_header_run {list : RdbListPack} {p : StreamBlock} {rest : List ListPackElem}
    {e : RdbStreamEntry} (hs : e.Sound) (hm : LIST_VALUE_SIZE * p.master.length < 2 ^ 64)
    (h : list.Ahead list.start (p.elems ++ rest)) :
    ∃ e' lval, e.read_header list = some (true, e', lval) ∧
      list.Ahead lval (p.items.flatMap (StreamItem.elems p.master.length) ++ rest) ∧ e'.Ready list p.master ∧
      e'.Live ∧ ¬ e'.Shared ∧ (e'.Releasable ↔ e.Releasable) ∧ e'.items_count = p.items_count := by
  rw [StreamBlock.elems, List.cons_append, List.cons_append, List.cons_append, List.append_assoc] at h
  obtain ⟨lval₁, hcounts, h⟩ := e.read_counts_run h
  generalize he₁ : ({ e with
    items_count := p.items_count, deleted_count := p.deleted_count,
    master_field_count := p.master.length } : RdbStreamEntry) = e₁ at hcounts
  have hs₁ : e₁.Sound := he₁ ▸ ⟨hs.freed, hs.master, hs.fields, hs.values⟩
  have hcount : e₁.master_field_count = p.master.length := by rw [← he₁]
  have hitems : e₁.items_count = p.items_count := by rw [← he₁]
  have hrel : e₁.Releasable ↔ e.Releasable := by
    rw [← he₁]
    rfl
  obtain ⟨hsound, hlaid, hlive, hshared, hrel', hmfc, hic, hin⟩ := place_master_spec hs₁ (by rwa [hcount])
  obtain ⟨e₂, lval₂, hrun, h, hkept, hhas, -⟩ := read_master_run (i := 0) p.master h
    (fun k hk => by rw [Nat.zero_add]; exact hin k (by rwa [hcount]))
  obtain ⟨lval₃, hnext, -, h⟩ := h.next
  have hmaster : e₂.master = e₁.place_master.master := by rw [hkept]
  refine ⟨e₂, lval₃, ?_, h, ⟨hkept.sound hsound, hkept.laid hlaid, ?_, fun _ => ?_⟩, ?_, ?_, ?_, ?_⟩
  · simp only [read_header, hcounts, hcount, hrun, hnext]
  · rw [hkept]
    exact hmfc.trans hcount
  · rwa [hmaster]
  · rw [hkept]
    exact hlive
  · rw [hkept]
    exact hshared
  · rw [← hrel, ← hrel', Releasable, Releasable, hkept.frees, hkept.frees]
    rw [hkept]
  · rw [hkept]
    exact hic.trans hitems

/-- So are the flags and the id of an entry. -/
theorem read_delta_run {list : RdbListPack} {flags ms ser : Nat} {rest : List ListPackElem}
    {lval : RdbListValue} (e : RdbStreamEntry) (hflags : flags < 2 ^ 32)
    (h : list.Ahead lval (.int flags :: .int ms :: .int ser :: rest)) :
    ∃ lval', e.read_delta list lval = (true, { e with flags := flags, diff := ⟨ms, ser⟩ }, lval') ∧
      list.Ahead lval' rest := by
  obtain ⟨lval₁, h₁, rfl, hms⟩ := h.next_ival
  obtain ⟨lval₂, h₂, rfl, hser⟩ := hms.next_ival
  obtain ⟨lval₃, h₃, rfl, hrest⟩ := hser.next_ival
  refine ⟨lval₃, ?_, hrest⟩
  simp only [read_delta, h₁, h₂, h₃, Bool.and_self, Nat.mod_eq_of_lt hflags]

/-- What is inside an array is inside it in an entry that has its block as well. -/
theorem inside_of {e e' : RdbStreamEntry} {p : ArrPtr} {i : Nat} (hin : e.inside p i = true)
    (hfreed : ∀ id ∈ p.blocks, id ∉ e'.freed) (hsize : ∀ id ∈ p.blocks, e'.size id = e.size id) :
    e'.inside p i = true := by
  cases p with
  | null => cases hin
  | tmp j => exact hin
  | heap id =>
    obtain ⟨-, hle⟩ := of_decide_eq_true hin
    refine decide_eq_true ⟨hfreed id (mem_blocks.mpr rfl), ?_⟩
    rwa [hsize id (mem_blocks.mpr rfl)]

/-- The number of fields is read, or is that of the master fields. -/
theorem read_field_count_run {list : RdbListPack} {f : StreamFields} {rest : List ListPackElem}
    {lval : RdbListValue} {e : RdbStreamEntry} (hsame : e.same_fields = f.is_same)
    (h : list.Ahead lval (f.elems e.master_field_count ++ rest)) :
    ∃ lval', e.read_field_count list lval =
        (true, { e with entry_field_count := f.count e.master_field_count }, lval') ∧
      list.Ahead lval' (f.body e.master_field_count ++ rest) := by
  cases f with
  | own pairs =>
    obtain ⟨lval₁, h₁, hcount, hrest⟩ := h.next_ival
    refine ⟨lval₁, ?_, hrest⟩
    have hown : ¬ e.same_fields = true := by
      rw [hsame]
      exact Bool.false_ne_true
    simp only [read_field_count, if_neg hown, h₁, hcount, StreamFields.count]
  | same values =>
    refine ⟨lval, ?_, h⟩
    rw [read_field_count, if_pos (show e.same_fields = true from hsame)]
    rfl

/-- An entry is begun: the one before it is released. -/
theorem read_entry_open {list : RdbListPack} {master : List ListPackElem} {x : StreamItem}
    {rest : List ListPackElem} {lval : RdbListValue} {e : RdbStreamEntry} (he : e.Ready list master)
    (hrel : e.Releasable) (h : list.Ahead lval (x.elems master.length ++ rest)) :
    ∃ (e₁ : RdbStreamEntry) (lval₁ : RdbListValue), e.read_entry list lval = e₁.place.read_fields list lval₁ ∧
      list.Ahead lval₁ (x.fields.body master.length ++ rest) ∧ e₁.Ready list master ∧
      e₁.fields = .null ∧ e₁.values = .null ∧ e₁.same_fields = x.fields.is_same ∧
      e₁.entry_field_count = x.fields.count master.length ∧ e₁.flags = x.flags ∧
      e₁.diff = ⟨x.ms, x.ser⟩ ∧ (e₁.Live ↔ e.Live ∧ ¬ e.Shared) := by
  obtain ⟨lval₁, hdelta, h⟩ := e.read_delta_run x.hflags h
  generalize he₀ : ({ e with flags := x.flags, diff := ⟨x.ms, x.ser⟩ } : RdbStreamEntry) = e₀ at hdelta
  have hs₀ : e₀.Sound := he₀ ▸ ⟨he.sound.freed, he.sound.master, he.sound.fields, he.sound.values⟩
  have hclear : e₀.clear = some e₀.cleared := clear_some hs₀ (he₀ ▸ hrel)
  have hcount₀ : e₀.cleared.master_field_count = master.length := by
    rw [← he₀]
    exact he.count
  have hsame : e₀.cleared.same_fields = x.fields.is_same := by
    rw [Bool.eq_iff_iff, ← x.hsame, ← he₀, same_fields, decide_eq_true_iff]
    rfl
  rw [← hcount₀] at h
  obtain ⟨lval₂, hcount, h⟩ := read_field_count_run hsame h
  rw [hcount₀] at h
  have hlive : e₀.cleared.Live ↔ e.Live ∧ ¬ e.Shared := by
    rw [cleared_live hs₀, ← he₀]
    rfl
  refine ⟨{ e₀.cleared with entry_field_count := x.fields.count e₀.cleared.master_field_count }, lval₂, ?_, h,
    ⟨?_, ?_, hcount₀, ?_⟩, rfl, rfl, hsame, by rw [hcount₀], ?_, ?_, hlive⟩
  · simp only [read_entry, hdelta, hclear, hcount]
    rfl
  · have hs := hs₀.cleared
    exact ⟨hs.freed, hs.master, hs.fields, hs.values⟩
  · rw [← he₀]
    exact he.laid
  · intro hl
    have hhas := he.has (hlive.mp hl).1
    rw [← he₀] at hl ⊢
    exact hhas.kept (fun k _ hin => inside_of hin hl fun _ _ => rfl) fun _ _ _ _ => rfl
  · rw [← he₀]
    rfl
  · rw [← he₀]
    rfl

theorem Placed.sound {e e' : RdbStreamEntry} (h : e.Placed e') (hs : e.Sound)
    (hfields : ∀ id ∈ e'.fields.blocks, id < e'.mallocs) : e'.Sound :=
  hs.placed (by rw [h.eq]) (by rw [h.eq]) h.mallocs hfields h.blocks

theorem Placed.laid {e e' : RdbStreamEntry} (h : e.Placed e') (hs : e.Sound) (hl : e.Laid) : e'.Laid := by
  have hmaster : e'.master = e.master := by rw [h.eq]
  have hcount : e'.master_field_count = e.master_field_count := by rw [h.eq]
  rcases hl with ⟨htmp, hle⟩ | ⟨id, hheap, hlt, hsize⟩
  · exact .inl ⟨hmaster.trans htmp, hcount ▸ hle⟩
  · refine .inr ⟨id, hmaster.trans hheap, hcount ▸ hlt, ?_⟩
    rw [h.size id (hs.master id (mem_blocks.mpr hheap)), hcount, hsize]

/-- The master fields stay where they are while the fields and values are read into other slots. -/
theorem Placed.has_master {e e' e'' : RdbStreamEntry} {list : RdbListPack} {master : List ListPackElem}
    (h : e.Placed e') (hkept : Kept e' e'') (he : e.Ready list master) (hlive : e.Live)
    (hget : ∀ k < e.master_field_count, ∀ σ, e.master.slot k = some σ → e''.get σ = e'.get σ) :
    e''.Has list e.master 0 master := by
  refine (he.has hlive).kept (fun k hk hin => inside_of hin ?_ ?_) fun k hk σ hσ => ?_
  · intro id hid
    rw [hkept, h.eq]
    exact hlive id hid
  · intro id hid
    rw [hkept]
    exact h.size id (he.sound.master id hid)
  · rw [hget k (by rw [he.count]; exact hk) σ (by rwa [Nat.zero_add] at hσ), h.eq]
    rfl

/-- What is left when the fields and values have been read into other slots than those of the master fields. -/
theorem Placed.after {e e' e'' : RdbStreamEntry} {list : RdbListPack} {master : List ListPackElem}
    (h : e.Placed e') (hkept : Kept e' e'') (he : e.Ready list master)
    (hfields : ∀ id ∈ e'.fields.blocks, id < e'.mallocs)
    (hget : ∀ k < e.master_field_count, ∀ σ, e.master.slot k = some σ → e''.get σ = e'.get σ) :
    e''.Ready list master ∧ e''.master = e.master ∧ e''.flags = e.flags ∧ e''.diff = e.diff ∧ (e''.Live ↔ e.Live) := by
  have hmaster : e''.master = e.master := by rw [hkept, h.eq]
  have hlive : e''.Live ↔ e.Live := by
    rw [hkept, h.eq]
    rfl
  have hready : e''.Ready list master :=
    { sound := hkept.sound (h.sound he.sound hfields)
      laid := hkept.laid (h.laid he.sound he.laid)
      count := by
        rw [hkept, h.eq]
        exact he.count
      has := fun hl => by
        rw [hmaster]
        exact h.has_master hkept he (hlive.mp hl) hget }
  exact ⟨hready, hmaster, by rw [hkept, h.eq], by rw [hkept, h.eq], hlive⟩

/-- What reading the entry `x` leaves. -/
structure Delivered (e e' : RdbStreamEntry) (list : RdbListPack) (master : List ListPackElem)
    (x : StreamItem) : Prop where
  ready : e'.Ready list master
  flags : e'.flags = x.flags
  diff : e'.diff = ⟨x.ms, x.ser⟩
  live : e'.Live ↔ e.Live ∧ ¬ e.Shared
  shared : e'.Shared ↔ x.fields.is_same = true ∧ TMP_SIZE < master.length
  releasable : e'.Releasable ↔
    (x.fields.is_same = true → e'.Live) ∧ ¬ (master.length = TMP_SIZE ∧ x.fields = .own [])
  pairs : (x.fields.is_same = true → e'.Live) → e'.pairs list.base = some (x.pairs master)
  pairs_none : x.fields.is_same = true → ¬ e'.Live → e'.pairs list.base = none

/-- The back count is right. -/
theorem read_fields_run {list : RdbListPack} {e e' : RdbStreamEntry} {lval lval' : RdbListValue} {c : Nat}
    {rest : List ListPackElem}
    (hrun : read_pairs list 0 e.entry_field_count true e lval = some (true, e', lval'))
    (hcnt : (if e'.same_fields then 3 + e.entry_field_count
      else 4 + e.entry_field_count + e.entry_field_count) = c)
    (hlt : c < 2 ^ 64) (h : list.Ahead lval' (.int c :: rest)) :
    ∃ lval'', e.read_fields list lval = some (true, e', lval'') ∧ list.Ahead lval'' rest := by
  obtain ⟨lval₁, hnext, hx, hrest⟩ := h.next
  obtain ⟨-, hival⟩ := RdbListPack.elem_int hx
  refine ⟨lval₁, ?_, hrest⟩
  simp only [read_fields, hrun, hnext, hival, hcnt, Nat.mod_eq_of_lt hlt, decide_true, Bool.and_self]

/-- An entry with fields of its own is read: the fields and the values are those that are stored, and nothing is
shared with the master fields. -/
theorem read_own {list : RdbListPack} {master : List ListPackElem} {x : StreamItem}
    {ps : List (ListPackElem × ListPackElem)} {rest : List ListPackElem} {lval : RdbListValue}
    {e₀ e : RdbStreamEntry} (hx : x.fields = .own ps) (hn : ps.length < 2 ^ 32)
    (he : e.Ready list master) (hfields : e.fields = .null) (hvalues : e.values = .null)
    (hown : e.same_fields = false) (hcount : e.entry_field_count = ps.length) (hflags : e.flags = x.flags)
    (hdiff : e.diff = ⟨x.ms, x.ser⟩) (hlive : e.Live ↔ e₀.Live ∧ ¬ e₀.Shared)
    (h : list.Ahead lval (x.fields.body master.length ++ rest)) :
    ∃ e' lval', e.place.read_fields list lval = some (true, e', lval') ∧ list.Ahead lval' rest ∧
      e₀.Delivered e' list master x := by
  have hP := place_own he.sound he.laid hfields hvalues hown (by rw [hcount, LIST_VALUE_SIZE]; omega)
  generalize hplace : e.place = e₂ at hP
  have hcount₂ : e₂.entry_field_count = ps.length := by
    rw [hP.eq]
    exact hcount
  have hown₂ : e₂.same_fields = false := by
    rw [hP.eq]
    exact hown
  rw [hx, StreamFields.body, List.append_assoc] at h
  rw [← hcount] at hcount₂
  obtain ⟨e₃, lval₁, hrun, h, hkept, hhasf, hhasv, hget⟩ := read_pairs_own (n := e.entry_field_count) ps hown₂ h
    (by rw [Nat.zero_add, hcount]) (fun k hk => ⟨hP.fields_inside k hk, hP.inside k hk⟩) hP.fields_values
  have hown₃ : e₃.same_fields = false := by
    rw [hkept]
    exact hown₂
  rw [← hcount, ← hcount₂] at hrun
  obtain ⟨lval₂, hread, h⟩ := read_fields_run (c := 4 + 2 * ps.length) hrun
    (by rw [hown₃, hcount₂, hcount, if_neg Bool.false_ne_true]; omega) (by omega) h
  have hfields₃ : e₃.fields = e₂.fields := by rw [hkept]
  have hvalues₃ : e₃.values = e₂.values := by rw [hkept]
  obtain ⟨hready, hmaster₃, hflags₃, hdiff₃, hlive₃⟩ := hP.after hkept he (fun id hid => (hP.fields_blocks id hid).2)
    fun k hk σ hσ => hget σ fun j _ hj => ⟨hP.fields_apart k hk j hj σ hσ, hP.apart k hk j hj σ hσ⟩
  have hsame : x.fields.is_same = false := by
    rw [hx]
    rfl
  refine ⟨e₃, lval₂, hread, h, ?_⟩
  exact
    { ready := hready
      flags := hflags₃.trans hflags
      diff := hdiff₃.trans hdiff
      live := hlive₃.trans hlive
      shared := by
        rw [hsame]
        constructor
        · rintro ⟨id, hm, hf⟩
          rw [hmaster₃] at hm
          rw [hfields₃] at hf
          exact absurd (he.sound.master id hm) (Nat.not_lt.mpr (hP.fields_blocks id hf).1)
        · intro h
          exact absurd h.1 Bool.false_ne_true
      releasable := by
        rw [Releasable, hkept.frees, hkept.frees, hfields₃, hvalues₃, hsame, hx, ← he.count]
        have hiff := hP.fields_frees
        have hfrees := hP.frees
        cases ps with
        | nil =>
          rw [hcount] at hiff hfrees
          simp only [Nat.lt_irrefl, List.length_nil, or_false] at hiff hfrees
          simp only [hiff, Bool.false_eq_true, false_implies, true_and, and_true]
          exact ⟨fun h => h.1, fun h => ⟨h, hfrees h⟩⟩
        | cons p ps =>
          have hpos : 0 < e.entry_field_count := by
            rw [hcount]
            exact Nat.succ_pos _
          simp only [Bool.false_eq_true, false_implies, true_and, StreamFields.own.injEq, reduceCtorEq, and_false,
            not_false_eq_true, iff_true]
          exact ⟨hiff.mpr (.inr hpos), hfrees (.inr hpos)⟩
      pairs := fun _ => by
        rw [StreamItem.pairs, hx]
        apply pairs_eq
        · rw [hkept]
          exact hcount₂.trans hcount
        · rwa [hfields₃]
        · rwa [hvalues₃]
      pairs_none := fun h => by
        rw [hsame] at h
        cases h }

/-- An entry with the master fields is read: it shares their block if they have one, and it can be released if this is
still there. -/
theorem read_same {list : RdbListPack} {master values : List ListPackElem} {x : StreamItem}
    {rest : List ListPackElem} {lval : RdbListValue} {e₀ e : RdbStreamEntry} (hx : x.fields = .same values)
    (hfits : values.length = master.length) (hn : master.length < 2 ^ 32) (he : e.Ready list master)
    (hvalues : e.values = .null) (hsame : e.same_fields = true)
    (hcount : e.entry_field_count = master.length) (hflags : e.flags = x.flags)
    (hdiff : e.diff = ⟨x.ms, x.ser⟩) (hlive : e.Live ↔ e₀.Live ∧ ¬ e₀.Shared)
    (h : list.Ahead lval (x.fields.body master.length ++ rest)) :
    ∃ e' lval', e.place.read_fields list lval = some (true, e', lval') ∧ list.Ahead lval' rest ∧
      e₀.Delivered e' list master x := by
  obtain ⟨hP, hfields⟩ := place_same he.sound he.laid hvalues hsame (hcount.trans he.count.symm)
    (by rw [hcount, LIST_VALUE_SIZE]; omega)
  generalize hplace : e.place = e₂ at hP hfields
  have hcount₂ : e₂.entry_field_count = values.length := by
    rw [hP.eq, hfits]
    exact hcount
  have hsame₂ : e₂.same_fields = true := by
    rw [hP.eq]
    exact hsame
  rw [hx, StreamFields.body, List.append_assoc] at h
  have hlen : values.length = e.entry_field_count := by rw [hcount, hfits]
  obtain ⟨e₃, lval₁, hrun, h, hkept, hhasv, hget⟩ := read_pairs_same (i := 0) values hsame₂ h
    (fun k hk => by rw [Nat.zero_add]; exact hP.inside k (hlen ▸ hk))
  have hsame₃ : e₃.same_fields = true := by
    rw [hkept]
    exact hsame₂
  have hcount₃ : e₃.entry_field_count = master.length := by
    rw [hkept, ← hfits]
    exact hcount₂
  rw [← hcount₂] at hrun
  obtain ⟨lval₂, hread, h⟩ := read_fields_run (c := 3 + master.length) hrun
    (by rw [hsame₃, hcount₂, hfits, if_pos rfl]) (by omega) h
  have hfields₃ : e₃.fields = e.master := by
    rw [hkept]
    exact hfields
  have hvalues₃ : e₃.values = e₂.values := by rw [hkept]
  have hblocks : ∀ id ∈ e₂.fields.blocks, id < e₂.mallocs := by
    intro id hid
    rw [hfields] at hid
    exact Nat.lt_of_lt_of_le (he.sound.master id hid) hP.mallocs
  obtain ⟨hready, hmaster₃, hflags₃, hdiff₃, hlive₃⟩ := hP.after hkept he hblocks
    fun k hk σ hσ => hget σ fun j _ hj => hP.apart k hk j (by omega) σ hσ
  have hissame : x.fields.is_same = true := by
    rw [hx]
    rfl
  refine ⟨e₃, lval₂, hread, h, ?_⟩
  exact
    { ready := hready
      flags := hflags₃.trans hflags
      diff := hdiff₃.trans hdiff
      live := hlive₃.trans hlive
      shared := by
        rw [hissame, Shared, hmaster₃, hfields₃, ← he.count]
        rcases he.laid with ⟨htmp, hle⟩ | ⟨id, hheap, hlt, -⟩
        · rw [htmp]
          refine ⟨?_, fun h => absurd h.2 (Nat.not_lt.mpr hle)⟩
          rintro ⟨id, hid, -⟩
          cases hid
        · rw [hheap]
          exact ⟨fun _ => ⟨rfl, hlt⟩, fun _ => ⟨id, List.mem_singleton.mpr rfl, List.mem_singleton.mpr rfl⟩⟩
      releasable := by
        have hvalues : e₃.Frees e₃.values := by
          rw [hkept.frees, hvalues₃]
          apply hP.frees
          rw [he.count, hcount]
          by_cases hfull : master.length = TMP_SIZE
          · right
            rw [hfull]
            decide
          · exact .inl hfull
        have hfrees : e₃.Frees e₃.fields ↔ e₃.Live := by
          rw [← hready.laid.frees, hfields₃, hmaster₃]
        rw [Releasable, hfrees, hissame, hx]
        simp only [hvalues, and_true, true_implies, reduceCtorEq, and_false, not_false_eq_true]
      pairs := fun hl => by
        have hfst : (master.zip values).map Prod.fst = master := List.map_fst_zip (by omega)
        have hsnd : (master.zip values).map Prod.snd = values := List.map_snd_zip (by omega)
        rw [StreamItem.pairs, hx]
        apply pairs_eq
        · rw [hcount₃, StreamFields.pairs, List.length_zip, hfits, Nat.min_self]
        · rw [StreamFields.pairs, hfst, hfields₃, ← hmaster₃]
          exact hready.has (hl hissame)
        · rwa [StreamFields.pairs, hsnd, hvalues₃]
      pairs_none := fun _ hl => by
        obtain ⟨hlt, hload⟩ := hready.laid.not_live hl
        rw [hready.count] at hlt
        apply pairs_none
        · rw [hcount₃]
          exact Nat.zero_lt_of_lt hlt
        · rwa [hfields₃, ← hmaster₃] }

/-- An entry is read into room of its own, if the one before it can be released. -/
theorem read_entry_run {list : RdbListPack} {master : List ListPackElem} {x : StreamItem}
    {rest : List ListPackElem} {lval : RdbListValue} {e : RdbStreamEntry} (he : e.Ready list master)
    (hrel : e.Releasable) (hfits : x.fields.Fits master.length) (hm : master.length < 2 ^ 32)
    (hn : x.fields.count master.length < 2 ^ 32)
    (h : list.Ahead lval (x.elems master.length ++ rest)) :
    ∃ e' lval', e.read_entry list lval = some (true, e', lval') ∧ list.Ahead lval' rest ∧
      e.Delivered e' list master x := by
  obtain ⟨e₁, lval₁, hopen, h, he₁, hfields, hvalues, hsame, hcount, hflags, hdiff, hlive⟩ :=
    read_entry_open he hrel h
  rw [hopen]
  cases hx : x.fields with
  | own ps =>
    rw [hx] at hsame hcount hn
    exact read_own hx hn he₁ hfields hvalues hsame hcount hflags hdiff hlive h
  | same values =>
    rw [hx] at hsame hcount hfits
    exact read_same hx hfits hm he₁ hvalues hsame hcount hflags hdiff hlive h

/-- No entry is read after one that can not be released. -/
theorem read_entry_none {list : RdbListPack} {master : List ListPackElem} {x : StreamItem}
    {rest : List ListPackElem} {lval : RdbListValue} {e : RdbStreamEntry} (hrel : ¬ e.Releasable)
    (h : list.Ahead lval (x.elems master.length ++ rest)) : e.read_entry list lval = none := by
  obtain ⟨lval₁, hdelta, -⟩ := e.read_delta_run x.hflags h
  have hclear : clear { e with flags := x.flags, diff := ⟨x.ms, x.ser⟩ } = none := clear_none hrel
  simp only [read_entry, hdelta, hclear]

end rdbparser.RdbStreamEntry
