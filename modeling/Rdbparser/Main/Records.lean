import Rdbparser.Main.Places

namespace rdbparser

open format RdbDecode

variable {E : Env} {V : Type} [Encoding E V] {filter : Option (RdbVal → Bool)}

/-- What the key loop delivers on the records of a file and its end marker, and whether it succeeds:
it does not at an opcode that fails. -/
def format.Record.outcome (verdict : RdbVal → Dest) :
    Dest → List (Record E V) → List (Dest × Callback) × Bool
  | _, [] => ([], true)
  | prev, r :: rs =>
    match (Meta.sent r.metas).2 with
    | some _ => ((Meta.sent r.metas).1.map (prev, ·), false)
    | none =>
      match outcome verdict (verdict r.key.val) rs with
      | (calls, success) => (r.trace prev (verdict r.key.val) ++ calls, success)

theorem main_loop_error {s t : St} {i : Input} {e : RdbErrCode} {o : List Event}
    (h : next_key E s = ⟨.error e, t, o⟩) (fuel : Nat) :
    main_loop E (fuel + 1) s i = some ⟨[], o, decide (e = .RDB_EOF_MARK)⟩ := by
  rw [main_loop, h]

theorem main_loop_ok {s t : St} {i j : Input} {b : RdbBufptr} {o : List Event}
    (h : next_key E s = ⟨.ok (), t, o⟩) (hrefill : i.refill t.bptr = (j, b)) (hleft : b.avail ≠ 0)
    (fuel : Nat) :
    main_loop E (fuel + 1) s i = (main_loop E fuel { t with bptr := b } j).map (.cons o t) := by
  rw [main_loop, h]
  simp only [hrefill, if_neg hleft]

/-- The records up to the first with an opcode that fails. -/
def format.Record.reached (records : List (Record E V)) : List (Record E V) :=
  records.takeWhile fun r => (Meta.sent r.metas).2.isNone

/-- Every record is done with at its place in the file. -/
def KeysDone (filter : Option (RdbVal → Bool)) (file : List UInt8) :
    Dest → List (Record E V × Nat × Nat) → List (List Event × St) → Prop
  | _, [], ks => ks = []
  | _, _ :: _, [] => False
  | prev, (r, place) :: rs, k :: ks =>
    (∃ c rest, (c.offset, c.start_offset) = place ∧ c.Buffers file ∧ c.Views (r.bytes ++ rest) ∧
      KeyDone filter prev c r k.2 k.1) ∧ KeysDone filter file (verdict filter r.key.val) rs ks

/-- The key loop on the records of a file, whether the buffer holds all of it or is refilled from
stdin: a record of less than half the buffer never straddles its end. -/
theorem main_loop_records [Decodes E V] (records : List (Record E V)) {file crc : List UInt8}
    {size : Nat} {s : St} {c : Place} {i : Input} {prev : Dest} (hs : s.AtRecord E filter prev c)
    (ht : i.Tracks c file size)
    (hfile : file.drop (c.start_offset + c.offset) = records.flatMap Record.bytes ++ 0xff :: crc)
    (hshort : i.eof = true ∨ 0 < i.size ∧ ∀ r ∈ records, 2 * r.bytes.length < i.size) :
    ∃ run, main_loop E (records.length + 1) s i = some run ∧
      (run.trace, run.success) = Record.outcome (verdict filter) prev records ∧
      KeysDone filter file prev ((Record.reached records).zip (places size file.length c.offset
        c.start_offset (records.map fun r => r.bytes.length))) run.keys := by
  induction records generalizing s c i prev with
  | nil =>
    have hw := ht.window
    rw [hfile] at hw
    obtain ⟨ys, hv, hys, hne⟩ := hw.left ht.settled (by simp) (hshort.imp id fun h => h.1)
    obtain ⟨y, ys, rfl⟩ := List.exists_cons_of_ne_nil hne
    obtain rfl : y = 0xff := (List.cons.inj hys).1
    obtain ⟨t, heof⟩ := hs.eof hv
    exact ⟨_, main_loop_error (Proc.bind_error heof) _, rfl, rfl⟩
  | cons r rs ih =>
    rw [List.flatMap_cons, List.append_assoc] at hfile
    have hw := ht.window
    rw [hfile] at hw
    obtain ⟨ys, hv, hys, hne⟩ := hw.views_append ht.settled (by simp)
      (hshort.imp id fun h => h.2 r List.mem_cons_self)
    rw [Record.outcome, Record.reached, List.takeWhile_cons]
    cases hbad : (Meta.sent r.metas).2 with
    | some e =>
      obtain ⟨rest, hfront⟩ : ∃ rest, r.bytes ++ ys = r.metas.flatMap Meta.bytes ++ rest :=
        ⟨_, by rw [Record.bytes, Record.front, List.append_assoc, List.append_assoc]⟩
      obtain ⟨t, o, hkey, ho⟩ := hs.fails (hfront ▸ hv) hbad
      refine ⟨_, main_loop_error hkey _, ?_, rfl⟩
      have hne : e ≠ .RDB_EOF_MARK := Meta.sent_ne_eof hbad
      simp only [MainRun.trace, MainRun.events, List.flatMap_nil, List.nil_append, ho, hne,
        decide_false]
    | none =>
      obtain ⟨hgood, -⟩ := Meta.sent_none hbad
      obtain ⟨t, o, hkey, hdone⟩ := hs.next_key r (Decodes.decode_body_run r.value) hv hne hgood
      obtain ⟨j, b, c', hrefill, hb, ht', hplace, hfile', hsize, heof⟩ :=
        ht.refill hfile hv hys hdone.on
      have hshort' : j.eof = true ∨ 0 < j.size ∧ ∀ r' ∈ rs, 2 * r'.bytes.length < j.size := by
        rw [hsize]
        exact hshort.imp heof fun h => ⟨h.1, fun r' hr' => h.2 r' (List.mem_cons_of_mem r hr')⟩
      have hleft : b.avail ≠ 0 := by
        have hw' := ht'.window
        rw [hfile'] at hw'
        obtain ⟨zs, hzs, -, hne'⟩ := hw'.left ht'.settled (by simp) (hshort'.imp id fun h => h.1)
        have hpos := List.length_pos_iff.mpr hne'
        rw [hb.avail, hzs.1]
        omega
      obtain ⟨run, hrun, hout, hkeys⟩ := ih (s := { t with bptr := b })
        ⟨_, rfl, hdone.ready, hdone.filter_eq, hb⟩ ht' hfile' hshort'
      refine ⟨run.cons o t, ?_, ?_, ?_⟩
      · rw [List.length_cons, main_loop_ok hkey hrefill hleft, hrun]
        rfl
      · rw [← hout]
        simp only [MainRun.trace, MainRun.events, MainRun.cons, List.flatMap_cons, List.append_assoc,
          List.map_append, hdone.trace]
      · rw [if_pos Option.isNone_none, List.map_cons, places, ← hplace]
        exact ⟨⟨c, ys, rfl, ht.buffers, hv, hdone⟩, hkeys⟩

/-- More turns do not change what the loop delivers. -/
theorem main_loop_mono {fuel fuel' : Nat} {s : St} {i : Input} {r : MainRun}
    (h : main_loop E fuel s i = some r) (hle : fuel ≤ fuel') : main_loop E fuel' s i = some r := by
  induction fuel generalizing fuel' s i r with
  | zero => cases h
  | succ fuel ih =>
    obtain ⟨k, rfl⟩ : ∃ k, fuel' = k + 1 := ⟨fuel' - 1, by omega⟩
    rw [main_loop] at h ⊢
    rcases hkey : next_key E s with ⟨_ | ⟨⟩, t, o⟩
    · rw [hkey] at h
      exact h
    · rcases hrefill : i.refill t.bptr with ⟨j, b⟩
      simp only [hkey, hrefill] at h ⊢
      split
      · next hleft => rwa [if_pos hleft] at h
      · next hleft =>
        rw [if_neg hleft] at h
        obtain ⟨run, hrun, rfl⟩ := Option.map_eq_some_iff.mp h
        rw [ih hrun (by omega)]
        rfl

theorem Input.Delivers.unique {i : Input} {r r' : MainRun} (h : i.Delivers E filter r)
    (h' : i.Delivers E filter r') : r = r' := by
  obtain ⟨fuel, hrun⟩ := h
  obtain ⟨fuel', hrun'⟩ := h'
  have hmax := main_loop_mono hrun (Nat.le_max_left fuel fuel')
  rw [main_loop_mono hrun' (Nat.le_max_right fuel fuel')] at hmax
  exact (Option.some.inj hmax).symm

/-- The key loop on a file behind its version header, which is nine bytes long. -/
theorem Input.run_file [Decodes E V] (filter : Option (RdbVal → Bool)) (f : RdbFile E V) {i : Input} {size : Nat}
    (ht : i.Tracks ⟨⟨.input, i.mem, 0⟩, i.off, 0, 0⟩ f.bytes size)
    (hshort : i.eof = true ∨ 18 < i.size ∧ ∀ r ∈ f.records, 2 * r.bytes.length < i.size) :
    ∃ run, i.Delivers E filter run ∧
      (run.trace, run.success) = Record.outcome (verdict filter) .data_out f.records ∧
      KeysDone filter f.bytes .data_out ((Record.reached f.records).zip
        (places size f.bytes.length 9 0 (f.records.map fun r => r.bytes.length))) run.keys := by
  have hwindow : i.Window ⟨⟨.input, i.mem, 0⟩, i.off, 0, 0⟩ (header f.ver ++ (f.body ++ 0xff :: f.crc)) :=
    ht.window
  obtain ⟨ys, hv, hys, hne⟩ := hwindow.views_append (.inr (Nat.zero_le _))
    (by simp) (hshort.imp id fun h => by rw [header_length]; exact h.1)
  have hat := St.start_atRecord (E := E) filter _ f.hver hne hv
  have hsettled : i.Settled (Place.adv ⟨⟨.input, i.mem, 0⟩, i.off, 0, 0⟩ 9) :=
    hshort.imp id fun h => by change 0 + 9 ≤ i.size / 2; omega
  have hdrop : f.bytes.drop (0 + (0 + 9)) = f.body ++ 0xff :: f.crc := rfl
  obtain ⟨run, hrun, hout, hkeys⟩ := main_loop_records f.records hat
    (ht.adv (show f.bytes.drop 0 = header f.ver ++ _ from rfl) hv hys hsettled) hdrop
      (hshort.imp id fun h => ⟨by omega, h.2⟩)
  exact ⟨run, ⟨_, hrun⟩, hout, hkeys⟩

/-- The first bytes of a file on stdin. -/
theorem Input.stdin_tracks (f : RdbFile E V) (mem : Mem) {size : Nat} (hsize : 18 < size) :
    (stdin_buf mem size f.bytes).Tracks ⟨⟨.input, (stdin_buf mem size f.bytes).mem, 0⟩,
        (stdin_buf mem size f.bytes).off, 0, 0⟩ f.bytes size ∧
      (stdin_buf mem size f.bytes).size = size := by
  let i : Input := { mem := mem, off := 0, size := size, eof := true, stdin := f.bytes }
  have hgot : ∃ rest, i.got = RdbDecode.magic ++ rest := by
    have hsplit : f.bytes = RdbDecode.magic ++ f.bytes.drop 7 := rfl
    refine ⟨(f.bytes.drop 7).take (size - 7), ?_⟩
    change f.bytes.take size = _
    rw [hsplit, List.take_append, List.take_of_length_le (by simp [RdbDecode.magic]; omega)]
    rfl
  have hmagic : i.fread.2.mem.take 7 = RdbDecode.magic := by
    obtain ⟨rest, hrest⟩ := hgot
    have h := i.fread_starts
    rw [hrest, Mem.take_zero, List.nil_append] at h
    exact (Mem.starts_append.mp h).1.take
  obtain ⟨hsize', hsplit, hoff, hmem, heof⟩ := i.fill_buf_stdin_spec (by change 0 < size; omega)
    (.inr hmagic)
  rw [Mem.take_zero, List.nil_append] at hmem
  have hoff' : i.fill_buf_stdin.off = i.got.length := hoff.trans (Nat.zero_add _)
  have hlen := congrArg List.length hsplit
  rw [List.length_append] at hlen
  change i.fill_buf_stdin.Tracks ⟨⟨.input, i.fill_buf_stdin.mem, 0⟩, i.fill_buf_stdin.off, 0, 0⟩ _ _ ∧ _
  refine ⟨⟨⟨⟨i.got, ⟨hoff', ?_⟩, hsplit⟩, ?_⟩, .inr (Nat.zero_le _), ⟨rfl, rfl, ?_, ?_⟩, ?_⟩, hsize'⟩
  · rw [Cursor.ptr, Mem.add_zero]
    exact hmem
  · exact heof.imp (fun h => ⟨h.1, h.2.1⟩) fun h => ⟨h.1, (Nat.zero_add _).trans (h.2.trans hsize'.symm)⟩
  · change 0 + (0 + i.fill_buf_stdin.off) ≤ i.stdin.length
    omega
  · have htake : i.stdin.take (0 + i.fill_buf_stdin.off) = i.got := by
      rw [Nat.zero_add, hoff', ← hsplit, List.take_left]
    exact htake.symm ▸ hmem
  · change _ ∧ i.stdin.length - 0 < size ∨ _ ∧ _ ∧ size ≤ i.stdin.length - 0
    cases heof with
    | inl hlast =>
      have hlt : i.fill_buf_stdin.off < size := hlast.2.2
      rw [hlast.2.1, List.length_nil] at hlen
      exact .inl ⟨hlast.1, by omega⟩
    | inr hmore =>
      have hfull : i.fill_buf_stdin.off = size := hmore.2
      exact .inr ⟨hmore.1, hsize', by omega⟩

/-- Reading a file from stdin, through a buffer more than twice as long as the version header and as every
record, delivers what decoding it in one buffer does. The buffer is refilled as often as it takes; what it held
before, the filter and the memory behind a mapped file do not matter. -/
theorem main_stdin_map (f : RdbFile E (Value E)) (filter : Option (RdbVal → Bool)) (mem past : Mem)
    (size map_size : Nat) (hheader : 2 * (header f.ver).length < size)
    (hrecords : ∀ r ∈ f.records, 2 * r.bytes.length < size) :
    ∃ r r', (Input.stdin_buf mem size f.bytes).Delivers E filter r ∧
      (Input.map f.bytes past map_size).Delivers E filter r' ∧
      r.trace = r'.trace ∧ r.success = r'.success := by
  rw [header_length] at hheader
  obtain ⟨ht, hsize⟩ := Input.stdin_tracks f mem hheader
  obtain ⟨r, hr, hout, -⟩ := Input.run_file filter f ht
    (.inr (by rw [hsize]; exact ⟨hheader, hrecords⟩))
  obtain ⟨r', hr', hout', -⟩ := Input.run_file filter f
    (Input.map_tracks f.bytes past map_size) (.inl rfl)
  have heq := hout.trans hout'.symm
  exact ⟨r, r', hr, hr', congrArg Prod.fst heq, congrArg Prod.snd heq⟩

/-- A file of 130 bytes. -/
def format.RdbFile.repeated : RdbFile Env.literal (Value Env.literal) :=
  RdbFile.compressed.with_records (List.replicate 4 RdbFile.compressed.records).flatten

/-- It goes through a buffer of 60 bytes. -/
theorem main_stdin_map_repeated :
    ∃ r r', (Input.stdin_buf 0 60 RdbFile.repeated.bytes).Delivers Env.literal none r ∧
      (Input.map RdbFile.repeated.bytes 0 0).Delivers Env.literal none r' ∧
      r.trace = r'.trace ∧ r.success = r'.success :=
  main_stdin_map RdbFile.repeated none 0 0 60 0 (by decide) (by decide)

end rdbparser
