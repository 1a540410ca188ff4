import Rdbparser.Json.Stdout
import Rdbparser.Json.Stream
import Rdbparser.Main.Encodings

/-! A file as JSON. -/

namespace rdbparser

open format JsonText RdbDecode

section Records

variable {E : Env} {V : Type} [Encoding E V] {fmt : Nat → List UInt8} {filter : Option (RdbVal → Bool)}

namespace format

/-- A key and its value. -/
def Record.member [Says E V] (fmt : Nat → List UInt8) (r : Record E V) : List UInt8 × Json :=
  (r.key.val.key_name fmt (Encoding.type r.value).type_name, Says.json fmt r.value)

end format

/-- Opcodes say nothing where meta fields are not shown. -/
theorem puts_front {calls : List Callback} (h : ∀ c ∈ calls, c.of_front = true) (p : Pos) :
    Callback.puts fmt false calls p = some p := by
  induction calls with
  | nil => rfl
  | cons c calls ih =>
    rw [List.forall_mem_cons] at h
    have hput : c.put fmt false p = some p := by
      cases c <;> first | rfl | exact absurd h.1 Bool.false_ne_true
    rw [puts_cons, hput, Option.bind_some, ih h.2]

theorem format.Meta.calls_front (ms : List (Meta E)) : ∀ c ∈ ms.flatMap Meta.calls, c.of_front = true := by
  intro c hc
  obtain ⟨m, -, hm⟩ := List.mem_flatMap.mp hc
  cases m <;> simp only [Meta.calls, List.mem_singleton, List.not_mem_nil] at hm <;> exact hm ▸ rfl

/-- What is printed of a record. -/
theorem printed_record (prev d : Dest) (r : Record E V) :
    ((r.trace prev d).filter fun x => x.1 = .data_out).map Prod.snd =
      (if prev = .data_out then r.metas.flatMap Meta.calls else []) ++ .d_start_type (Encoding.type r.value) ::
        (if d = .data_out then .d_start_key (Encoding.type r.value) r.key.val ::
            (Encoding.calls r.value ++ [.d_end_key (Encoding.type r.value)])
          else []) := by
  have hmap : ∀ (d : Dest) (calls : List Callback), ((calls.map (d, ·)).filter fun x => x.1 = .data_out).map Prod.snd =
      if d = .data_out then calls else [] := by
    intro d calls
    cases d <;> simp [List.filter_map, Function.comp_def]
  have hkey : ∀ (c e : Callback) (calls : List Callback), (d, c) :: (calls.map (d, ·) ++ [(d, e)]) =
      (c :: (calls ++ [e])).map (d, ·) := fun c e calls => by simp
  rw [Record.trace, hkey, List.filter_append, List.map_append, hmap, List.filter_cons_of_pos rfl, List.map_cons, hmap]

/-- The callbacks of a record that are printed, with those of the opcodes in front of it. -/
theorem puts_printed [Says E V] (prev : Dest) (r : Record E V) (ms : List (List UInt8 × Json)) :
    Callback.puts fmt false
        (((r.trace prev (verdict filter r.key.val)).filter fun x => x.1 = .data_out).map Prod.snd) (.obj [] ms) =
      some (.obj [] (ms ++ (Record.through filter [r]).map (Record.member fmt))) := by
  have hmetas : ∀ p, Callback.puts fmt false (if prev = .data_out then r.metas.flatMap Meta.calls else []) p =
      some p := by
    intro p
    split
    · exact puts_front (Meta.calls_front r.metas) p
    · rfl
  rw [printed_record, puts_append, hmetas, Option.bind_some, puts_cons]
  change Callback.puts fmt false (if verdict filter r.key.val = .data_out then _ else _) _ = _
  by_cases hd : verdict filter r.key.val = .data_out
  · have hthrough : Record.through filter [r] = [r] := by simp [Record.through, hd]
    rw [if_pos hd, Says.puts_key, hthrough]
    rfl
  · have hthrough : Record.through filter [r] = [] := by simp [Record.through, hd]
    rw [if_neg hd, hthrough]
    exact congrArg (fun ms => some (Pos.obj [] ms)) (List.append_nil ms).symm

/-- All records of a file. -/
theorem puts_outcome [Says E V] (fmt : Nat → List UInt8) (filter : Option (RdbVal → Bool)) {records : List (Record E V)}
    (hgood : ∀ r ∈ records, ∀ m ∈ r.metas, m.fails = none) (prev : Dest) (ms : List (List UInt8 × Json)) :
    (Record.outcome (verdict filter) prev records).2 = true ∧
      Callback.puts fmt false
          (((Record.outcome (verdict filter) prev records).1.filter fun x => x.1 = .data_out).map Prod.snd)
            (.obj [] ms) =
        some (.obj [] (ms ++ (Record.through filter records).map (Record.member fmt))) := by
  induction records generalizing prev ms with
  | nil => exact ⟨rfl, congrArg (fun ms => some (Pos.obj [] ms)) (List.append_nil ms).symm⟩
  | cons r records ih =>
    rw [List.forall_mem_cons] at hgood
    obtain ⟨hsuccess, hputs⟩ := ih hgood.2 (verdict filter r.key.val)
      (ms ++ (Record.through filter [r]).map (Record.member fmt))
    rw [Record.outcome, Meta.sent_good hgood.1]
    refine ⟨hsuccess, ?_⟩
    dsimp only
    rw [List.filter_append, List.map_append, puts_append, puts_printed, Option.bind_some, hputs, List.append_assoc,
      ← List.map_append, Record.through, Record.through, ← List.filter_append]
    rfl

theorem Callback.writable_front {c : Callback} (h : c.of_front = true) : c.Writable fmt false := by
  cases c <;> first | trivial | exact fun h => absurd h Bool.false_ne_true

/-- What is printed of records whose keys and values can be put in JSON can be, too. -/
theorem writable_outcome [Says E V] {records : List (Record E V)} (hgood : ∀ r ∈ records, ∀ m ∈ r.metas, m.fails = none)
    (hw : ∀ r ∈ Record.through filter records, r.key.val.KeyWritable fmt ∧ Says.Writable fmt r.value) (prev : Dest) :
    ∀ c ∈ (((Record.outcome (verdict filter) prev records).1.filter fun x => x.1 = .data_out).map Prod.snd),
      c.Writable fmt false := by
  induction records generalizing prev with
  | nil => exact fun c hc => absurd hc List.not_mem_nil
  | cons r records ih =>
    have hrest : ∀ r' ∈ Record.through filter records, r'.key.val.KeyWritable fmt ∧ Says.Writable fmt r'.value :=
      fun r' hr' =>
      hw r' (List.mem_filter.mpr ⟨List.mem_cons_of_mem r (List.mem_filter.mp hr').1, (List.mem_filter.mp hr').2⟩)
    rw [List.forall_mem_cons] at hgood
    rw [Record.outcome, Meta.sent_good hgood.1]
    dsimp only
    rw [List.filter_append, List.map_append, printed_record, List.forall_mem_append, List.forall_mem_append,
      List.forall_mem_cons]
    refine ⟨⟨fun c hc => ?_, trivial, fun c hc => ?_⟩, ih hgood.2 hrest _⟩
    · split at hc
      · exact Callback.writable_front (Meta.calls_front r.metas c hc)
      · cases hc
    · split at hc
      · next hd =>
        obtain ⟨hkey, hvalue⟩ := hw r (List.mem_filter.mpr ⟨List.mem_cons_self, decide_eq_true hd⟩)
        rcases List.mem_cons.mp hc with rfl | hc
        · exact hkey
        · rcases List.mem_append.mp hc with hc | hc
          · exact Says.writable_calls fmt _ hvalue c hc
          · obtain rfl := List.mem_singleton.mp hc
            trivial
      · cases hc

/-- A key that is done with has ended, and what is printed of it has numbered its elements. -/
theorem KeyDone.whole {prev : Dest} {c : Place} {r : Record E V} {t : St} {o : List Event}
    (h : KeyDone filter prev c r t o)
    (hone : verdict filter r.key.val = .data_out → Callback.OneFirst (Encoding.calls r.value)) :
    (∃ e ∈ o, ∃ type, e.call = .d_end_key type) ∧ Callback.OneFirst (on_data_out o) := by
  have htrace := h.trace
  constructor
  · have hmem : .d_end_key (Encoding.type r.value) ∈ o.map Event.call := by
      have hcalls : o.map Event.call = (r.trace prev (verdict filter r.key.val)).map Prod.snd := by
        rw [← htrace, List.map_map]
        rfl
      rw [hcalls, Record.trace]
      simp
    obtain ⟨e, he, hcall⟩ := List.mem_map.mp hmem
    exact ⟨e, he, _, hcall⟩
  · have hmetas : (if prev = .data_out then r.metas.flatMap Meta.calls else []).filter Callback.first_elem = [] := by
      refine List.filter_eq_nil_iff.mpr fun c hc => ?_
      have hfront : c.of_front = true := by
        split at hc
        · exact Meta.calls_front r.metas c hc
        · cases hc
      cases c <;> first | exact Bool.false_ne_true | cases hfront
    have hprinted : on_data_out o =
        ((r.trace prev (verdict filter r.key.val)).filter fun x => x.1 = .data_out).map Prod.snd := by
      rw [on_data_out, ← htrace, List.filter_map, List.map_map]
      rfl
    rw [hprinted, printed_record, Callback.OneFirst, List.filter_append, hmetas, List.nil_append]
    by_cases hd : verdict filter r.key.val = .data_out
    · have hvalue := hone hd
      rw [Callback.OneFirst] at hvalue
      rw [if_pos hd]
      simpa [Callback.first_elem] using hvalue
    · rw [if_neg hd]
      exact Nat.zero_le 1

/-- Each key that a file has delivered has ended, and has at most one element numbered zero if its value does. -/
theorem KeysDone.whole {file : List UInt8} {prev : Dest} {rs : List (Record E V × Nat × Nat)}
    {ks : List (List Event × St)} (h : KeysDone filter file prev rs ks)
    (hone : ∀ x ∈ rs, verdict filter x.1.key.val = .data_out → Callback.OneFirst (Encoding.calls x.1.value)) :
    ∀ k ∈ ks, (∃ e ∈ k.1, ∃ type, e.call = .d_end_key type) ∧ Callback.OneFirst (on_data_out k.1) := by
  induction rs generalizing prev ks with
  | nil =>
    obtain rfl : ks = [] := h
    exact fun k hk => absurd hk List.not_mem_nil
  | cons r rs ih =>
    cases ks with
    | nil => exact h.elim
    | cons k ks =>
      obtain ⟨⟨c, rest, -, -, -, hdone⟩, hrest⟩ := h
      rw [List.forall_mem_cons] at hone ⊢
      exact ⟨hdone.whole hone.1, ih hrest hone.2⟩

/-- The keys of a file whose values can be put in JSON. -/
theorem KeysDone.whole_file [Says E V] {file : List UInt8} {records : List (Record E V)} {places : List (Nat × Nat)}
    {ks : List (List Event × St)} (h : KeysDone filter file .data_out ((Record.reached records).zip places) ks)
    (hw : ∀ r ∈ Record.through filter records, r.key.val.KeyWritable fmt ∧ Says.Writable fmt r.value) :
    ∀ k ∈ ks, (∃ e ∈ k.1, ∃ type, e.call = .d_end_key type) ∧ Callback.OneFirst (on_data_out k.1) := by
  refine h.whole fun x hx hd => ?_
  have hmem := (List.takeWhile_sublist _).subset (List.of_mem_zip hx).1
  exact Says.one_first fmt _ (hw x.1 (List.mem_filter.mpr ⟨hmem, decide_eq_true hd⟩)).2

end Records

variable {E : Env} {fmt : Nat → List UInt8} {filter : Option (RdbVal → Bool)}

/-- On any input and with any filter: when the loop succeeds, every key has ended and has at most one element with the
number zero, and what goes out can be put in JSON, what is printed is one JSON object that says what the callbacks
say, with a member for each key that is let through, in their order. -/
theorem main_json {fmt : Nat → List UInt8} {show_meta : Bool} {i : Input} {r : MainRun} (h : i.Delivers E filter r)
    (hsuccess : r.success = true)
    (hwhole : ∀ k ∈ r.keys, (∃ e ∈ k.1, ∃ type, e.call = .d_end_key type) ∧ Callback.OneFirst (on_data_out k.1))
    (hw : ∀ c ∈ r.printed, c.Writable fmt show_meta) :
    ∃ ms, Callback.puts fmt show_meta r.printed (.obj [] []) = some (.obj [] ms) ∧
      ms.map Prod.fst = r.printed.filterMap (Callback.member_name fmt show_meta) ∧
      ∃ text, JsonOutput.stdout fmt show_meta r = some text ∧ Whole (.obj ms) text :=
  json_of_blocks (run_blocks h hsuccess hwhole) hsuccess hw

/-- A list and the opcodes in front of it, with the meta fields shown. -/
theorem main_json_compressed :
    ∃ r, (Input.map RdbFile.compressed.bytes 0 0).Delivers Env.literal none r ∧
      ∃ ms, Callback.puts (fun _ => []) true r.printed (.obj [] []) = some (.obj [] ms) ∧
        ms.map Prod.fst = r.printed.filterMap (Callback.member_name (fun _ => []) true) ∧
        ∃ text, JsonOutput.stdout (fun _ => []) true r = some text ∧ Whole (.obj ms) text := by
  obtain ⟨r, hr, hout, hkeys⟩ := Input.run_file (E := Env.literal) none RdbFile.compressed
    (Input.map_tracks RdbFile.compressed.bytes 0 0) (.inl rfl)
  have htrace : r.trace = _ := congrArg Prod.fst hout
  have hkept : kept [0x6b] = true ∧ kept [0x61] = true := by decide
  have hone : ∀ x ∈ RdbFile.compressed.records, Callback.OneFirst (Encoding.calls x.value) :=
    List.forall_mem_singleton.mpr (one_first_mapIdx (fun _ _ => rfl) _)
  refine ⟨r, hr, main_json hr (congrArg Prod.snd hout) (hkeys.whole fun x hx _ => ?_) ?_⟩
  · exact hone x.1 ((List.takeWhile_sublist _).subset (List.of_mem_zip hx).1)
  rw [MainRun.printed, htrace]
  exact List.forall_mem_cons.mpr ⟨trivial, List.forall_mem_cons.mpr ⟨trivial, List.forall_mem_cons.mpr ⟨trivial,
    List.forall_mem_cons.mpr ⟨hkept.1, List.forall_mem_cons.mpr ⟨hkept.2, List.forall_mem_singleton.mpr trivial⟩⟩⟩⟩⟩

/-- What is printed for a run on all records of a file. -/
theorem json_of_outcome {V : Type} [Encoding E V] [Says E V] {f : RdbFile E V}
    (hgood : ∀ r ∈ f.records, ∀ m ∈ r.metas, m.fails = none)
    (hw : ∀ r ∈ Record.through filter f.records, r.key.val.KeyWritable fmt ∧ Says.Writable fmt r.value) {i : Input}
    {run : MainRun} (hrun : i.Delivers E filter run)
    (hout : (run.trace, run.success) = Record.outcome (verdict filter) .data_out f.records)
    (hkeys : ∀ k ∈ run.keys, (∃ e ∈ k.1, ∃ type, e.call = .d_end_key type) ∧ Callback.OneFirst (on_data_out k.1)) :
    ∃ text, JsonOutput.stdout fmt false run = some text ∧
      Whole (.obj ((Record.through filter f.records).map (Record.member fmt))) text := by
  obtain ⟨hsuccess, hputs⟩ := puts_outcome fmt filter hgood .data_out []
  have hwritable := writable_outcome hgood hw .data_out
  rw [← hout] at hsuccess hputs hwritable
  obtain ⟨ms, hms, -, text, htext, hwhole⟩ := json_of_blocks (run_blocks hrun hsuccess hkeys) hsuccess hwritable
  have heq : ms = (Record.through filter f.records).map (Record.member fmt) := by
    have h := hms.symm.trans hputs
    simpa using h
  exact ⟨text, htext, heq ▸ hwhole⟩

end rdbparser
