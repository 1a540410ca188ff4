import Rdbparser.Main.Encodings
import Rdbparser.Main.Filter
import Rdbparser.Main.Outputs
import Rdbparser.Json.Values
import Rdbparser.Pcre.Expr

/-! The keys that are listed. -/

namespace rdbparser

open format RdbDecode

variable {E : Env} {filter : Option (RdbVal → Bool)}

namespace ListOutput

/-- What is printed for callbacks one after the other; what goes to the other output is not. -/
def write (fmt : Nat → List UInt8) : List (Dest × Callback) → Option (List UInt8)
  | [] => some []
  | (.null_out, _) :: calls => write fmt calls
  | (.data_out, c) :: calls => do
    let text ← callback fmt c
    let rest ← write fmt calls
    pure (text ++ rest)

/-- All that it prints in a run of the key loop. -/
def stdout (fmt : Nat → List UInt8) (r : MainRun) : Option (List UInt8) := write fmt r.trace

/-- A key without quotes. -/
def key_text (fmt : Nat → List UInt8) : RdbVal → List UInt8
  | .nil => nil_text
  | .int i => int_text i
  | .str s => text s
  | .dbl n => fmt n

def line (fmt : Nat → List UInt8) (key : RdbVal) : List UInt8 := key_text fmt key ++ ascii "\n"

/-- The keys that are started on the real output. -/
def keys (trace : List (Dest × Callback)) : List RdbVal :=
  trace.filterMap fun x => if x.1 = .data_out then x.2.starts else none

/-- A line is printed for the call that starts a key, and nothing for any other. -/
theorem callback_starts (fmt : Nat → List UInt8) (c : Callback) :
    callback fmt c = some (c.starts.toList.flatMap (line fmt)) := by
  cases c with
  | d_start_key type key =>
    have hkey : key.print_s fmt false = some (key_text fmt key) := by
      cases key with
      | str s =>
        obtain ⟨chunks, hrun, hflat⟩ := print_str_written s false
        rw [RdbVal.print_s, hrun, Option.map_some, hflat]
        rfl
      | _ => rfl
    rw [callback, hkey]
    exact congrArg some (List.append_nil _).symm
  | _ => rfl

theorem keys_cons (d : Dest) (c : Callback) (trace : List (Dest × Callback)) :
    keys ((d, c) :: trace) = (if d = .data_out then c.starts.toList else []) ++ keys trace := by
  rw [keys, List.filterMap_cons]
  cases d with
  | null_out => rfl
  | data_out => cases c.starts <;> rfl

theorem keys_append (xs ys : List (Dest × Callback)) : keys (xs ++ ys) = keys xs ++ keys ys := List.filterMap_append

/-- One line for each of the keys. -/
theorem write_keys (fmt : Nat → List UInt8) (trace : List (Dest × Callback)) :
    write fmt trace = some ((keys trace).flatMap (line fmt)) := by
  induction trace with
  | nil => rfl
  | cons x trace ih =>
    obtain ⟨d, c⟩ := x
    rw [keys_cons, List.flatMap_append]
    cases d with
    | null_out => exact ih
    | data_out =>
      rw [write, callback_starts, ih]
      rfl

/-- A key is started where the verdict on it sends it. -/
theorem keys_redirect (v : RdbVal → Dest) (d : Dest) (es : List Event) :
    keys ((redirect v d es).map Event.sent) = (es.filterMap fun e => e.call.starts).filter fun key =>
      v key = .data_out := by
  induction es generalizing d with
  | nil => rfl
  | cons e es ih =>
    have hsent : (if e.call.sent_to v d = .data_out then e.call.starts.toList else []) =
        e.call.starts.toList.filter fun key => v key = .data_out := by
      cases e.call with
      | d_start_key type key =>
        change (if v key = .data_out then [key] else []) = _
        by_cases hv : v key = .data_out <;> simp [hv, Callback.starts]
      | _ => exact ite_self _
    rw [redirect, List.map_cons, Event.sent, keys_cons, ih, hsent, ← List.filter_append]
    apply congrArg (List.filter _)
    rw [List.filterMap_cons]
    cases e.call.starts <;> rfl

/-- Without a filter all keys are started on the real output. -/
theorem keys_unfilter (es : List Event) : keys ((es.map Event.unfilter).map Event.sent) = es.filterMap fun e =>
  e.call.starts := by
  rw [keys, List.filterMap_map, List.filterMap_map]
  rfl

theorem keys_none {calls : List Callback} (h : ∀ c ∈ calls, c.starts = none) (d : Dest) :
    keys (calls.map (d, ·)) = [] := by
  rw [keys, List.filterMap_map, List.filterMap_eq_nil_iff]
  intro c hc
  simp [h c hc]

end ListOutput

/-- On any input, well formed or not, what `ListOutput` prints with a filter is what it prints without one, less
the lines of the keys that the filter does not let through. -/
theorem list_filter (E : Env) (filter : Option (RdbVal → Bool)) (i : Input) (fmt : Nat → List UInt8) {r₀ : MainRun}
    (h : i.Delivers E none r₀) :
    ∃ r, i.Delivers E filter r ∧ r.success = r₀.success ∧
      ListOutput.stdout fmt r₀ = some ((ListOutput.keys r₀.trace).flatMap (ListOutput.line fmt)) ∧
      ListOutput.stdout fmt r =
        some (((ListOutput.keys r₀.trace).filter fun key => verdict filter key = .data_out).flatMap
          (ListOutput.line fmt)) := by
  obtain ⟨r, hr, rfl, hevents⟩ := h.filtered filter
  refine ⟨r, hr, rfl, ListOutput.write_keys fmt _, ?_⟩
  rw [ListOutput.stdout, ListOutput.write_keys, MainRun.trace, hevents, ListOutput.keys_redirect, MainRun.trace,
    MainRun.unfilter_events, ListOutput.keys_unfilter, List.filterMap_map]
  rfl

/-- Two of three keys are not "k". -/
theorem list_filter_three : ∃ r₀, (Input.map RdbFile.three_keys.bytes 0 0).Delivers Env.literal none r₀ ∧
    ∃ r, (Input.map RdbFile.three_keys.bytes 0 0).Delivers Env.literal (some fun key => key = .str [0x6b]) r ∧
      r.success = r₀.success ∧
      ListOutput.stdout (fun _ => []) r₀ = some ((ListOutput.keys r₀.trace).flatMap (ListOutput.line fun _ => [])) ∧
      ListOutput.stdout (fun _ => []) r =
        some (((ListOutput.keys r₀.trace).filter fun key =>
          verdict (some fun key => key = .str [0x6b]) key = .data_out).flatMap (ListOutput.line fun _ => [])) := by
  obtain ⟨r₀, hr₀, -⟩ := Input.run_file (E := Env.literal) none RdbFile.three_keys
    (Input.map_tracks RdbFile.three_keys.bytes 0 0) (.inl rfl)
  exact ⟨r₀, hr₀, list_filter Env.literal (some fun key => key = .str [0x6b]) _ _ hr₀⟩

namespace format

theorem Meta.calls_starts (m : Meta E) : ∀ c ∈ m.calls, c.starts = none := by
  intro c hc
  cases m <;> simp only [Meta.calls, List.mem_singleton, List.not_mem_nil] at hc <;> exact hc ▸ rfl

/-- No opcode starts a key. -/
theorem Meta.sent_starts (ms : List (Meta E)) : ∀ c ∈ (Meta.sent ms).1, c.starts = none := by
  induction ms with
  | nil => exact List.forall_mem_nil _
  | cons m ms ih =>
    rw [Meta.sent]
    split
    · exact m.calls_starts
    · exact List.forall_mem_append.mpr ⟨m.calls_starts, ih⟩

variable {V : Type} [Encoding E V]

/-- The key that a record starts. -/
theorem Record.trace_keys (r : Record E V) (prev : Dest) :
    ListOutput.keys (r.trace prev (verdict filter r.key.val)) = (Record.through filter [r]).map fun r => r.key.val := by
  have hmetas : ∀ c ∈ r.metas.flatMap Meta.calls, c.starts = none := by
    intro c hc
    obtain ⟨m, -, hm⟩ := List.mem_flatMap.mp hc
    exact m.calls_starts c hm
  have hcalls : ∀ c ∈ Encoding.calls r.value, c.starts = none := by
    intro c hc
    have hvalue := Encoding.of_value r.value c hc
    cases c with
    | d_start_key => cases hvalue
    | _ => rfl
  have hend : ListOutput.keys [(verdict filter r.key.val, Callback.d_end_key (Encoding.type r.value))] = [] :=
    ListOutput.keys_none (List.forall_mem_singleton.mpr rfl) (verdict filter r.key.val)
  rw [Record.trace, ListOutput.keys_append, ListOutput.keys_none hmetas, List.nil_append, ListOutput.keys_cons,
    ListOutput.keys_cons, ListOutput.keys_append, ListOutput.keys_none hcalls, hend, Record.through]
  by_cases hd : verdict filter r.key.val = .data_out <;> simp [hd, Callback.starts]

/-- The keys that are started in a file. -/
theorem Record.outcome_keys (prev : Dest) (records : List (Record E V)) :
    ListOutput.keys (Record.outcome (verdict filter) prev records).1 =
      (Record.through filter (Record.reached records)).map fun r => r.key.val := by
  induction records generalizing prev with
  | nil => rfl
  | cons r records ih =>
    rw [Record.outcome, Record.reached, List.takeWhile_cons]
    cases hfails : (Meta.sent r.metas).2 with
    | some e => exact ListOutput.keys_none (Meta.sent_starts r.metas) prev
    | none =>
      change ListOutput.keys (r.trace prev (verdict filter r.key.val) ++
        (Record.outcome (verdict filter) (verdict filter r.key.val) records).1) = _
      rw [ListOutput.keys_append, ih, r.trace_keys, ← List.map_append, Record.through, Record.through,
        ← List.filter_append]
      rfl

/-- A key of a file is a string or a number. -/
theorem StoredStr.val_cases (x : StoredStr E) : (∃ s, x.val = .str s) ∨ ∃ i, x.val = .int i := by
  cases x with
  | raw _ s _ => exact .inl ⟨s, rfl⟩
  | int i => exact .inr ⟨i.val, rfl⟩
  | lzf _ _ _ s _ _ _ => exact .inl ⟨s, rfl⟩

end format

/-- The line of a key has no newline but the last. -/
theorem ListOutput.line_newlines (fmt : Nat → List UInt8) (x : StoredStr E) : (line fmt x.val).count 0x0a = 1 := by
  have hescape : ∀ n < 256, 0x0a ∉ escape (UInt8.ofNat n) := by decide +kernel
  have hkey : 0x0a ∉ key_text fmt x.val := by
    intro hmem
    obtain ⟨s, hs⟩ | ⟨i, hi⟩ := x.val_cases
    · rw [hs] at hmem
      obtain ⟨b, -, hb⟩ := List.mem_flatMap.mp hmem
      exact hescape b.toNat b.toNat_lt (by rwa [UInt8.ofNat_toNat])
    · rw [hi] at hmem
      exact absurd (int_text_plain i _ hmem) (by decide)
  rw [line, List.count_append, List.count_eq_zero.mpr hkey]
  rfl

/-- What `ListOutput` prints for a file, read from stdin or mapped: a line for each key that the filter lets
through, up to the first opcode that fails, in their order. The values may be in any encodings, and the buffer
is more than twice as long as the version header and as every record. -/
theorem list_file (f : RdbFile E (AnyValue E)) (filter : Option (RdbVal → Bool))
    (fmt : Nat → List UInt8) (mem past : Mem)
    (size map_size : Nat) (hheader : 2 * (header f.ver).length < size) (hrecords : ∀ r ∈ f.records,
      2 * r.bytes.length < size) :
    ∃ r r' lines, (Input.stdin_buf mem size f.bytes).Delivers E filter r ∧
      (Input.map f.bytes past map_size).Delivers E filter r' ∧
      ListOutput.stdout fmt r = some lines.flatten ∧ ListOutput.stdout fmt r' = some lines.flatten ∧
      lines = (Record.through filter (Record.reached f.records)).map (fun r => ListOutput.line fmt r.key.val) ∧
      ∀ line ∈ lines, line.count 0x0a = 1 ∧ line.getLast? = some 0x0a := by
  rw [header_length] at hheader
  obtain ⟨r, r', hr, hr', hout, hout'⟩ := f.exists_runs filter mem past map_size hheader hrecords
  have hprinted : ∀ run : MainRun, (run.trace, run.success) = Record.outcome (verdict filter) .data_out f.records →
      ListOutput.stdout fmt run =
        some ((Record.through filter (Record.reached f.records)).map fun r =>
            ListOutput.line fmt r.key.val).flatten := by
    intro run hrun
    have htrace : run.trace = (Record.outcome (verdict filter) .data_out f.records).1 := congrArg Prod.fst hrun
    rw [ListOutput.stdout, ListOutput.write_keys, htrace, Record.outcome_keys, List.flatMap_map]
    rfl
  refine ⟨r, r', _, hr, hr', hprinted r hout, hprinted r' hout', rfl, ?_⟩
  intro line hline
  obtain ⟨x, -, rfl⟩ := List.mem_map.mp hline
  exact ⟨ListOutput.line_newlines fmt x.key, List.getLast?_concat ..⟩

/-- The quicklist and the stream. -/
theorem list_file_encoded :
    ∃ r r' lines, (Input.stdin_buf 0 200 RdbFile.encoded.bytes).Delivers Env.literal none r ∧
      (Input.map RdbFile.encoded.bytes 0 0).Delivers Env.literal none r' ∧
      ListOutput.stdout (fun _ => []) r = some lines.flatten ∧ ListOutput.stdout (fun _ => []) r' = some lines.flatten ∧
      lines = (Record.through none (Record.reached RdbFile.encoded.records)).map
        (fun r => ListOutput.line (fun _ => []) r.key.val) ∧
      ∀ line ∈ lines, line.count 0x0a = 1 ∧ line.getLast? = some 0x0a :=
  list_file RdbFile.encoded none (fun _ => []) 0 0 200 0 (by decide) (by decide)

end rdbparser
