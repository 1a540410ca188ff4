import Rdbparser.Main.Encodings
import Rdbparser.Restore.Rekeyed

/-! Restoring the keys of a file from the commands that are written for them. -/

namespace rdbparser

open format RdbDecode resp

/-- A command that restores a key: the key, and the values that its dump is decoded to. -/
def RestoreOutput.replay (E : Env) (past : Mem) (cmd : List (List UInt8)) : Option (List UInt8 × List Callback) :=
  match cmd with
  | [restore, key, ttl, payload, replace] =>
    let run := next_key E (St.start none ⟨.input, Mem.ofList payload past, 0⟩ payload.length)
    if restore = RESTORE ∧ ttl = [0x30] ∧ replace = REPLACE ∧ run.res = .ok () then some (key, values run.out) else none
  | _ => none

/-- The keys that the commands of a text restore, one after the other. -/
def RestoreOutput.replays (E : Env) (past : Mem) (text : List UInt8) : Option (List (List UInt8 × List Callback)) :=
  (read_arrays text.length text).bind fun cmds => cmds.mapM (replay E past)

variable {E : Env}

/-- The parts of the command for a record. -/
def format.Record.parts {V : Type} [Encoding E V] (r : Record E V) : List (List UInt8) :=
  [RestoreOutput.RESTORE, r.key.text, [0x30], dump (Encoding.type_byte r.value) r.data, RestoreOutput.REPLACE]

theorem format.Record.replay_parts {V : Type} [Encoding E V] [Decodes E V] (r : Record E V) (past : Mem) :
    RestoreOutput.replay E past r.parts = some (r.key.text, Encoding.calls r.value) := by
  obtain ⟨t, o, hrun, ho⟩ := next_key_dump r.value past
  have hvalues : values o = Encoding.calls r.value := values_framed List.filter_nil .data_out ho
  rw [← Record.data] at hrun
  simp only [Record.parts, RestoreOutput.replay, hrun, hvalues, and_self, if_true]

theorem mapM_some {α β : Type} {f : α → Option β} {g : α → β} (h : ∀ x, f x = some (g x)) (xs : List α) :
    xs.mapM f = some (xs.map g) := by
  induction xs with
  | nil => rfl
  | cons x xs ih =>
    rw [List.mapM_cons, h, ih]
    rfl

/-- The commands of the records that are let through, one after the other. -/
theorem format.Record.restored_flatten {V : Type} [Encoding E V] (filter : Option (RdbVal → Bool))
    (records : List (Record E V)) :
    (records.map (Record.restored (verdict filter))).flatten =
      ((Record.through filter records).map Record.parts).flatMap array := by
  induction records with
  | nil => rfl
  | cons r records ih =>
    rw [Record.through] at ih ⊢
    rw [List.map_cons, List.flatten_cons, ih, List.filter_cons, Record.restored]
    by_cases hd : verdict filter r.key.val = .data_out
    · rw [if_pos hd, if_pos (decide_eq_true hd)]
      rfl
    · rw [if_neg hd, if_neg fun h => hd (of_decide_eq_true h)]
      rfl

theorem format.Record.reached_good {V : Type} {records : List (Record E V)}
    (hgood : ∀ r ∈ records, ∀ m ∈ r.metas, m.fails = none) :
    Record.reached records = records := by
  refine List.takeWhile_eq_self_iff.mpr fun r hr => ?_
  rw [Meta.sent_good (hgood r hr)]
  rfl

/-- The loop with `-r` on a mapped file, with values in any encodings: what is written is read back as commands,
one for each key that is let through and in their order, and its dump is decoded to the value in the file. No
opcode may fail, and the keys that are let through are stored raw and have lengths that can be printed; nothing
is asked of the others. -/
theorem restore_replays (f : RdbFile E (AnyValue E)) (filter : Option (RdbVal → Bool)) (hlong : f.bytes.length < 2 ^ 63)
    (hgood : ∀ r ∈ f.records, ∀ m ∈ r.metas, m.fails = none)
    (hrestorable : ∀ r ∈ Record.through filter f.records, r.Restorable) (past past' : Mem)
    (size : Nat) {out : RestoreOutput}
    (hreplace : out.use_replace = true) :
    ∃ (run : MainRun) (cmds : List (List UInt8)), (Input.map f.bytes past size).Delivers E filter run ∧
      RestoreOutput.commands E out run.keys = cmds.map some ∧
      RestoreOutput.replays E past' cmds.flatten =
        some ((Record.through filter f.records).map fun r => (r.key.text, Encoding.calls r.value)) := by
  obtain ⟨run, hrun, -, hkeys⟩ := Input.run_file filter f (Input.map_tracks f.bytes past size) (.inl rfl)
  rw [Record.reached_good hgood] at hkeys
  have hlen : f.records.length ≤
      (places (f.bytes.length + 1) f.bytes.length 9 0 (f.records.map fun r => r.bytes.length)).length := by
    rw [places_length, List.length_map]
  have hfst := List.map_fst_zip hlen
  have hplaces : ∀ x ∈ f.records.zip (places (f.bytes.length + 1) f.bytes.length 9 0
      (f.records.map fun r => r.bytes.length)), 9 ≤ x.2.1 ∧ x.2.2 = 0 := by
    intro x hx
    exact places_mapped _ _ _ x.2 (List.of_mem_zip hx).2
  have hall : ∀ x ∈ f.records.zip
      (places (f.bytes.length + 1) f.bytes.length 9 0 (f.records.map fun r => r.bytes.length)),
      verdict filter x.1.key.val = .data_out → x.1.Restorable := by
    intro x hx hd
    exact hrestorable x.1 (List.mem_filter.mpr ⟨(List.of_mem_zip hx).1, decide_eq_true hd⟩)
  have hcommands := (hkeys.commands_iff hlong hplaces hreplace).mpr hall
  refine ⟨run, f.records.map (Record.restored (verdict filter)), hrun, ?_, ?_⟩
  · rw [hcommands]
    conv_rhs => rw [← hfst]
    rw [List.map_map, List.map_map]
    rfl
  · rw [Record.restored_flatten, RestoreOutput.replays, read_arrays_flatMap _ (Nat.le_refl _),
      Option.bind_some, List.mapM_map]
    exact mapM_some (fun r => r.replay_parts past') _

/-- The list "k" as a quicklist and the stream "s". -/
theorem restore_replays_encoded :
    ∃ (run : MainRun) (cmds : List (List UInt8)), (Input.map RdbFile.encoded.bytes 0 0).Delivers Env.literal none run ∧
      RestoreOutput.commands Env.literal ⟨true, false, 0, 0, 0, 0⟩ run.keys = cmds.map some ∧
      RestoreOutput.replays Env.literal 0 cmds.flatten =
        some ((Record.through none RdbFile.encoded.records).map fun r => (r.key.text, Encoding.calls r.value)) := by
  refine restore_replays RdbFile.encoded none (by decide) (by decide) (fun r hr => ?_) 0 0 0 rfl
  rw [Record.Restorable, dump_length]
  rcases List.mem_cons.mp (List.mem_filter.mp hr).1 with rfl | hr
  · exact ⟨rfl, by decide, by decide⟩
  · obtain rfl := List.mem_singleton.mp hr
    exact ⟨rfl, by decide, by decide⟩

end rdbparser
