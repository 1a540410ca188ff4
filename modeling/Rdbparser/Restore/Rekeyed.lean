import Rdbparser.Restore.Keys
import Rdbparser.Restore.File

namespace rdbparser

open format RdbDecode

variable {E : Env} {V : Type} [Encoding E V]

/-- Two records that differ in how the key is stored. -/
def format.Record.Rekeyed (r r' : Record E V) : Prop :=
  r.metas = r'.metas ∧ r.value = r'.value ∧ r.key.text = r'.key.text

/-- Two files of records that differ in how the keys are stored. -/
def format.RdbFile.Rekeyed (f f' : RdbFile E V) : Prop :=
  List.Forall₂ Record.Rekeyed f.records f'.records

omit [Encoding E V] in
/-- Which records are reached does not depend on how their keys are stored. -/
theorem format.Record.Rekeyed.reached {rs rs' : List (Record E V)}
    (h : List.Forall₂ Record.Rekeyed rs rs') :
    List.Forall₂ Record.Rekeyed (Record.reached rs) (Record.reached rs') := by
  induction h with
  | nil => exact .nil
  | cons hr _ ih =>
    rw [Record.reached, Record.reached, List.takeWhile_cons, List.takeWhile_cons, hr.1]
    split
    · exact .cons hr ih
    · exact .nil

/-- The loop with `-r` on a mapped file writes the commands of the records the filter lets through. -/
def format.RdbFile.Restores (f : RdbFile E V) (filter : PcreFilter) (out : RestoreOutput) : Prop :=
  ∀ past size, ∃ run, (Input.map f.bytes past size).Delivers E (some filter.match_key) run ∧
    RestoreOutput.commands E out run.keys =
      (Record.reached f.records).map fun r => some (r.restored (verdict (some filter.match_key)))

/-- Two files are treated alike: the filter has the same verdicts on their keys, and the same commands
are written for them, with the text of the key and the bytes of the value. -/
def format.RdbFile.Alike (f f' : RdbFile E V) (filter : PcreFilter) (out : RestoreOutput) : Prop :=
  (Record.reached f.records).map (fun r => filter.match_key r.key.val) =
      (Record.reached f'.records).map (fun r => filter.match_key r.key.val) ∧
    f.Restores filter out ∧ f'.Restores filter out

theorem format.StoredStr.val_raw {x : StoredStr E} (h : x.is_raw = true) : x.val = .str x.text := by
  obtain ⟨len, text, hlen, rfl⟩ := x.eq_raw h
  rfl

/-- One key: raw in both files it is the same key, and one that is not let through writes nothing. -/
theorem format.Record.Rekeyed.alike_iff {r r' : Record E V} (h : r.Rekeyed r') (filter : PcreFilter) :
    (filter.match_key r.key.val = filter.match_key r'.key.val ∧
        (filter.match_key r.key.val = true → r.Restorable) ∧
          (filter.match_key r'.key.val = true → r'.Restorable)) ↔
      (filter.match_key r.key.val = true ∨ filter.match_key r'.key.val = true →
        r.Restorable ∧ r'.Restorable) := by
  constructor
  · rintro ⟨heq, hr, hr'⟩ hmatch
    rw [← heq, or_self] at hmatch
    exact ⟨hr hmatch, hr' (heq ▸ hmatch)⟩
  · intro hboth
    refine ⟨?_, fun hmatch => (hboth (.inl hmatch)).1, fun hmatch => (hboth (.inr hmatch)).2⟩
    by_cases hmatch : filter.match_key r.key.val = true ∨ filter.match_key r'.key.val = true
    · obtain ⟨hr, hr'⟩ := hboth hmatch
      rw [StoredStr.val_raw hr.1, StoredStr.val_raw hr'.1, h.2.2]
    · rw [not_or, Bool.not_eq_true, Bool.not_eq_true] at hmatch
      rw [hmatch.1, hmatch.2]

theorem verdict_some (filter : PcreFilter) (key : RdbVal) :
    verdict (some filter.match_key) key = .data_out ↔ filter.match_key key = true := by
  rw [verdict]
  split <;> simp_all

/-- A file is restored as it is if and only if every record in it that is reached and let through is stored so that it
can be. -/
theorem format.RdbFile.restores_iff [Decodes E V] (f : RdbFile E V) (hlong : f.bytes.length < 2 ^ 63)
    (filter : PcreFilter) {out : RestoreOutput} (hreplace : out.use_replace = true) :
    f.Restores filter out ↔
      ∀ r ∈ Record.reached f.records, filter.match_key r.key.val = true → r.Restorable := by
  have hlen : (Record.reached f.records).length ≤
      (places (f.bytes.length + 1) f.bytes.length 9 0 (f.records.map fun r => r.bytes.length)).length := by
    rw [places_length, List.length_map]
    exact (List.takeWhile_sublist _).length_le
  have hplaces : ∀ x ∈ (Record.reached f.records).zip (places (f.bytes.length + 1) f.bytes.length 9 0
      (f.records.map fun r => r.bytes.length)), 9 ≤ x.2.1 ∧ x.2.2 = 0 := by
    intro x hx
    exact places_mapped _ _ _ x.2 (List.of_mem_zip hx).2
  have hcommands : ∀ run, KeysDone (some filter.match_key) f.bytes .data_out
      ((Record.reached f.records).zip (places (f.bytes.length + 1) f.bytes.length 9 0
        (f.records.map fun r => r.bytes.length))) run →
      (RestoreOutput.commands E out run = (Record.reached f.records).map (fun r =>
          some (r.restored (verdict (some filter.match_key)))) ↔
        ∀ r ∈ Record.reached f.records, filter.match_key r.key.val = true → r.Restorable) := by
    intro run hrun
    have hiff := hrun.commands_iff hlong hplaces hreplace
    have hfst := List.map_fst_zip hlen
    rw [← hfst, List.map_map, List.forall_mem_map]
    simp only [verdict_some] at hiff
    exact hiff
  constructor
  · intro h
    obtain ⟨run, hrun, hcmds⟩ := h 0 0
    obtain ⟨run', hrun', -, hkeys⟩ := Input.run_file (some filter.match_key) f
      (Input.map_tracks f.bytes 0 0) (.inl rfl)
    rw [hrun.unique hrun'] at hcmds
    exact (hcommands _ hkeys).mp hcmds
  · intro h past size
    obtain ⟨run, hrun, -, hkeys⟩ := Input.run_file (some filter.match_key) f
      (Input.map_tracks f.bytes past size) (.inl rfl)
    exact ⟨run, hrun, (hcommands _ hkeys).mpr h⟩

/-- Files that differ in how their keys are stored are treated alike if and only if every key that the
filter lets through in one of them is stored raw in both, and short enough for its length to be
printed. The values may be of any encoding that is decoded, and the filter may let through any keys. -/
theorem rekeyed_alike_iff [Decodes E V] (f f' : RdbFile E V) (hrekeyed : f.Rekeyed f')
    (hlong : f.bytes.length < 2 ^ 63) (hlong' : f'.bytes.length < 2 ^ 63) (filter : PcreFilter)
    {out : RestoreOutput} (hreplace : out.use_replace = true) :
    f.Alike f' filter out ↔
      List.Forall₂ (fun r r' => filter.match_key r.key.val = true ∨ filter.match_key r'.key.val = true →
        r.Restorable ∧ r'.Restorable) (Record.reached f.records) (Record.reached f'.records) := by
  rw [RdbFile.Alike, f.restores_iff hlong filter hreplace, f'.restores_iff hlong' filter hreplace]
  have hreached := Record.Rekeyed.reached hrekeyed
  generalize Record.reached f.records = rs at hreached ⊢
  generalize Record.reached f'.records = rs' at hreached ⊢
  clear hrekeyed hlong hlong' hreplace
  induction hreached with
  | nil => simp
  | cons hr _ ih =>
    rw [List.map_cons, List.map_cons, List.cons.injEq, List.forall_mem_cons, List.forall_mem_cons,
      List.forall₂_cons, ← hr.alike_iff filter]
    tauto

/-- A file with the key "k" stored raw, and one with it compressed. -/
theorem rekeyed_compressed :
    ¬ RdbFile.raw.Alike RdbFile.compressed ⟨[], fun _ => 1, false, false⟩ ⟨true, false, 0, 0, 0, 0⟩ := by
  intro h
  have hpairs := (rekeyed_alike_iff RdbFile.raw RdbFile.compressed
    (List.forall₂_cons.mpr ⟨⟨rfl, rfl, rfl⟩, .nil⟩) (by decide) (by decide) _ rfl).mp h
  have hpair := (List.forall₂_cons.mp hpairs).1 (.inl rfl)
  exact absurd hpair.2.1 (by decide)

/-- A file with a list of the given key. -/
def format.RdbFile.keyed (key : StoredStr Env.literal) : RdbFile Env.literal (Value Env.literal) :=
  RdbFile.raw.with_records (RdbFile.raw.records.map fun r => { r with key := key })

/-- The key "5" is found where it is stored raw, and not where it is stored as an integer. -/
theorem rekeyed_not_alike :
    ¬ ∀ (E : Env) (f f' : RdbFile E (Value E)) (filter : PcreFilter) (out : RestoreOutput),
      f.Rekeyed f' → out.use_replace = true → f.Alike f' filter out := by
  intro h
  have halike := h _ (RdbFile.keyed (.letter 0x35))
    (RdbFile.keyed (.int ⟨.int8, 5, by decide, by decide⟩)) ⟨[0x35], fun _ => 0, false, false⟩
    ⟨true, false, 0, 0, 0, 0⟩ (List.forall₂_cons.mpr ⟨⟨rfl, rfl, by decide⟩, .nil⟩) rfl
  exact absurd halike.1 (by decide)

end rdbparser
