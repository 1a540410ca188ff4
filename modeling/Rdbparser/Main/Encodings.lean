import Rdbparser.Decode.Packed
import Rdbparser.Main.Records
import Rdbparser.Stream.Value

/-! Files with values in every encoding that is decoded. -/

namespace rdbparser

open format RdbDecode

variable {E : Env}

/-- The keys that are let through. -/
def format.Record.through {V : Type} (filter : Option (RdbVal → Bool)) (records : List (Record E V)) :
    List (Record E V) :=
  records.filter fun r => verdict filter r.key.val = .data_out

/-- A value in any encoding: its elements one after the other, a sorted set, all in one string, in nodes, or a
stream. -/
abbrev format.AnyValue (E : Env) : Type := Value E ⊕ PlainZSet E ⊕ PackedValue E ⊕ QuickValue E ⊕ StreamValue E

/-- The same, with quicklists of at most one node: those of more are not numbered as they are stored. -/
abbrev format.ExactValue (E : Env) : Type := Value E ⊕ PlainZSet E ⊕ PackedValue E ⊕ QuickSingle E ⊕ StreamValue E

/-- The key loop on a file that is read from stdin, through a buffer more than twice as long as the version
header and as every record, and on the file mapped. -/
theorem format.RdbFile.exists_runs {V : Type} [Encoding E V] [Decodes E V] (f : RdbFile E V)
    (filter : Option (RdbVal → Bool))
    (mem past : Mem) {size : Nat} (map_size : Nat) (hheader : 18 < size) (hrecords : ∀ r ∈ f.records,
      2 * r.bytes.length < size) :
    ∃ r r', (Input.stdin_buf mem size f.bytes).Delivers E filter r ∧
      (Input.map f.bytes past map_size).Delivers E filter r' ∧
      (r.trace, r.success) = Record.outcome (verdict filter) .data_out f.records ∧
      (r'.trace, r'.success) = Record.outcome (verdict filter) .data_out f.records := by
  obtain ⟨ht, hsize⟩ := Input.stdin_tracks f mem hheader
  obtain ⟨r, hr, hout, -⟩ := Input.run_file filter f ht (.inr (by rw [hsize]; exact ⟨hheader, hrecords⟩))
  obtain ⟨r', hr', hout', -⟩ := Input.run_file filter f (Input.map_tracks f.bytes past map_size) (.inl rfl)
  exact ⟨r, r', hr, hr', hout, hout'⟩

namespace format

/-- The quicklist of one node. -/
def QuickValue.one : QuickValue Env.literal where
  n := .short 1
  list := .ziplists [.two]
  hn := StoredLen.short_one

theorem StreamNode.one_counted : ∀ x ∈ [StreamNode.one], x.block.Counted := List.forall_mem_singleton.mpr ⟨rfl, rfl⟩

theorem StreamNode.one_deliverable : Deliverable [StreamNode.one] := ⟨by decide, by decide, by decide⟩

theorem StreamNode.one_tidy : Tidy [StreamNode.one] := ⟨by decide, by decide, by decide⟩

theorem StoredLen.short_zero : (StoredLen.short 0).val = 0 := rfl

/-- Without groups. -/
def StreamTrailer.bare : StreamTrailer Env.literal where
  elems := .short 1
  last_ms := .short 5
  last_ser := .short 0
  more := none
  group_cnt := .short 0
  groups := []
  hgroups := StoredLen.short_zero

theorem StreamTrailer.bare_count : bare.last_count = bare.elems.val := rfl

theorem StreamTrailer.bare_names : ∀ x ∈ bare.consumer_names, x.is_lzf = false := by decide

/-- The stream of one entry, without groups. -/
def StreamValue.one : StreamValue Env.literal where
  n := .short 1
  nodes := [.one]
  trailer := .bare
  hn := StoredLen.short_one
  counted := StreamNode.one_counted
  deliverable := StreamNode.one_deliverable
  tidy := StreamNode.one_tidy
  count := StreamTrailer.bare_count
  names := StreamTrailer.bare_names

/-- The list "k" as a quicklist and the stream "s". -/
def RdbFile.encoded : RdbFile Env.literal (AnyValue Env.literal) where
  ver := RdbFile.compressed.ver
  hver := RdbFile.compressed_ver
  records := [⟨[], .letter 0x6b, .inr (.inr (.inr (.inl .one)))⟩, ⟨[], .letter 0x73, .inr (.inr (.inr (.inr .one)))⟩]
  crc := RdbFile.compressed.crc
  hcrc := RdbFile.compressed_crc

theorem QuickValue.one_single : QuickValue.one.list.elems.length ≤ 1 := Nat.le_refl 1

/-- The same keys, and the list "l" with a compressed element. -/
def RdbFile.exact : RdbFile Env.literal (ExactValue Env.literal) where
  ver := RdbFile.compressed.ver
  hver := RdbFile.compressed_ver
  records := [⟨[.dbselect (.short 3)], .letter 0x6b, .inr (.inr (.inr (.inl ⟨.one, QuickValue.one_single⟩)))⟩,
    ⟨[], .letter 0x73, .inr (.inr (.inr (.inr .one)))⟩,
    ⟨[], .literal 0x6c, .inl (.list (.short 1) [.literal 0x61] StoredLen.short_one)⟩]
  crc := RdbFile.compressed.crc
  hcrc := RdbFile.compressed_crc

end format

end rdbparser
