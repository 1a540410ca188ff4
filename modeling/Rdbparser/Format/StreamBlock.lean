import Rdbparser.Format.Stream
import Rdbparser.ListPack.Same
import Rdbparser.Stream

namespace rdbparser.format

/-- What an entry of a stream holds: fields and values, or values for the master fields. -/
inductive StreamFields
  | own (pairs : List (ListPackElem × ListPackElem))
  | same (values : List ListPackElem)
  deriving DecidableEq

namespace StreamFields

def is_same : StreamFields → Bool
  | own _ => false
  | same _ => true

/-- There is a value for each of `m` master fields. -/
def Fits (m : Nat) : StreamFields → Prop
  | own _ => True
  | same values => values.length = m

/-- The number of fields if they are not the master fields, the fields and values, and how many
elements they and the four in front of them are. -/
def elems (m : Nat) : StreamFields → List ListPackElem
  | own pairs => .int pairs.length ::
      (pairs.flatMap (fun p => [p.1, p.2]) ++ [.int (4 + 2 * pairs.length)])
  | same values => values ++ [.int (3 + m)]

/-- The number of fields. -/
def count (m : Nat) : StreamFields → Nat
  | own pairs => pairs.length
  | same _ => m

/-- The elements behind the number of fields. -/
def body (m : Nat) : StreamFields → List ListPackElem
  | own pairs => pairs.flatMap (fun p => [p.1, p.2]) ++ [.int (4 + 2 * pairs.length)]
  | same values => values ++ [.int (3 + m)]

/-- The fields, each with its value. -/
def pairs (master : List ListPackElem) : StreamFields → List (ListPackElem × ListPackElem)
  | own pairs => pairs
  | same values => master.zip values

/-- Pairs one behind the other are two elements each. -/
theorem length_pairs (ps : List (ListPackElem × ListPackElem)) :
    (ps.flatMap fun p => [p.1, p.2]).length = 2 * ps.length := by
  induction ps with
  | nil => rfl
  | cons p ps ih =>
    rw [List.flatMap_cons, List.length_append, ih, List.length_cons, List.length_cons, List.length_cons,
      List.length_nil]
    omega

/-- There are no more fields than elements. -/
theorem count_le {m : Nat} {f : StreamFields} (hfits : f.Fits m) : f.count m ≤ (f.elems m).length := by
  cases f with
  | own ps =>
    rw [count, elems, List.length_cons, List.length_append, length_pairs]
    omega
  | same values =>
    rw [Fits] at hfits
    rw [count, elems, List.length_append]
    omega

end StreamFields

/-- An entry of a stream: its flags, the differences of its id, its fields and values. -/
structure StreamItem where
  flags : Nat
  ms : Nat
  ser : Nat
  fields : StreamFields
  hflags : flags < 2 ^ 32
  hsame : flags &&& RDB_STREAM_ENTRY_SAMEFIELDS ≠ 0 ↔ fields.is_same = true

namespace StreamItem

/-- An entry with the master fields. -/
def of_same (ms ser : Nat) (values : List ListPackElem) : StreamItem :=
  ⟨2, ms, ser, .same values, by decide, iff_of_true (by decide) rfl⟩

/-- An entry with fields of its own. -/
def of_own (ms ser : Nat) (pairs : List (ListPackElem × ListPackElem)) : StreamItem :=
  ⟨0, ms, ser, .own pairs, by decide, iff_of_false (by decide) (by simp [StreamFields.is_same])⟩

/-- A deleted entry with the master fields. -/
def of_deleted (ms ser : Nat) (values : List ListPackElem) : StreamItem :=
  ⟨3, ms, ser, .same values, by decide, iff_of_true (by decide) rfl⟩

def elems (m : Nat) (x : StreamItem) : List ListPackElem :=
  .int x.flags :: .int x.ms :: .int x.ser :: x.fields.elems m

def live (x : StreamItem) : Bool := x.flags &&& RDB_STREAM_ENTRY_DELETED = 0

/-- The fields and values as they are handed out. -/
def pairs (master : List ListPackElem) (x : StreamItem) : List (RdbVal × RdbVal) :=
  (x.fields.pairs master).map fun p => (p.1.val, p.2.val)

end StreamItem

/-- A listpack of a stream: what its header counts, the master fields and what ends them, and its
entries. -/
structure StreamBlock where
  items_count : Nat
  deleted_count : Nat
  master : List ListPackElem
  term : ListPackElem
  items : List StreamItem
  fits : ∀ x ∈ items, x.fields.Fits master.length

def StreamBlock.elems (p : StreamBlock) : List ListPackElem :=
  .int p.items_count :: .int p.deleted_count :: .int p.master.length ::
    (p.master ++ p.term :: p.items.flatMap (StreamItem.elems p.master.length))

/-- The header counts the entries that are not deleted and those that are. -/
def StreamBlock.Counted (p : StreamBlock) : Prop :=
  p.items_count = (p.items.filter StreamItem.live).length ∧
    p.deleted_count = (p.items.filter fun x => !x.live).length

/-- The bytes of a listpack in which the elements `xs` are found. -/
def Packs (text : List UInt8) (xs : List ListPackElem) : Prop :=
  ∃ list, RdbListPack.init (.lit text) text.length = some list ∧ list.lpbytes ≤ text.length ∧
    list.Ahead list.start xs

/-- A blob that is no listpack, or one that is no larger than the blob. -/
def Bounded (text : List UInt8) : Prop :=
  ∀ list, RdbListPack.init (.lit text) text.length = some list → list.lpbytes ≤ text.length

instance (text : List UInt8) : Decidable (Bounded text) :=
  inferInstanceAs (Decidable (∀ list ∈ RdbListPack.init (.lit text) text.length, list.lpbytes ≤ text.length))

/-- A node of a stream, of which no more is known than that its id and its listpack are within their
blobs. -/
structure StreamChunk (E : Env) where
  key : Blob E
  lp : Blob E
  hkey : 128 / 8 ≤ key.str.text.length
  hlp : Bounded lp.str.text

namespace StreamChunk

variable {E : Env}

def bytes (n : StreamChunk E) : List UInt8 := n.key.str.bytes ++ n.lp.str.bytes

def id (n : StreamChunk E) : RdbStreamRecId :=
  ⟨be_nat (n.key.str.text.take 8), be_nat ((n.key.str.text.drop 8).take 8)⟩

end StreamChunk

/-- A node of a stream: its id and its listpack. -/
structure StreamNode (E : Env) where
  key : Blob E
  lp : Blob E
  block : StreamBlock
  hkey : key.str.text.length = 128 / 8
  hlp : Packs lp.str.text block.elems

namespace StreamNode

variable {E : Env}

def bytes (n : StreamNode E) : List UInt8 := n.key.str.bytes ++ n.lp.str.bytes

def id (n : StreamNode E) : RdbStreamRecId :=
  ⟨be_nat (n.key.str.text.take 8), be_nat ((n.key.str.text.drop 8).take 8)⟩

def chunk (n : StreamNode E) : StreamChunk E where
  key := n.key
  lp := n.lp
  hkey := Nat.le_of_eq n.hkey.symm
  hlp := by
    obtain ⟨list, hinit, hle, -⟩ := n.hlp
    intro list' hinit'
    rwa [← Option.some.inj (hinit.symm.trans hinit')]

/-- The entries that are not deleted, each with its node. -/
def live_items (nodes : List (StreamNode E)) : List (StreamNode E × StreamItem) :=
  nodes.flatMap fun n => (n.block.items.filter StreamItem.live).map (n, ·)

/-- The callback that hands out an entry. -/
def call (num : Nat) (y : StreamNode E × StreamItem) : Callback :=
  .d_stream_entry num 0 y.1.id ⟨y.2.ms, y.2.ser⟩ y.2.flags (y.2.pairs y.1.block.master)

end StreamNode

end rdbparser.format
