import Rdbparser.ListPack.Inside
import Rdbparser.Stream
import Rdbparser.ZipList.Inside

/-! Which bytes of the blobs that decoders are given are read. -/

namespace rdbparser

namespace RdbDecode

open DecodeProc

variable {E : Env} {s : St}

/-- What `rec_id` reads. -/
def rec_id_reads : List Nat := List.range 16

/-- Bytes elsewhere do not matter to what `rec_id` finds. -/
theorem rec_id_congr {b c : Ptr} (h : ∀ i ∈ rec_id_reads, c.mem i = b.mem i) : rec_id c = rec_id b := by
  have hall : ∀ i < 8 + 8, c.mem i = b.mem i := fun i hi => h i (List.mem_range.mpr hi)
  rw [rec_id, rec_id, Mem.take_congr fun i hi => hall i (by omega), Mem.take_congr (Mem.add_congr hall)]

/-- The node loop has as many nodes to go in this state. -/
inductive AtNode (E : Env) (s : St) : Nat → RdbStreamEntry → St → Prop
  | first {t : St} {o : List Event} (hstart : start_key s = ⟨.ok (), t, o⟩) : AtNode E s t.dec.rlen.len {} t
  | next {n : Nat} {e e' : RdbStreamEntry} {t t' : St} {o : List Event} (hat : AtNode E s (n + 1) e t)
      (hnode : stream_node E e t = ⟨.ok e', t', o⟩) : AtNode E s n e' t'

/-- The key of a node is consumed. -/
def KeyRead (E : Env) (t : St) (k : RdbLength) (b : Ptr) : Prop :=
  ∃ t₁ o₁ t₂ o₂, decode {} t = ⟨.ok k, t₁, o₁⟩ ∧ consume E k t₁ = ⟨.ok b, t₂, o₂⟩

/-- The ids of nodes are read from inside their keys, and from nowhere else. -/
def IdsInside (E : Env) (s : St) : Prop :=
  ∀ n e t k b, AtNode E s (n + 1) e t → KeyRead E t k b → (∀ i ∈ rec_id_reads, i < k.len) ∧
    ∀ c : Ptr, (∀ i ∈ rec_id_reads, c.mem i = b.mem i) → rec_id c = rec_id b

/-- The keys of nodes have the size of an id. -/
def KeysHold (E : Env) (s : St) : Prop := ∀ n e t k b, AtNode E s (n + 1) e t → KeyRead E t k b → 16 ≤ k.len

/-- The reads of the record id that a node starts with stay inside of its string if and only if the string has the
bytes of one. -/
theorem ids_inside_iff (E : Env) (s : St) : IdsInside E s ↔ KeysHold E s := by
  have hall : ∀ k : RdbLength, (∀ i ∈ rec_id_reads, i < k.len) ↔ 16 ≤ k.len := by
    intro k
    constructor
    · intro h
      exact h 15 (by decide)
    · intro h i hi
      have hlt := List.mem_range.mp hi
      omega
  constructor
  · intro h n e t k b hat hkey
    exact (hall k).mp (h n e t k b hat hkey).1
  · intro h n e t k b hat hkey
    exact ⟨(hall k).mpr (h n e t k b hat hkey), fun _ => rec_id_congr⟩

end RdbDecode

open RdbDecode

/-- Lists are read in the blobs they are given with, and the ids of nodes in their keys, when the end that a
header announces is in the blob or the blob holds what ends the walk before, and when a key has the size of an
id. -/
theorem blobs_inside_iff (b : Ptr) (sz : Nat) (n : UInt32) (E : Env) (s : St) :
    (RdbZipList.Inside b sz ↔ ∀ z, RdbZipList.init b sz = some z → z.zlbytes ≤ sz ∨ z.Closed sz z.data) ∧
    (RdbListPack.Inside b sz ↔ ∀ l, RdbListPack.init b sz = some l → l.lpbytes ≤ sz ∨ l.Closed sz l.data) ∧
    ((∀ b : Ptr, le_nat (b.mem.take 4) = n.toNat → RdbZipList.Inside b sz) ↔ sz < 10 ∨ n.toNat < 11 ∨ n.toNat ≤ sz) ∧
    ((∀ b : Ptr, le_nat (b.mem.take 4) = n.toNat → RdbListPack.Inside b sz) ↔ sz < 6 ∨ n.toNat < 7 ∨ n.toNat ≤ sz) ∧
    (IdsInside E s ↔ KeysHold E s) :=
  ⟨RdbZipList.inside_iff b sz, RdbListPack.inside_iff b sz, RdbZipList.all_inside_iff sz n.toNat n.toNat_lt,
    RdbListPack.all_inside_iff sz n.toNat n.toNat_lt, ids_inside_iff E s⟩

/-- A zip list of ten bytes that says it has eleven. -/
theorem blobs_outside : ¬ ((∀ b sz, RdbZipList.Inside b sz) ∧ (∀ b sz, RdbListPack.Inside b sz) ∧
      ∀ E s, IdsInside E s) := by
  rintro ⟨h, -, -⟩
  have hread := ((h (.lit [11, 0, 0, 0, 10, 0, 0, 0, 0, 0, 0xff]) 10).walk _ rfl 0).reads 10 (by decide +kernel)
  exact Nat.lt_irrefl 10 hread

end rdbparser
