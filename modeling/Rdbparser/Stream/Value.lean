import Rdbparser.Stream.Stored

/-! Whole streams as values of records. -/

namespace rdbparser

open format RdbDecode

variable {E : Env}

namespace format

/-- A stream that the decoder hands out as it is stored: all entries that are not deleted are, the fields and
values of each can be released behind it and the entry destroyed at the end, the two counts of elements agree,
and no consumer has a compressed name. -/
structure StreamValue (E : Env) where
  n : StoredLen
  nodes : List (StreamNode E)
  trailer : StreamTrailer E
  hn : n.val = nodes.length
  counted : ∀ x ∈ nodes, x.block.Counted
  deliverable : Deliverable nodes
  tidy : Tidy nodes
  count : trailer.last_count = trailer.elems.val
  names : ∀ x ∈ trailer.consumer_names, x.is_lzf = false

def StreamValue.stored (v : StreamValue E) : StoredStream E := ⟨v.n, v.nodes, v.trailer, v.hn, v.counted⟩

/-- The entries that are not deleted, in a list if there are any, and what is stored behind them. -/
def StreamValue.calls (v : StreamValue E) : List Callback :=
  entry_list 0 ((StreamNode.live_items v.nodes).mapIdx StreamNode.call) ++
    v.trailer.parts_of (StreamNode.live_items v.nodes).length v.trailer.elems.val

theorem StreamValue.calls_stored (v : StreamValue E) : v.stored.calls = v.calls := by
  have hall : (visits ⟨true, true⟩ v.nodes).1 = StreamNode.live_items v.nodes :=
    (visits_iff v.counted).mpr ⟨fun _ => rfl, v.deliverable⟩
  have hcalls : calls_from 0 (StreamNode.live_items v.nodes) =
      (StreamNode.live_items v.nodes).mapIdx StreamNode.call := by
    simp only [calls_from, Nat.zero_add]
  rw [StoredStream.calls, StreamValue.stored, hall, hcalls, StreamTrailer.parts, v.count, StreamValue.calls]

instance : Encoding E (StreamValue E) where
  type v := Encoding.type v.stored
  type_byte v := Encoding.type_byte v.stored
  head v := Encoding.head v.stored
  plain v := Encoding.plain v.stored
  calls := StreamValue.calls
  get_rdb_type_byte v := Encoding.get_rdb_type_byte v.stored
  type_ne_bad v := Encoding.type_ne_bad v.stored
  get_rdb_meta_byte v := Encoding.get_rdb_meta_byte v.stored
  of_value v := v.calls_stored ▸ Encoding.of_value v.stored

end format

instance : Decodes E (StreamValue E) where
  decode_body_run v s c rest htype hrlen hs hv := by
    have hpass : Passable.passable v.stored := ⟨v.tidy, v.names⟩
    have hrun := Passable.decoded hpass htype hrlen hs hv
    rw [show Encoding.calls v.stored = v.calls from v.calls_stored] at hrun
    exact hrun

end rdbparser
