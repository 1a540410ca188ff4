import Mathlib.Data.List.Forall2
import Rdbparser.Format.Stream
import Rdbparser.Format.StreamBlock

namespace rdbparser.format

variable {E : Env}

/-- The same blob, or the one in which it is compressed. -/
def Blob.Packed (x y : Blob E) : Prop :=
  y = x ∨ (x.str.is_raw = true ∧ y.str.is_lzf = true ∧ y.str.text = x.str.text)

theorem Blob.Packed.text {x y : Blob E} (h : x.Packed y) : y.str.text = x.str.text := by
  rcases h with rfl | ⟨-, -, htext⟩
  · rfl
  · exact htext

/-- A blob is handed out as its text. -/
theorem Blob.val_eq (x : Blob E) : x.str.val = .str x.str.text := by
  obtain ⟨str, hint⟩ := x
  cases str with
  | raw | lzf => rfl
  | int => cases hint

theorem Blob.Packed.val {x y : Blob E} (h : x.Packed y) : y.str.val = x.str.val := by
  rw [x.val_eq, y.val_eq, h.text]

structure StreamChunk.Packed (x y : StreamChunk E) : Prop where
  key : y.key = x.key
  lp : x.lp.Packed y.lp

structure StreamCons.Packed (x y : StreamCons E) : Prop where
  name : x.name.Packed y.name
  last_seen : y.last_seen = x.last_seen
  pend_cnt : y.pend_cnt = x.pend_cnt
  pending : y.pending = x.pending

structure StreamGroup.Packed (x y : StreamGroup E) : Prop where
  name : x.name.Packed y.name
  last_ms : y.last_ms = x.last_ms
  last_ser : y.last_ser = x.last_ser
  entries_read : y.entries_read = x.entries_read
  pend_cnt : y.pend_cnt = x.pend_cnt
  pending : y.pending = x.pending
  cons_cnt : y.cons_cnt = x.cons_cnt
  consumers : List.Forall₂ StreamCons.Packed x.consumers y.consumers

structure StreamTrailer.Packed (x y : StreamTrailer E) : Prop where
  elems : y.elems = x.elems
  last_ms : y.last_ms = x.last_ms
  last_ser : y.last_ser = x.last_ser
  more : y.more = x.more
  group_cnt : y.group_cnt = x.group_cnt
  groups : List.Forall₂ StreamGroup.Packed x.groups y.groups

/-- A stream: its nodes and what follows them. -/
structure StreamBody (E : Env) where
  nodes : List (StreamChunk E)
  trailer : StreamTrailer E

def StreamBody.bytes (x : StreamBody E) : List UInt8 :=
  x.nodes.flatMap StreamChunk.bytes ++ x.trailer.bytes

/-- The same stream with some of its listpacks and of the names of its groups and consumers compressed. -/
structure StreamBody.Packed (x y : StreamBody E) : Prop where
  nodes : List.Forall₂ StreamChunk.Packed x.nodes y.nodes
  trailer : x.trailer.Packed y.trailer

/-- What the callbacks are made of. -/
theorem StreamCons.Packed.calls {x y : StreamCons E} (h : x.Packed y) (cnt num : Nat) :
    y.calls cnt num = x.calls cnt num := by
  rw [StreamCons.calls, StreamCons.calls, h.name.val, h.last_seen, h.pend_cnt, h.pending]

theorem mapIdx_congr {α β : Type} {R : α → α → Prop} {xs ys : List α} (h : List.Forall₂ R xs ys)
    {f : Nat → α → β} (hf : ∀ num x y, R x y → f num y = f num x) : ys.mapIdx f = xs.mapIdx f := by
  induction h generalizing f with
  | nil => rfl
  | cons hxy _ ih =>
    rw [List.mapIdx_cons, List.mapIdx_cons, hf 0 _ _ hxy, ih fun num => hf (num + 1)]

theorem StreamGroup.Packed.calls {x y : StreamGroup E} (h : x.Packed y) (cnt num : Nat) :
    y.calls cnt num = x.calls cnt num := by
  rw [StreamGroup.calls, StreamGroup.calls, h.name.val, h.last_ms, h.last_ser, h.pend_cnt, h.pending, h.cons_cnt,
    mapIdx_congr h.consumers fun num c d hcd => hcd.calls x.cons_cnt.val num]

theorem StreamTrailer.Packed.type {x y : StreamTrailer E} (h : x.Packed y) : y.type = x.type := by
  rw [StreamTrailer.type, StreamTrailer.type, h.more]

theorem StreamTrailer.Packed.last_count {x y : StreamTrailer E} (h : x.Packed y) :
    y.last_count = x.last_count := by
  rw [StreamTrailer.last_count, StreamTrailer.last_count, h.more, h.elems]

/-- There are as many names of consumers, compressed or not. -/
theorem StreamTrailer.Packed.names_length {x y : StreamTrailer E} (h : x.Packed y) :
    y.consumer_names.length = x.consumer_names.length := by
  have hgroups := h.groups
  rw [consumer_names, consumer_names]
  generalize x.groups = xs, y.groups = ys at hgroups
  induction hgroups with
  | nil => rfl
  | cons hg _ ih =>
    rw [List.flatMap_cons, List.flatMap_cons, List.length_append, List.length_append, ih, List.length_map,
      List.length_map, hg.consumers.length_eq]

end rdbparser.format
