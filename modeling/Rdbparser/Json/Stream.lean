import Rdbparser.Json.Says

/-! What the callbacks of a stream say in JSON. -/

namespace rdbparser

open format JsonText JsonString

variable {E : Env} {fmt : Nat → List UInt8}

namespace format

/-- A list of a stream as a member of what it belongs to, if there is anything in it. -/
def listed_member (part : StreamPart) (xs : List Json) : List (List UInt8 × Json) :=
  if xs.isEmpty then [] else [(part.list_name, .arr xs)]

def StreamPend.json (p : StreamPend) : Json :=
  .obj [(ascii "id", p.id.id.json), (ascii "last_d", .num (decimal p.last_delivery)),
    (ascii "d_cnt", .num (decimal p.delivery_cnt.val))]

def StreamCons.json (c : StreamCons E) : Json :=
  .obj ([(ascii "name", .str c.name.str.val.bytes), (ascii "pending", .num (decimal c.pend_cnt.val)),
    (ascii "last_seen", .num (decimal c.last_seen))] ++
      listed_member .STREAM_CONSUMER_PENDING_LIST (c.pending.map fun x => x.id.json))

def StreamGroup.json (g : StreamGroup E) : Json :=
  .obj ([(ascii "group", .str g.name.str.val.bytes), (ascii "pending", .num (decimal g.pend_cnt.val)),
    (ascii "last_id", RdbStreamRecId.json ⟨g.last_ms.val, g.last_ser.val⟩)] ++
      listed_member .STREAM_PENDING_LIST (g.pending.map StreamPend.json) ++
      listed_member .STREAM_CONSUMER_LIST (g.consumers.map StreamCons.json))

/-- What is said of a stream behind its entries. -/
def StreamTrailer.members (x : StreamTrailer E) : List (List UInt8 × Json) :=
  [(ascii "last_id", RdbStreamRecId.json ⟨x.last_ms.val, x.last_ser.val⟩),
    (ascii "num_elems", .num (decimal x.elems.val)),
    (ascii "num_cgroups", .num (decimal x.group_cnt.val))] ++
      listed_member .STREAM_GROUP_LIST (x.groups.map StreamGroup.json)

/-- An entry: its id is that of its node and the differences to it. -/
def StreamNode.entry_json (y : StreamNode E × StreamItem) : Json :=
  .obj ((ascii "id", RdbStreamRecId.json ⟨(y.1.id.ms + y.2.ms) % 2 ^ 64, (y.1.id.ser + y.2.ser) % 2 ^ 64⟩) ::
    (y.2.pairs y.1.block.master).map fun f => (f.1.field_name, f.2.lval_json))

def StreamValue.json (v : StreamValue E) : Json :=
  .obj (listed_member .STREAM_ENTRY_LIST ((StreamNode.live_items v.nodes).map StreamNode.entry_json) ++
    v.trailer.members)

/-- Every entry has fields, and these and the names of groups and consumers can be printed as they are. -/
def StreamValue.Writable (v : StreamValue E) : Prop :=
  (∀ y ∈ StreamNode.live_items v.nodes, y.2.pairs y.1.block.master ≠ [] ∧
      ∀ f ∈ y.2.pairs y.1.block.master, f.1.PlainVal ∧ f.2.PlainVal) ∧
    ∀ g ∈ v.trailer.groups, g.name.str.val.PlainStr ∧ ∀ c ∈ g.consumers, c.name.str.val.PlainStr

end format

/-- A list is put in what it belongs to. -/
theorem puts_listed (part : StreamPart) {cnt : Nat} {calls : List Callback} {xs : List Json} (hcnt : cnt = xs.length)
    (h : ∀ fs, Callback.puts fmt false calls (.arr fs []) = some (.arr fs xs)) (fs : List Frame)
    (ms : List (List UInt8 × Json)) :
    Callback.puts fmt false (listed part cnt calls) (.obj fs ms) = some (.obj fs (ms ++ listed_member part xs)) := by
  cases xs with
  | nil =>
    rw [hcnt, listed, if_pos List.length_nil, listed_member, List.isEmpty_nil, if_pos rfl, List.append_nil]
    rfl
  | cons x xs =>
    have hstart : (Callback.d_stream_start part).put fmt false (.obj fs ms) =
        some (.arr (.obj ms part.list_name :: fs) []) := rfl
    rw [hcnt, listed, if_neg (show ¬ (x :: xs).length = 0 from Nat.succ_ne_zero _), puts_cons, hstart,
      Option.bind_some, puts_append, h, Option.bind_some]
    rfl

/-- Parts that are put in an array one after the other, with several callbacks each. -/
theorem puts_each (fmt : Nat → List UInt8) {α : Type} {f : Nat → α → List Callback} {g : α → Json}
    (h : ∀ i x fs ys, Callback.puts fmt false (f i x) (.arr fs ys) = some (.arr fs (ys ++ [g x]))) (xs : List α)
    (fs : List Frame) (ys : List Json) :
    Callback.puts fmt false (xs.mapIdx f).flatten (.arr fs ys) = some (.arr fs (ys ++ xs.map g)) := by
  induction xs generalizing f ys with
  | nil => rw [List.map_nil, List.append_nil]; rfl
  | cons x xs ih =>
    rw [List.mapIdx_cons, List.flatten_cons, puts_append, h, Option.bind_some, ih fun i => h (i + 1), List.append_assoc]
    rfl

/-- The parts that have a callback of their own. -/
theorem puts_parts (fmt : Nat → List UInt8) {α : Type} {f : Nat → α → Callback} {g : α → Json}
    (h : ∀ i x (p : Pos), (f i x).put fmt false p = p.elem (g x))
    (xs : List α) (fs : List Frame) : Callback.puts fmt false (xs.mapIdx f) (.arr fs []) = some (.arr fs (xs.map g)) :=
  puts_elems (forall₂_mapIdx fun i x _ => h i x) fs []

theorem puts_cons_calls (cnt num : Nat) (c : StreamCons E) (fs : List Frame) (ys : List Json) :
    Callback.puts fmt false (c.calls cnt num) (.arr fs ys) = some (.arr fs (ys ++ [c.json])) := by
  have hpel := puts_parts fmt (f := fun i (x : StreamId) => .d_stream_cons_pend i c.pend_cnt.val x.id)
    (g := fun x => x.id.json) (fun _ _ _ => rfl) c.pending
  have hlist := puts_listed .STREAM_CONSUMER_PENDING_LIST (c.hpend.trans (List.length_map _).symm) hpel
  rw [StreamCons.calls, puts_cons, Callback.put]
  exact (puts_append _ _ _).trans (by rw [hlist]; rfl)

/-- The calls of a group add the object that it is to the list of groups. -/
theorem puts_group_calls (cnt num : Nat) (g : StreamGroup E) (fs : List Frame) (ys : List Json) :
    Callback.puts fmt false (g.calls cnt num) (.arr fs ys) = some (.arr fs (ys ++ [g.json])) := by
  have hpel := puts_parts fmt (f := StreamPend.call g.pend_cnt.val) (g := StreamPend.json) (fun _ _ _ => rfl) g.pending
  have hlist := puts_listed .STREAM_PENDING_LIST (g.hpend.trans (List.length_map _).symm) hpel
  have hcons := fun fs => puts_each fmt (fun i c => puts_cons_calls g.cons_cnt.val i c) g.consumers fs []
  have hconsumers := puts_listed .STREAM_CONSUMER_LIST (g.hcons.trans (List.length_map _).symm) hcons
  rw [StreamGroup.calls, puts_cons, Callback.put]
  refine (puts_append _ _ _).trans ?_
  rw [hlist, Option.bind_some, puts_append, hconsumers]
  rfl

namespace format

/-- The entries are a list like the others. -/
theorem StreamValue.calls_eq (v : StreamValue E) :
    v.calls = listed .STREAM_ENTRY_LIST (StreamNode.live_items v.nodes).length
        ((StreamNode.live_items v.nodes).mapIdx StreamNode.call) ++
      .d_stream_info ⟨v.trailer.last_ms.val, v.trailer.last_ser.val⟩ v.trailer.elems.val v.trailer.group_cnt.val
        (StreamNode.live_items v.nodes).length ::
      listed .STREAM_GROUP_LIST v.trailer.group_cnt.val
        (v.trailer.groups.mapIdx (StreamGroup.calls v.trailer.group_cnt.val)).flatten := by
  rw [StreamValue.calls, StreamTrailer.parts_of]
  cases StreamNode.live_items v.nodes with
  | nil => rfl
  | cons y ys =>
    have hne : ¬ (y :: ys).length = 0 := Nat.succ_ne_zero _
    rw [listed.eq_def .STREAM_ENTRY_LIST, if_neg hne, if_pos hne, List.mapIdx_cons, entry_list_cons]
    simp only [if_true, List.cons_append, List.nil_append, List.append_assoc]

theorem StreamTrailer.type_eq (x : StreamTrailer E) : x.type.in_text = false ∧ x.type.in_arr = false := by
  rw [StreamTrailer.type]
  cases x.more <;> exact ⟨rfl, rfl⟩

instance : Says E (StreamValue E) where
  json _ := StreamValue.json
  Writable _ := StreamValue.Writable
  puts_key fmt key v ms := by
    have hentries := puts_parts fmt (f := StreamNode.call) (g := StreamNode.entry_json) (fun _ _ _ => rfl)
      (StreamNode.live_items v.nodes)
    have hgroups := fun fs => puts_each fmt (fun i g => puts_group_calls v.trailer.group_cnt.val i g)
      v.trailer.groups fs []
    have hlist := puts_listed .STREAM_GROUP_LIST (v.trailer.hgroups.trans (List.length_map _).symm) hgroups
    have hcalls : ∀ fs, Callback.puts fmt false v.calls (.obj fs []) = some (.obj fs
        (listed_member .STREAM_ENTRY_LIST ((StreamNode.live_items v.nodes).map StreamNode.entry_json) ++
          v.trailer.members)) := by
      intro fs
      rw [v.calls_eq, puts_append, puts_listed .STREAM_ENTRY_LIST (List.length_map _).symm hentries,
        Option.bind_some, puts_cons]
      refine (hlist fs _).trans ?_
      rw [StreamTrailer.members]
      simp
    obtain ⟨htext, harr⟩ := v.trailer.type_eq
    have hstart : (Callback.d_start_key v.trailer.type key).put fmt false (.obj [] ms) =
        some (.obj [.obj ms (key.key_name fmt v.trailer.type.type_name)] []) := by
      rw [Callback.put, htext, harr]
      rfl
    refine (puts_cons _ _ _).trans ?_
    change Option.bind ((Callback.d_start_key v.trailer.type key).put fmt false (.obj [] ms)) _ = _
    rw [hstart]
    exact puts_record htext hcalls ms _
  writable_calls fmt v h := by
    obtain ⟨hentries, hgroups⟩ := h
    change ∀ c ∈ v.calls, c.Writable fmt false
    rw [StreamValue.calls, List.forall_mem_append]
    exact ⟨forall_entry_list trivial (forall_mapIdx fun _ y hy => hentries y hy),
      v.trailer.forall_parts (fun _ => trivial)
      (fun _ => trivial) (fun _ _ _ _ => trivial) (fun _ _ _ _ _ => trivial) (fun _ _ _ => trivial)
      (fun g hg _ _ _ _ => (hgroups g hg).1) (fun g hg c hc _ _ _ _ => (hgroups g hg).2 c hc) _ _⟩
  one_first fmt v _ := by
    refine one_first_none ?_
    change ∀ c ∈ v.calls, c.first_elem = false
    rw [StreamValue.calls, List.forall_mem_append]
    exact ⟨forall_entry_list rfl (forall_mapIdx fun _ _ _ => rfl), v.trailer.forall_parts (fun _ => rfl) (fun _ => rfl)
      (fun _ _ _ _ => rfl) (fun _ _ _ _ _ => rfl) (fun _ _ _ => rfl) (fun _ _ _ _ _ _ => rfl)
      (fun _ _ _ _ _ _ _ _ => rfl) _ _⟩

end format

end rdbparser
