import Rdbparser.Decode.Intset
import Rdbparser.Format.Stored
import Rdbparser.ListPack.Read
import Rdbparser.ZipList.Codes

/-! Quicklists, whose elements are in nodes. -/

namespace rdbparser

/-- The text of a zip list, and the elements found in it. -/
def RdbZipList.Holds (text : List UInt8) (vs : List ListPackElem) : Prop :=
  ∀ b : Ptr, b.mem.Starts text → ∃ z, RdbZipList.init b text.length = some z ∧ z.walk.Finds (fun _ => True) z.start vs

/-- The text of a list pack, and the elements found in it. -/
def RdbListPack.Holds (text : List UInt8) (vs : List ListPackElem) : Prop :=
  ∀ b : Ptr, b.mem.Starts text → ∃ l, RdbListPack.init b text.length = some l ∧ l.walk.Finds (fun _ => True) l.start vs

/-- A zip list holds its entries. -/
theorem RdbZipList.holds_layout (l : format.ZipList) :
    RdbZipList.Holds l.bytes (l.entries.map fun e => e.item.elem) := by
  intro b hb
  obtain ⟨z, hinit, -, hyields⟩ := ziplist_yields l hb
  refine ⟨z, hinit, _, ?_, hyields.stops fun _ => trivial⟩
  rw [List.map_map]
  rfl

namespace format

/-- A node of a quicklist: a list in a string, with at least one element. -/
structure QuickNode (E : Env) (Holds : List UInt8 → List ListPackElem → Prop) where
  blob : Blob E
  elems : List ListPackElem
  not_empty : elems ≠ []
  holds : Holds blob.str.text elems

/-- The two forms of a quicklist; a node of the second one says that it is packed. -/
inductive QuickList (E : Env)
  | ziplists (nodes : List (QuickNode E RdbZipList.Holds))
  | listpacks (nodes : List ({ n : StoredLen // n.val = 2 } × QuickNode E RdbListPack.Holds))

namespace QuickList

variable {E : Env}

def type : QuickList E → RdbType
  | ziplists _ => .RDB_LIST_QUICKLIST
  | listpacks _ => .RDB_LIST_QUICKLIST_2

def bytes : QuickList E → List UInt8
  | ziplists nodes => nodes.flatMap fun x => x.blob.str.bytes
  | listpacks nodes => nodes.flatMap fun x => x.1.1.bytes ++ x.2.blob.str.bytes

/-- The elements of each node. -/
def elems : QuickList E → List (List ListPackElem)
  | ziplists nodes => nodes.map QuickNode.elems
  | listpacks nodes => nodes.map fun x => x.2.elems

/-- Each node has an element, so that each moves the number on by one less. -/
theorem not_empty (l : QuickList E) : ∀ vs ∈ l.elems, vs ≠ [] := by
  cases l with
  | ziplists nodes =>
    intro vs hvs
    obtain ⟨x, -, rfl⟩ := List.mem_map.mp hvs
    exact x.not_empty
  | listpacks nodes =>
    intro vs hvs
    obtain ⟨x, -, rfl⟩ := List.mem_map.mp hvs
    exact x.2.not_empty

end QuickList

end format

open format RdbDecode DecodeProc

/-- The calls for the elements of a node. -/
def node_calls (num : Nat) (vs : List ListPackElem) : List Callback := vs.mapIdx fun i v => .d_list (num + i) 0 v.val

/-- The number the next node starts with, that of the last element of this one. -/
def node_num (num : Nat) (vs : List ListPackElem) : Nat := num + (vs.length - 1)

/-- The calls for the elements of all the nodes. -/
def quick_calls : Nat → List (List ListPackElem) → List Callback
  | _, [] => []
  | num, vs :: nodes => node_calls num vs ++ quick_calls (node_num num vs) nodes

namespace Reads

variable {E : Env} {α β : Type} {P : RdbBufptr → Place → Prop}

/-- A loop that hands a value from one turn to the next reads one part in each. -/
theorem times {f : β → DecodeProc β} {bytes : α → List UInt8} {calls : β → α → List Callback} {go : β → α → β}
    (all : β → List α → List Callback) (hnil : ∀ b, all b [] = []) (hcons : ∀ b x xs,
      all b (x :: xs) = calls b x ++ all (go b x) xs)
    (hf : ∀ b x, Reads P (f b) (bytes x) (calls b x) fun b' p c => P p c ∧ b' = go b x) (xs : List α) (b : β) :
    Reads P (Proc.times xs.length f b) (xs.flatMap bytes) (all b xs) fun _ => P := by
  induction xs generalizing b with
  | nil =>
    rw [hnil]
    exact value fun _ _ h => h
  | cons x xs ih =>
    rw [List.flatMap_cons, hcons]
    refine (hf b x).bind fun b' => of_fact fun hb' => ?_
    rw [hb']
    exact ih (go b x)

section node

variable {w : Walk RdbListValue ListPackElem} {base : Ptr} {start : RdbListValue} {limit : Nat}

/-- The elements of a node are handed out from the number it starts with. -/
theorem node_elems (hval : ∀ lval, (decode_lval base lval).val = (w.found lval).val)
    (hstep : ∀ s t, 0 < w.pos s → w.next s = (true, t) → w.pos s < w.pos t ∧ w.pos t ≤ limit) (hstart : 0 < w.pos start)
    {stop : Nat → Prop} {vs : List ListPackElem} (hvs : vs ≠ []) (h : w.Finds stop start vs) (num : Nat) :
    Reads P (if (w.next start).1 = true then list_loop w.next base 0 limit num (w.next start).2 else Pure.pure num) []
      (node_calls num vs) fun n b c => P b c ∧ n = node_num num vs := by
  obtain ⟨v, vs, rfl⟩ := List.exists_cons_of_ne_nil hvs
  have hlen : vs.length < limit := by
    have hall := (h.length_le hstep hstart).resolve_left hvs
    rw [List.length_cons] at hall
    omega
  obtain ⟨t, hnext, rfl, hrest⟩ := h.cons
  rw [hnext]
  dsimp only
  rw [if_pos rfl]
  intro s c d rest hs _ hd
  obtain ⟨o, hrun, ho⟩ := list_loop_run hval 0 hrest hlen num hd
  refine ⟨_, s.bptr, o, hrun, ⟨hs, rfl⟩, ?_⟩
  rw [ho, node_calls, map_mapIdx]

end node

theorem length_eq {x : StoredStr E} (hx : x.is_int = false) : (RdbLength.ofHeader x.hdr).len = x.text.length := by
  cases x with
  | raw len text hlen => exact hlen
  | int => contradiction
  | lzf zlen len z text hzlen hlen => exact hlen

/-- A node whose list holds `x.elems`: they are handed out from `num` on, and the number goes on by one less than
there are of them if there is any, as the loop is left before it counts the last. -/
theorem decode_quicklist_node (x : QuickNode E RdbZipList.Holds) (num : Nat) :
    Reads RdbBufptr.At (RdbDecode.decode_quicklist_node E num) x.blob.str.bytes (node_calls num x.elems)
      fun n b c => b.At c ∧ n = node_num num x.elems := by
  have hlen := length_eq x.blob.not_int
  refine (decode x.blob.str.hdr).bind fun l => of_fact fun hl => ?_
  subst hl
  refine ((consume x.blob.str x.blob.not_int).mono (fun _ _ h => h) fun _ _ _ h => ⟨h.1.at, h.2⟩).bind_call fun p =>
    of_fact fun hp => ?_
  obtain ⟨z, hinit, hfinds⟩ := x.holds p hp
  obtain ⟨rfl, hdata, hend⟩ := RdbZipList.init_some hinit
  have hstart : 0 < z.walk.pos z.start := by
    change 0 < z.data
    omega
  rw [hlen, hinit]
  exact node_elems z.decode_lval_elem (fun s t hpos hnext => hend ▸ RdbZipList.next_bounds hend hpos hnext) hstart
    x.not_empty hfinds num

/-- The same for a node of the second form, in the packed container. -/
theorem decode_quicklist_2_node (x : { n : StoredLen // n.val = 2 } × QuickNode E RdbListPack.Holds) (num : Nat) :
    Reads RdbBufptr.At (RdbDecode.decode_quicklist_2_node E num) (x.1.1.bytes ++ x.2.blob.str.bytes)
      (node_calls num x.2.elems)
      fun n b c => b.At c ∧ n = node_num num x.2.elems := by
  have hlen := length_eq x.2.blob.not_int
  refine ((decode (.plain x.1.1)).mono (fun _ _ h => h) fun _ _ _ h => ⟨RdbBufptr.At.main h.1, h.2⟩).bind
    fun container => of_fact fun hc => ?_
  refine (decode x.2.blob.str.hdr).bind fun l => of_fact fun hl => ?_
  subst hl
  refine ((consume x.2.blob.str x.2.blob.not_int).mono (fun _ _ h => h) fun _ _ _ h => ⟨h.1.at, h.2⟩).bind_call
    fun p => of_fact fun hp => ?_
  have hpacked : container.len = 2 := by
    rw [hc]
    exact x.1.2
  obtain ⟨l, hinit, hfinds⟩ := x.2.holds p hp
  obtain ⟨rfl, hdata, hend, -⟩ := RdbListPack.init_some hinit
  have hstart : 0 < l.walk.pos l.start := by
    change 0 < l.data
    omega
  have hstep : ∀ s t, 0 < l.walk.pos s → l.walk.next s = (true, t) →
      l.walk.pos s < l.walk.pos t ∧ l.walk.pos t ≤ l.lpbytes := by
    intro s t hpos hnext
    obtain ⟨hentry, hpos', hle⟩ := RdbListPack.next_bounds hend hpos hnext
    change s.entry + s.entry_len < t.entry + t.entry_len ∧ t.entry + t.entry_len ≤ _
    omega
  rw [if_pos hpacked, hlen, hinit]
  exact node_elems l.decode_lval_elem hstep hstart x.2.not_empty hfinds num

end Reads

namespace RdbDecode

variable {E : Env} {s : St} {c : Place} {rest : List UInt8}

/-- A loop over nodes between the start and the end of a key. -/
theorem nodes_run {f : Nat → DecodeProc Nat} {bytes : List UInt8} {n : Nat} {calls : List Callback}
    (hf : Reads RdbBufptr.At (Proc.times n f 0) bytes calls fun _ => RdbBufptr.At) (hlen : s.dec.rlen.len = n)
    (hs : s.bptr.At c) (hv : c.Views (bytes ++ rest)) :
    HandsOut (start_key >>= fun _ => Proc.read >>= fun s => Proc.times s.dec.rlen.len f 0 >>=
      fun _ => end_key) s calls := by
  have hquiet : Reads RdbBufptr.At (Proc.times s.dec.rlen.len f 0 >>= fun _ => pure ()) bytes calls fun _ =>
    RdbBufptr.At := by
    rw [hlen]
    have h := hf.bind (R := fun _ => RdbBufptr.At) fun _ => Reads.value (a := ()) fun _ _ h => h
    rwa [List.append_nil, List.append_nil] at h
  obtain ⟨b, o, hrun, -, ho⟩ :=
    framed_run (f := fun t => Proc.times t.dec.rlen.len f 0 >>= fun _ => pure ()) hquiet hs hv
  simp only [Proc.bind_assoc, Proc.pure_bind] at hrun
  exact ⟨_, o, hrun, ho⟩

/-- The elements of a quicklist are handed out, those of a node from the number of the last element before it. -/
theorem decode_quicklist_run (l : QuickList E) (htype : s.dec.type = l.type) (hlen : s.dec.rlen.len = l.elems.length)
    (hs : s.bptr.At c) (hv : c.Views (l.bytes ++ rest)) : HandsOut (decode_body E) s (quick_calls 0 l.elems) := by
  suffices h : HandsOut (decode_type E s.dec.type) s (quick_calls 0 l.elems) by
    obtain ⟨t, o, hrun, ho⟩ := h
    exact ⟨t, o, by rw [decode_body, Proc.read_bind_run, hrun], ho⟩
  rw [htype]
  cases l with
  | ziplists nodes =>
    rw [QuickList.elems, List.length_map] at hlen
    refine nodes_run ?_ hlen hs hv
    exact Reads.times (fun num nodes => quick_calls num (nodes.map QuickNode.elems)) (fun _ => rfl) (fun _ _ _ => rfl)
      (fun num x => Reads.decode_quicklist_node x num) nodes 0
  | listpacks nodes =>
    rw [QuickList.elems, List.length_map] at hlen
    refine nodes_run ?_ hlen hs hv
    exact Reads.times (fun num nodes => quick_calls num (nodes.map fun x => x.2.elems))
      (fun _ => rfl) (fun _ _ _ => rfl)
      (fun num x => Reads.decode_quicklist_2_node x num) nodes 0

end RdbDecode

/-- The number goes on with that of the last element of a node, so it is right in the first node only. -/
theorem quick_calls_iff {nodes : List (List ListPackElem)} (hne : ∀ vs ∈ nodes, vs ≠ []) :
    quick_calls 0 nodes = nodes.flatten.mapIdx (fun k v => .d_list k 0 v.val) ↔ nodes.length ≤ 1 := by
  match nodes with
  | [] => exact ⟨fun _ => Nat.zero_le 1, fun _ => rfl⟩
  | [vs] =>
    refine ⟨fun _ => Nat.le_refl 1, fun _ => ?_⟩
    rw [List.flatten_singleton, quick_calls, quick_calls, List.append_nil, node_calls]
    simp only [Nat.zero_add]
  | vs :: ws :: nodes =>
    refine ⟨fun h => ?_, fun h => absurd h (by rw [List.length_cons, List.length_cons]; omega)⟩
    obtain ⟨v, vs, rfl⟩ := List.exists_cons_of_ne_nil (hne vs List.mem_cons_self)
    obtain ⟨w, ws, rfl⟩ := List.exists_cons_of_ne_nil (hne ws (List.mem_cons_of_mem _ List.mem_cons_self))
    -- the first element of the second node
    have hcall := congrArg (·[vs.length + 1]?) h
    have hnum : node_num 0 (v :: vs) = vs.length := Nat.zero_add _
    have hlen : (node_calls 0 (v :: vs)).length = vs.length + 1 := by
      rw [node_calls, List.length_mapIdx, List.length_cons]
    rw [quick_calls, quick_calls, hnum] at hcall
    simp only [List.getElem?_append_right (Nat.le_of_eq hlen), hlen, Nat.sub_self, List.flatten_cons, List.cons_append,
      List.getElem?_mapIdx, List.getElem?_cons_succ, List.getElem?_append_right (Nat.le_refl _)] at hcall
    rw [node_calls] at hcall
    simp at hcall

/-- The elements of a quicklist are numbered through if and only if there is no more than one node. The nodes
may be zip lists or list packs, of any elements and in any number, stored in any form. -/
theorem quicklist_numbers_iff {E : Env} (l : QuickList E) {s : St} {c : Place} {rest : List UInt8}
    (htype : s.dec.type = l.type)
    (hlen : s.dec.rlen.len = l.elems.length) (hs : s.bptr.At c) (hv : c.Views (l.bytes ++ rest)) :
    HandsOut (decode_body E) s (l.elems.flatten.mapIdx fun k v => .d_list k 0 v.val) ↔ l.elems.length ≤ 1 :=
  ((decode_quicklist_run l htype hlen hs hv).iff _).trans (quick_calls_iff l.not_empty)

/-- "a" and 3 -/
def format.ZipList.two : ZipList :=
  ⟨13, 2, [⟨.len8 0 (by decide), .str .len6 [0x61] (by decide)⟩,
    ⟨.len8 3 (by decide), .int .int4 3 ⟨by decide, by decide⟩⟩], by decide⟩

def format.QuickNode.two : QuickNode Env.literal RdbZipList.Holds where
  blob := ⟨.raw ⟨.len6, ZipList.two.bytes.length, by decide⟩ ZipList.two.bytes rfl, rfl⟩
  elems := [.str [0x61], .int 3]
  not_empty := List.cons_ne_nil _ _
  holds := RdbZipList.holds_layout ZipList.two

/-- A decoder in front of the nodes of a quicklist. -/
def St.quick {E : Env} (l : QuickList E) : St :=
  ⟨{ type := l.type, rlen := { len := l.elems.length } },
    RdbBufptr.init ⟨.input, Mem.ofList l.bytes 0, 0⟩ l.bytes.length⟩

theorem St.quick_at {E : Env} (l : QuickList E) :
    (St.quick l).bptr.At ⟨⟨.input, Mem.ofList l.bytes 0, 0⟩, l.bytes.length, 0, 0⟩ :=
  .main ⟨rfl, rfl⟩

theorem quicklist_numbers_one : HandsOut (decode_body Env.literal) (St.quick (.ziplists [QuickNode.two]))
    [.d_list 0 0 (.str [0x61]), .d_list 1 0 (.int 3)] :=
  (quicklist_numbers_iff (.ziplists [QuickNode.two]) rfl rfl (St.quick_at _) (Place.ofList_views_end _ _ _)).mpr
    (Nat.le_refl 1)

/-- The second element of the first node and the first one of the second have the same number. -/
theorem quicklist_numbers_two : ¬ ∀ (E : Env) (l : QuickList E) (s : St) (c : Place) (rest : List UInt8),
    s.dec.type = l.type →
    s.dec.rlen.len = l.elems.length → s.bptr.At c → c.Views (l.bytes ++ rest) →
    HandsOut (decode_body E) s (l.elems.flatten.mapIdx fun k v => .d_list k 0 v.val) := by
  intro h
  have hrun := decode_quicklist_run (.ziplists [QuickNode.two, QuickNode.two]) rfl rfl (St.quick_at _)
    (Place.ofList_views_end _ _ _)
  have hcalls := (hrun.iff _).mp (h Env.literal (.ziplists [QuickNode.two, QuickNode.two]) _ _ _ rfl rfl (St.quick_at _)
    (Place.ofList_views_end _ _ _))
  exact absurd hcalls (by decide)

end rdbparser
