import Rdbparser.Format.Packed
import Rdbparser.Json.Whole
import Rdbparser.Stream.Value

/-! What the callbacks of values say in JSON. -/

namespace rdbparser

open format JsonText

variable {E : Env} {fmt : Nat → List UInt8}

section Elements

variable {α : Type} {show_meta : Bool}

theorem puts_nil (p : Pos) : Callback.puts fmt show_meta [] p = some p := rfl

theorem puts_cons (c : Callback) (calls : List Callback) (p : Pos) :
    Callback.puts fmt show_meta (c :: calls) p = (c.put fmt show_meta p).bind (Callback.puts fmt show_meta calls) := by
  rw [Callback.puts, List.foldlM_cons]
  rfl

theorem puts_append (calls calls' : List Callback) (p : Pos) :
    Callback.puts fmt show_meta (calls ++ calls') p =
      (Callback.puts fmt show_meta calls p).bind (Callback.puts fmt show_meta calls') := by
  rw [Callback.puts, List.foldlM_append]
  rfl

/-- Elements that are put in an array one after the other. -/
theorem puts_elems {calls : List Callback} {xs : List Json}
    (h : List.Forall₂ (fun c x => ∀ p : Pos, c.put fmt show_meta p = p.elem x) calls xs)
    (fs : List Frame) (ys : List Json) :
    Callback.puts fmt show_meta calls (.arr fs ys) = some (.arr fs (ys ++ xs)) := by
  induction h generalizing ys with
  | nil => rw [puts_nil, List.append_nil]
  | cons hc _ ih =>
    rw [puts_cons, hc, Pos.elem, Option.bind_some, ih, List.append_assoc]
    rfl

/-- Calls that add a member each add all of them. -/
theorem puts_members {calls : List Callback} {xs : List (List UInt8 × Json)}
    (h : List.Forall₂ (fun c x => ∀ p : Pos, c.put fmt show_meta p = p.member x.1 x.2) calls xs) (fs : List Frame)
    (ms : List (List UInt8 × Json)) :
    Callback.puts fmt show_meta calls (.obj fs ms) = some (.obj fs (ms ++ xs)) := by
  induction h generalizing ms with
  | nil => rw [puts_nil, List.append_nil]
  | cons hc _ ih =>
    rw [puts_cons, hc, Pos.member, Option.bind_some, ih, List.append_assoc]
    rfl

theorem forall₂_mapIdx {β γ : Type} {R : β → γ → Prop} {f : Nat → α → β} {g : α → γ} {xs : List α}
    (h : ∀ i, ∀ x ∈ xs, R (f i x) (g x)) : List.Forall₂ R (xs.mapIdx f) (xs.map g) := by
  induction xs generalizing f with
  | nil => exact .nil
  | cons x xs ih =>
    rw [List.mapIdx_cons, List.map_cons]
    exact .cons (h 0 x List.mem_cons_self) (ih fun i y hy => h (i + 1) y (List.mem_cons_of_mem x hy))

/-- The end of a value that is an array. -/
theorem puts_array {type : RdbType} (htext : type.in_text = false) {calls : List Callback} {xs : List Json}
    (h : List.Forall₂ (fun c x => ∀ p : Pos, c.put fmt show_meta p = p.elem x) calls xs) (ms : List (List UInt8 × Json))
    (n : List UInt8) :
    Callback.puts fmt show_meta (calls ++ [.d_end_key type]) (.arr [.obj ms n] []) =
      some (.obj [] (ms ++ [(n, .arr xs)])) := by
  rw [puts_append, puts_elems h, Option.bind_some, puts_cons, Callback.put, htext]
  rfl

/-- The end of a value that is an object. -/
theorem puts_record {type : RdbType} (htext : type.in_text = false) {calls : List Callback}
    {xs : List (List UInt8 × Json)}
    (h : ∀ fs, Callback.puts fmt show_meta calls (.obj fs []) = some (.obj fs xs)) (ms : List (List UInt8 × Json))
    (n : List UInt8) :
    Callback.puts fmt show_meta (calls ++ [.d_end_key type]) (.obj [.obj ms n] []) =
      some (.obj [] (ms ++ [(n, .obj xs)])) := by
  rw [puts_append, h, Option.bind_some, puts_cons, Callback.put, htext]
  rfl

theorem puts_object {type : RdbType} (htext : type.in_text = false) {f : Nat → α → Callback} {g : α → List UInt8 × Json}
    {xs : List α} (h : ∀ i, ∀ x ∈ xs, ∀ p : Pos, (f i x).put fmt show_meta p = p.member (g x).1 (g x).2)
    (ms : List (List UInt8 × Json)) (n : List UInt8) :
    Callback.puts fmt show_meta (xs.mapIdx f ++ [.d_end_key type]) (.obj [.obj ms n] []) =
      some (.obj [] (ms ++ [(n, .obj (xs.map g))])) :=
  puts_record htext (fun fs => puts_members (forall₂_mapIdx h) fs []) ms n

theorem filter_first_elem {calls : List Callback} (h : ∀ c ∈ calls, c.first_elem = false) :
    calls.filter Callback.first_elem = [] :=
  List.filter_eq_nil_iff.mpr fun c hc => by rw [h c hc]; exact Bool.false_ne_true

theorem one_first_none {calls : List Callback} (h : ∀ c ∈ calls, c.first_elem = false) : Callback.OneFirst calls := by
  rw [Callback.OneFirst, filter_first_elem h]
  exact Nat.zero_le 1

theorem one_first_append {calls rest : List Callback} (h : Callback.OneFirst calls)
    (hrest : ∀ c ∈ rest, c.first_elem = false) :
    Callback.OneFirst (calls ++ rest) := by
  rw [Callback.OneFirst] at h ⊢
  rwa [List.filter_append, filter_first_elem hrest, List.append_nil]

/-- Of elements that are numbered at most the first has the number zero. -/
theorem one_first_mapIdx {f : Nat → α → Callback} (h : ∀ i x, (f (i + 1) x).first_elem = false) (xs : List α) :
    Callback.OneFirst (xs.mapIdx f) := by
  cases xs with
  | nil => exact Nat.zero_le 1
  | cons x xs =>
    rw [List.mapIdx_cons]
    have hone : Callback.OneFirst [f 0 x] := by
      rw [Callback.OneFirst]
      exact List.length_filter_le _ _
    exact one_first_append hone (forall_mapIdx fun i y _ => h i y)

end Elements

namespace format

/-- A kind of values that are printed as JSON: what is said of a value, and when the callbacks that hand it out can be
printed. -/
class Says (E : outParam Env) (V : Type) [Encoding E V] where
  json : (Nat → List UInt8) → V → Json
  Writable : (Nat → List UInt8) → V → Prop
  puts_key : ∀ (fmt : Nat → List UInt8) (key : RdbVal) (v : V) (ms : List (List UInt8 × Json)),
    Callback.puts fmt false (.d_start_key (Encoding.type v) key :: (Encoding.calls v ++ [.d_end_key (Encoding.type v)]))
      (.obj [] ms) = some (.obj [] (ms ++ [(key.key_name fmt (Encoding.type v).type_name, json fmt v)]))
  writable_calls : ∀ (fmt : Nat → List UInt8) (v : V), Writable fmt v → ∀ c ∈ Encoding.calls v, c.Writable fmt false
  one_first : ∀ (fmt : Nat → List UInt8) (v : V), Writable fmt v → Callback.OneFirst (Encoding.calls v)

/-- A value as JSON. -/
def Value.json (fmt : Nat → List UInt8) : Value E → Json
  | .string s => s.val.json fmt
  | .list _ xs _ | .set _ xs _ => .arr (xs.map fun x => x.val.json fmt)
  | .hash _ xs _ => .obj (xs.map fun x => (x.1.val.name, x.2.val.json fmt))

/-- Its strings can be put in JSON, and no field is stored as a number. -/
def Value.Writable (fmt : Nat → List UInt8) : Value E → Prop
  | .string s => s.val.Writable fmt
  | .list _ xs _ | .set _ xs _ => ∀ x ∈ xs, x.val.Writable fmt
  | .hash _ xs _ => ∀ x ∈ xs, x.1.val.NameWritable ∧ x.2.val.Writable fmt

instance : Says E (Value E) where
  json := Value.json
  Writable := Value.Writable
  puts_key fmt key v ms := by
    rw [puts_cons]
    cases v with
    | string s => rfl
    | list n xs hn | set n xs hn => exact puts_array rfl (forall₂_mapIdx fun _ _ _ _ => rfl) ms _
    | hash n xs hn => exact puts_object rfl (fun _ _ _ _ => rfl) ms _
  writable_calls fmt v h c hc := by
    cases v with
    | string s =>
      obtain rfl := List.mem_singleton.mp hc
      exact h
    | list n xs hn | set n xs hn | hash n xs hn =>
      obtain ⟨i, hi, rfl⟩ := List.mem_mapIdx.mp hc
      exact h _ (List.getElem_mem hi)
  one_first fmt v _ := by
    cases v with
    | string s => exact Nat.zero_le 1
    | list n xs hn | set n xs hn | hash n xs hn => exact one_first_mapIdx (fun _ _ => rfl) xs

/-- The members of a sorted set with their scores. -/
def ZSet.scores : ZSet E → List (RdbVal × RdbVal)
  | .zset _ xs _ => xs.map fun x => (x.1.val, x.2.val)
  | .zset_2 _ xs _ => xs.map fun x => (x.1.val, x.2.val)

theorem ZSet.calls_scores (v : ZSet E) :
    ∃ n, v.calls = v.scores.mapIdx fun num x => .d_zset num n x.1 x.2 := by
  cases v with
  | zset n xs hn | zset_2 n xs hn =>
    refine ⟨n.val, ?_⟩
    rw [ZSet.calls, ZSet.scores]
    apply List.ext_getElem <;> simp

instance : Says E (PlainZSet E) where
  json fmt v := .obj (v.zset.scores.map fun x => (x.1.name, x.2.json fmt))
  Writable fmt v := ∀ x ∈ v.zset.scores, x.1.NameWritable ∧ x.2.Writable fmt
  puts_key fmt key v ms := by
    obtain ⟨n, hcalls⟩ := v.zset.calls_scores
    have hobject : ∀ type : RdbType, type.in_text = false → ∀ name, Callback.puts fmt false
        (v.zset.calls ++ [.d_end_key type]) (.obj [.obj ms name] []) =
          some (.obj [] (ms ++ [(name, .obj (v.zset.scores.map fun x => (x.1.name, x.2.json fmt)))])) := by
      intro type htext name
      rw [hcalls]
      exact puts_object htext (fun _ _ _ _ => rfl) ms name
    obtain ⟨v, hplain⟩ := v
    rw [puts_cons]
    cases v with
    | zset n xs hn | zset_2 n xs hn => exact hobject _ rfl _
  writable_calls fmt v h c hc := by
    obtain ⟨n, hcalls⟩ := v.zset.calls_scores
    have hc : c ∈ v.zset.calls := hc
    rw [hcalls] at hc
    obtain ⟨i, hi, rfl⟩ := List.mem_mapIdx.mp hc
    exact h _ (List.getElem_mem hi)
  one_first fmt v _ := by
    obtain ⟨n, hcalls⟩ := v.zset.calls_scores
    change Callback.OneFirst v.zset.calls
    rw [hcalls]
    exact one_first_mapIdx (fun _ _ => rfl) _

/-- A packed value as JSON. -/
def PackedValue.json (fmt : Nat → List UInt8) : PackedValue E → Json
  | .hash_zipmap _ m _ => .obj (m.pairs.map fun p => (RdbVal.name (.str p.field), RdbVal.json fmt (.str p.val)))
  | .list_ziplist _ _ vs _ => .arr (vs.map fun v => v.val.json fmt)
  | .set_intset _ m _ _ _ => .arr (m.members.map fun a => RdbVal.json fmt (.int (m.val a)))
  | .zset_ziplist _ _ ps _ | .hash_ziplist _ _ ps _ | .hash_listpack _ ps _ | .zset_listpack _ ps _ =>
    .obj (ps.map fun p => (p.1.val.name, p.2.val.json fmt))

def PackedValue.Writable (fmt : Nat → List UInt8) : PackedValue E → Prop
  | .hash_zipmap _ m _ => ∀ p ∈ m.pairs, (RdbVal.str p.field).NameWritable ∧ (RdbVal.str p.val).Writable fmt
  | .list_ziplist _ _ vs _ => ∀ v ∈ vs, v.val.Writable fmt
  | .set_intset .. => True
  | .zset_ziplist _ _ ps _ | .hash_ziplist _ _ ps _ | .hash_listpack _ ps _ | .zset_listpack _ ps _ =>
    ∀ p ∈ ps, p.1.val.NameWritable ∧ p.2.val.Writable fmt

instance : Says E (PackedValue E) where
  json := PackedValue.json
  Writable := PackedValue.Writable
  puts_key fmt key v ms := by
    rw [puts_cons]
    cases v with
    | hash_zipmap x m h => exact puts_object rfl (fun _ _ _ _ => rfl) ms _
    | list_ziplist x cnt vs h => exact puts_array rfl (forall₂_mapIdx fun _ _ _ _ => rfl) ms _
    | set_intset x m h hsmall hfits => exact puts_array rfl (forall₂_mapIdx fun _ _ _ _ => rfl) ms _
    | zset_ziplist x cnt ps h | hash_ziplist x cnt ps h | hash_listpack x ps h | zset_listpack x ps h =>
      exact puts_object rfl (fun _ _ _ _ => rfl) ms _
  writable_calls fmt v h c hc := by
    cases v with
    | set_intset x m hm hsmall hfits =>
      obtain ⟨i, hi, rfl⟩ := List.mem_mapIdx.mp hc
      trivial
    | hash_zipmap x m hm =>
      obtain ⟨i, hi, rfl⟩ := List.mem_mapIdx.mp hc
      exact h _ (List.getElem_mem hi)
    | list_ziplist x cnt vs hm =>
      obtain ⟨i, hi, rfl⟩ := List.mem_mapIdx.mp hc
      exact h _ (List.getElem_mem hi)
    | zset_ziplist x cnt ps hm | hash_ziplist x cnt ps hm | hash_listpack x ps hm | zset_listpack x ps hm =>
      obtain ⟨i, hi, rfl⟩ := List.mem_mapIdx.mp hc
      exact h _ (List.getElem_mem hi)
  one_first fmt v _ := by
    cases v with
    | set_intset x m hm hsmall hfits => exact one_first_mapIdx (fun _ _ => rfl) _
    | hash_zipmap x m hm => exact one_first_mapIdx (fun _ _ => rfl) _
    | list_ziplist x cnt vs hm => exact one_first_mapIdx (fun _ _ => rfl) _
    | zset_ziplist x cnt ps hm | hash_ziplist x cnt ps hm | hash_listpack x ps hm | zset_listpack x ps hm =>
      exact one_first_mapIdx (fun _ _ => rfl) _

/-- The calls of a quicklist are those of its elements, whatever their numbers. -/
theorem forall₂_quick (num : Nat) (nodes : List (List ListPackElem)) :
    List.Forall₂ (fun (c : Callback) (v : ListPackElem) =>
      ∃ i, c = .d_list i 0 v.val) (quick_calls num nodes) nodes.flatten := by
  induction nodes generalizing num with
  | nil => exact .nil
  | cons vs nodes ih =>
    rw [quick_calls, List.flatten_cons]
    refine List.rel_append ?_ (ih _)
    have hnode : List.Forall₂ (fun (c : Callback) (v : ListPackElem) => ∃ i, c = .d_list i 0 v.val) (node_calls num vs)
        (vs.map id) := forall₂_mapIdx fun i _ _ => ⟨num + i, rfl⟩
    rwa [List.map_id] at hnode

/-- Behind an element no other has the number zero. -/
theorem quick_calls_later {num : Nat} (hnum : num ≠ 0) (nodes : List (List ListPackElem)) :
    ∀ c ∈ quick_calls num nodes, c.first_elem = false := by
  induction nodes generalizing num with
  | nil => exact fun c hc => absurd hc List.not_mem_nil
  | cons vs nodes ih =>
    rw [quick_calls, List.forall_mem_append]
    refine ⟨forall_mapIdx fun i v _ => ?_, ih ?_⟩
    · exact decide_eq_false (show ¬ num + i = 0 by omega)
    · rw [node_num]
      omega

/-- A quicklist of one node, or whose first node has more than one element. -/
def QuickList.Numbered (l : QuickList E) : Prop := ∀ vs ∈ l.elems.head?, l.elems.length = 1 ∨ 1 < vs.length

/-- A quicklist whose first of several nodes has more than one element has one element numbered zero: the number of
the first node's last is taken again by the second node. -/
theorem QuickList.Numbered.one_first {l : QuickList E} (h : l.Numbered) :
    Callback.OneFirst (quick_calls 0 l.elems) := by
  rw [QuickList.Numbered] at h
  cases hl : l.elems with
  | nil => exact Nat.zero_le 1
  | cons vs nodes =>
    rw [hl] at h
    have hrest : ∀ c ∈ quick_calls (node_num 0 vs) nodes, c.first_elem = false := by
      rcases h vs rfl with hone | hlong
      · obtain rfl : nodes = [] := List.length_eq_zero_iff.mp (Nat.succ.inj hone)
        exact fun c hc => absurd hc List.not_mem_nil
      · refine quick_calls_later ?_ nodes
        rw [node_num]
        omega
    rw [quick_calls]
    have hlater : ∀ i (v : ListPackElem), (Callback.d_list (0 + (i + 1)) 0 v.val).first_elem = false := fun i v =>
      decide_eq_false (show ¬ 0 + (i + 1) = 0 by omega)
    exact one_first_append (one_first_mapIdx hlater vs) hrest

instance : Says E (QuickValue E) where
  json fmt v := .arr (v.list.elems.flatten.map fun x => x.val.json fmt)
  Writable fmt v := v.list.Numbered ∧ ∀ x ∈ v.list.elems.flatten, x.val.Writable fmt
  puts_key fmt key v ms := by
    have helems : List.Forall₂ (fun (c : Callback) x =>
        ∀ p : Pos, c.put fmt false p = p.elem x) (quick_calls 0 v.list.elems)
        (v.list.elems.flatten.map fun x => x.val.json fmt) := by
      refine List.forall₂_map_right_iff.mpr ((forall₂_quick 0 v.list.elems).imp fun c x h => ?_)
      obtain ⟨i, rfl⟩ := h
      exact fun _ => rfl
    obtain ⟨n, l, hn⟩ := v
    rw [puts_cons]
    cases l with
    | ziplists nodes | listpacks nodes => exact puts_array rfl helems ms _
  writable_calls fmt v h c hc := by
    obtain ⟨i, hi, rfl⟩ := List.mem_iff_getElem.mp hc
    have hquick := forall₂_quick 0 v.list.elems
    have hlen := hquick.length_eq
    obtain ⟨k, hk⟩ := hquick.get hi (hlen ▸ hi)
    change ((quick_calls 0 v.list.elems).get ⟨i, hi⟩).Writable fmt false
    rw [hk]
    exact h.2 _ (List.get_mem _ _)
  one_first fmt v h := h.1.one_first

instance {V W : Type} [Encoding E V] [Encoding E W] [Says E V] [Says E W] : Says E (V ⊕ W) where
  json fmt := Sum.elim (Says.json fmt) (Says.json fmt)
  Writable fmt := Sum.elim (Says.Writable fmt) (Says.Writable fmt)
  puts_key fmt key v ms := by
    cases v with
    | inl v => exact Says.puts_key fmt key v ms
    | inr v => exact Says.puts_key fmt key v ms
  writable_calls fmt v h := by
    cases v with
    | inl v => exact Says.writable_calls fmt v h
    | inr v => exact Says.writable_calls fmt v h
  one_first fmt v h := by
    cases v with
    | inl v => exact Says.one_first fmt v h
    | inr v => exact Says.one_first fmt v h

end format

end rdbparser
