import Rdbparser.Decode.Truncated
import Rdbparser.Json.Written

/-! What is printed for a key, and for keys one after the other. -/

namespace rdbparser

open JsonText JsonString

variable {fmt : Nat → List UInt8} {show_meta : Bool} {type : RdbType} {ms : List (List UInt8 × Json)} {n : List UInt8}

theorem length_iff {α : Type} {xs : List α} {num : Nat} (h : xs.length = num) : num = 0 ↔ xs = [] := by
  rw [← h, List.length_eq_zero_iff]

theorem append_ne {α : Type} (xs : List α) (a : α) : xs ++ [a] ≠ [] :=
  List.append_ne_nil_of_right_ne_nil xs (List.cons_ne_nil a [])

/-- A callback that puts an element of a list, set, hash or sorted set out. -/
theorem Fits.step_elem {num : Nat} {p : Pos} {c : Callback} (h : Fits type ms n (.elems num) p)
    (hc : c.elem_num type = some num) (hw : c.Writable fmt show_meta) :
    ∃ q, c.Spells fmt show_meta p q [] [] ∧ Fits type ms n (.elems (num + 1)) q := by
  cases h with
  | arr hin hnum =>
    rcases elem_num_elems hc with ⟨-, cnt, v, hcall⟩ | ⟨hnot, -⟩
    · have hv : v.Writable fmt := by rcases hcall with rfl | rfl <;> exact hw
      exact ⟨_, .elem hcall (length_iff hnum) hv, .arr hin (by simp [hnum])⟩
    · exact absurd (hin.symm.trans hnot) Bool.noConfusion
  | obj hin hnum =>
    rcases elem_num_elems hc with ⟨hnot, -⟩ | ⟨-, cnt, x, v, hcall⟩
    · exact absurd (hnot.symm.trans hin) Bool.noConfusion
    · have hv : x.NameWritable ∧ v.Writable fmt := by rcases hcall with rfl | rfl <;> exact hw
      exact ⟨_, .pair hcall (length_iff hnum) hv.1 hv.2, .obj hin (by simp [hnum])⟩

/-- The same for an element of a quicklist: there may be no second one with the number zero. -/
theorem Fits.step_node {prev : Option Nat} {num : Nat} {p : Pos} {c : Callback} (h : Fits type ms n (.nodes prev) p)
    (hin : type.in_arr = true) (hc : c.elem_num type = some num) (hnum : follows prev num = true)
    (hzero : ¬ (prev = some 0 ∧ num = 0)) (hw : c.Writable fmt show_meta) :
    ∃ q, c.Spells fmt show_meta p q [] [] ∧ Fits type ms n (.nodes (some num)) q := by
  cases h with
  | @nodes _ xs hprev =>
    rcases elem_num_elems hc with ⟨-, cnt, v, hcall⟩ | ⟨hnot, -⟩
    · have hv : v.Writable fmt := by rcases hcall with rfl | rfl <;> exact hw
      have hfirst : num = 0 ↔ xs = [] := by
        rw [← hprev]
        cases prev with
        | none => simpa [follows] using hnum
        | some k =>
          simp only [follows, Bool.or_eq_true, decide_eq_true_eq] at hnum
          simp only [Option.some.injEq, reduceCtorEq, iff_false] at hzero ⊢
          omega
      exact ⟨_, .elem hcall hfirst hv, .nodes (by simp)⟩
    · exact absurd (hin.symm.trans hnot) Bool.noConfusion

/-- The end of a key. -/
theorem Fits.step_end {g : Stage} {p : Pos} (h : Fits type ms n g p) (hbad : type ≠ .RDB_BAD_TYPE) (hof : g.Of type)
    (hend : g.ends = true) : ∃ q, (Callback.d_end_key type).Spells fmt show_meta p q g.sep [] ∧
      Fits type ms n .stop q := by
  cases h with
  | arr hin => exact ⟨_, .end_arr hof hin, .stop⟩
  | obj hin => exact ⟨_, .end_obj hbad hof hin, .stop⟩
  | nodes => exact ⟨_, .end_arr hof.1 hof.2, .stop⟩
  | last_text htext => exact ⟨_, .end_text htext _, .stop⟩
  | last htext hin => exact ⟨_, .end_obj hbad htext hin, .stop⟩
  | _ => cases hend

/-- Behind the information about a stream, a group or a consumer comes the list that it announces, if any. -/
theorem Fits.groups_or_last {ns : List (List UInt8 × Json)}
    (hof : type.in_text = false ∧ type.in_arr = false) (hns : ns ≠ [])
    (cnt : Nat) : Fits type ms n (.groups_or_last cnt) (.obj (in_key ms n) ns) ∧
      (Stage.groups_or_last cnt).sep = [] := by
  unfold Stage.groups_or_last
  split
  · exact ⟨.last hof.1 hof.2, rfl⟩
  · exact ⟨.groups_due hns, rfl⟩

/-- In a group, what is written so far is the open object of the group in the list of groups. -/
theorem Fits.group {ns gs : List (List UInt8 × Json)} {xs : List Json} {num : Nat}
    (hnum : xs.length = num) (hgs : gs ≠ [])
    (cnt pending : Nat) :
    Fits type ms n (.group cnt num pending) (.obj (in_group ms n ns xs) gs) ∧
      (Stage.group cnt num pending).sep = [] := by
  unfold Stage.group
  split
  · exact ⟨.consumers_due hnum hgs, rfl⟩
  · exact ⟨.pel_due hnum hgs, rfl⟩

/-- In a consumer, it is the open object of the consumer in the list of these. -/
theorem Fits.cons {ns gs ds : List (List UInt8 × Json)} {xs cs : List Json} {num cnum : Nat} (hnum : xs.length = num)
    (hcnum : cs.length = cnum) (hds : ds ≠ []) (cnt ccnt pending : Nat) :
    Fits type ms n (.cons cnt num ccnt cnum pending) (.obj (in_cons ms n ns xs gs cs) ds) ∧
      (Stage.cons cnt num ccnt cnum pending).sep = [] := by
  unfold Stage.cons
  split
  · exact ⟨.cons_end hnum hcnum, rfl⟩
  · exact ⟨.cons_pel_due hnum hcnum hds, rfl⟩

theorem length_snoc {α : Type} {xs : List α} {num : Nat} (h : xs.length = num) (a : α) :
    (xs ++ [a]).length = num + 1 := by
  rw [List.length_append, h, List.length_singleton]

/-- A callback writes its text, and what is open behind it belongs to the next stage. -/
def Continues (fmt : Nat → List UInt8) (show_meta : Bool) (type : RdbType)
    (ms : List (List UInt8 × Json)) (n : List UInt8)
    (p : Pos) (c : Callback) (g g' : Stage) : Prop :=
  ∃ q, c.Spells fmt show_meta p q g.sep g'.sep ∧ Fits type ms n g' q

section steps

variable {g g' : Stage} {p : Pos}

/-- The text of a string or a module. -/
theorem Fits.step_value {c : Callback} {v : RdbVal} (h : Fits type ms n g p) (hof : g.Of type)
    (hc : c = .d_string v ∨ c = .d_module v) (hstep : Stage.step type g c = some g') (hv : v.Writable fmt) :
    Continues fmt show_meta type ms n p c g g' := by
  cases h with
  | text =>
    have hlast : g' = .last := by
      rcases hc with rfl | rfl <;> exact (Option.some.inj (Option.ite_none_right_eq_some.mp hstep).2).symm
    subst hlast
    exact ⟨_, .value hc hv, .last_text hof⟩
  | _ => rcases hc with rfl | rfl <;> simp [Stage.step, Callback.elem_num] at hstep

/-- An entry of a stream. -/
theorem Fits.step_entry {num cnt flags : Nat} {id diff : RdbStreamRecId} {fields : List (RdbVal × RdbVal)}
    (h : Fits type ms n g p) (hstep : Stage.step type g (.d_stream_entry num cnt id diff flags fields) = some g')
    (hw : (Callback.d_stream_entry num cnt id diff flags fields).Writable fmt show_meta) :
    Continues fmt show_meta type ms n p (.d_stream_entry num cnt id diff flags fields) g g' := by
  cases h with
  | first_entry =>
    cases num with
    | zero =>
      obtain rfl := Option.some.inj hstep
      exact ⟨_, .entry _ _ _ _ hw.1 hw.2 (by simp), .entries rfl⟩
    | succ num => cases hstep
  | entries hlen =>
    obtain ⟨rfl, hnext⟩ := Option.ite_none_right_eq_some.mp hstep
    obtain rfl := Option.some.inj hnext
    exact ⟨_, .entry _ _ _ _ hw.1 hw.2 (length_iff hlen), .entries (length_snoc hlen _)⟩
  | _ => simp [Stage.step, Callback.elem_num] at hstep

/-- The information about a stream. -/
theorem Fits.step_info {last : RdbStreamRecId} {num_elems cnt entry_cnt : Nat}
    (h : Fits type ms n g p) (hof : g.Of type)
    (hstep : Stage.step type g (.d_stream_info last num_elems cnt entry_cnt) = some g') :
    Continues fmt show_meta type ms n p (.d_stream_info last num_elems cnt entry_cnt) g g' := by
  cases h with
  | stream =>
    obtain ⟨-, hnext⟩ := Option.ite_none_right_eq_some.mp hstep
    obtain rfl := Option.some.inj hnext
    obtain ⟨hfits, hsep⟩ := @Fits.groups_or_last type ms n _ hof (append_ne _ _) cnt
    rw [Continues, hsep]
    exact ⟨_, .info last num_elems cnt entry_cnt (.inl ⟨rfl, rfl⟩), hfits⟩
  | info hns =>
    obtain ⟨-, hnext⟩ := Option.ite_none_right_eq_some.mp hstep
    obtain rfl := Option.some.inj hnext
    obtain ⟨hfits, hsep⟩ := @Fits.groups_or_last type ms n _ hof (append_ne _ _) cnt
    rw [Continues, hsep]
    exact ⟨_, .info last num_elems cnt entry_cnt (.inr ⟨hns, rfl⟩), hfits⟩
  | _ => simp [Stage.step, Callback.elem_num] at hstep

/-- A group. -/
theorem Fits.step_group {i cnt pending : Nat} {gname : RdbVal} {last : RdbStreamRecId} (h : Fits type ms n g p)
    (hstep : Stage.step type g (.d_stream_group i cnt gname pending last) = some g') (hname : gname.PlainStr) :
    Continues fmt show_meta type ms n p (.d_stream_group i cnt gname pending last) g g' := by
  cases h with
  | groups hlen =>
    obtain ⟨⟨rfl, rfl⟩, hnext⟩ := Option.ite_none_right_eq_some.mp hstep
    obtain rfl := Option.some.inj hnext
    obtain ⟨hfits, hsep⟩ := @Fits.group type ms n _ _ _ _ hlen (List.cons_ne_nil _ _) _ pending
    rw [Continues, hsep]
    exact ⟨_, .group _ pending last hname (length_iff hlen), hfits⟩
  | _ => simp [Stage.step, Callback.elem_num] at hstep

/-- A pending entry of a group. -/
theorem Fits.step_pend {i cnt last_delivery delivery_cnt : Nat} {id : RdbStreamRecId} (h : Fits type ms n g p)
    (hstep : Stage.step type g (.d_stream_pend i cnt id last_delivery delivery_cnt) = some g') :
    Continues fmt show_meta type ms n p (.d_stream_pend i cnt id last_delivery delivery_cnt) g g' := by
  cases h with
  | pel hnum hlen =>
    obtain ⟨⟨rfl, rfl⟩, hnext⟩ := Option.ite_none_right_eq_some.mp hstep
    obtain rfl := Option.some.inj hnext
    exact ⟨_, .pend _ _ _ _ (length_iff hlen), .pel hnum (length_snoc hlen _)⟩
  | _ => simp [Stage.step, Callback.elem_num] at hstep

/-- A consumer. -/
theorem Fits.step_cons {i cnt pending last_seen : Nat} {cname : RdbVal} (h : Fits type ms n g p)
    (hstep : Stage.step type g (.d_stream_cons i cnt cname pending last_seen) = some g') (hname : cname.PlainStr) :
    Continues fmt show_meta type ms n p (.d_stream_cons i cnt cname pending last_seen) g g' := by
  cases h with
  | @first_consumer _ _ ns xs gs hnum =>
    cases i with
    | zero =>
      obtain rfl := Option.some.inj hstep
      obtain ⟨hfits, hsep⟩ := @Fits.cons type ms n ns gs _ xs [] _ _ hnum List.length_nil
        (List.cons_ne_nil _ _) _ cnt pending
      rw [Continues, hsep]
      exact ⟨_, .cons cnt pending last_seen hname (by simp), hfits⟩
    | succ i => cases hstep
  | consumers hnum hcnum =>
    obtain ⟨⟨rfl, rfl⟩, hnext⟩ := Option.ite_none_right_eq_some.mp hstep
    obtain rfl := Option.some.inj hnext
    obtain ⟨hfits, hsep⟩ := @Fits.cons type ms n _ _ _ _ _ _ _ hnum hcnum (List.cons_ne_nil _ _) _ _ pending
    rw [Continues, hsep]
    exact ⟨_, .cons _ pending last_seen hname (length_iff hcnum), hfits⟩
  | _ => simp [Stage.step, Callback.elem_num] at hstep

/-- A pending entry of a consumer. -/
theorem Fits.step_cons_pend {i cnt : Nat} {id : RdbStreamRecId} (h : Fits type ms n g p)
    (hstep : Stage.step type g (.d_stream_cons_pend i cnt id) = some g') :
    Continues fmt show_meta type ms n p (.d_stream_cons_pend i cnt id) g g' := by
  cases h with
  | cons_pel hnum hcnum hlen =>
    obtain ⟨⟨rfl, rfl⟩, hnext⟩ := Option.ite_none_right_eq_some.mp hstep
    obtain rfl := Option.some.inj hnext
    exact ⟨_, .cons_pend _ _ (length_iff hlen), .cons_pel hnum hcnum (length_snoc hlen _)⟩
  | _ => simp [Stage.step, Callback.elem_num] at hstep

/-- A list in a stream is opened where it is announced. -/
theorem Fits.step_start {c : StreamPart} (h : Fits type ms n g p)
    (hstep : Stage.step type g (.d_stream_start c) = some g') :
    Continues fmt show_meta type ms n p (.d_stream_start c) g g' := by
  cases h with
  | stream =>
    cases c <;> cases hstep
    exact ⟨_, .start_entries, .first_entry⟩
  | groups_due hns =>
    cases c <;> cases hstep
    exact ⟨_, .start_list (by simp) hns, .groups rfl⟩
  | pel_due hnum hgs =>
    cases c <;> cases hstep
    exact ⟨_, .start_list (by simp) hgs, .pel hnum rfl⟩
  | consumers_due hnum hgs =>
    cases c <;> cases hstep
    exact ⟨_, .start_list (by simp) hgs, .first_consumer hnum⟩
  | cons_pel_due hnum hcnum hds =>
    cases c <;> cases hstep
    exact ⟨_, .start_list (by simp) hds, .cons_pel hnum hcnum rfl⟩
  | _ => cases c <;> simp [Stage.step, Callback.elem_num] at hstep

/-- A list ends behind as many elements as were announced, and a group or consumer behind its lists. -/
theorem Fits.step_close {c : StreamPart} (h : Fits type ms n g p) (hof : g.Of type)
    (hstep : Stage.step type g (.d_stream_end c) = some g') :
    Continues fmt show_meta type ms n p (.d_stream_end c) g g' := by
  cases h with
  | entries =>
    cases c <;> cases hstep
    exact ⟨_, .end_entries, .info (append_ne _ _)⟩
  | pel hnum =>
    cases c <;> simp only [Stage.step, Option.ite_none_right_eq_some, Option.some.injEq, reduceCtorEq] at hstep
    obtain ⟨-, rfl⟩ := hstep
    exact ⟨_, .end_list (by simp), .consumers_due hnum (append_ne _ _)⟩
  | consumers_due hnum =>
    cases c <;> cases hstep
    exact ⟨_, .end_record (.inl rfl), .groups (length_snoc hnum _)⟩
  | cons_pel hnum hcnum =>
    cases c <;> simp only [Stage.step, Option.ite_none_right_eq_some, Option.some.injEq, reduceCtorEq] at hstep
    obtain ⟨-, rfl⟩ := hstep
    exact ⟨_, .end_list (by simp), .cons_end hnum hcnum⟩
  | cons_end hnum hcnum =>
    cases c <;> cases hstep
    exact ⟨_, .end_record (.inr rfl), .consumers hnum (length_snoc hcnum _)⟩
  | consumers hnum =>
    cases c <;> simp only [Stage.step, Option.ite_none_right_eq_some, Option.some.injEq, reduceCtorEq] at hstep
    obtain ⟨-, rfl⟩ := hstep
    exact ⟨_, .end_list (by simp), .group_end hnum⟩
  | group_end hnum =>
    cases c <;> cases hstep
    exact ⟨_, .end_record (.inl rfl), .groups (length_snoc hnum _)⟩
  | groups =>
    cases c <;> simp only [Stage.step, Option.ite_none_right_eq_some, Option.some.injEq, reduceCtorEq] at hstep
    obtain ⟨-, rfl⟩ := hstep
    exact ⟨_, .end_list (by simp), .last hof.1 hof.2⟩
  | _ => cases c <;> simp [Stage.step, Callback.elem_num] at hstep

/-- An element is expected where its number is the next one, or in a quicklist the last one again. -/
theorem Stage.step_num {c : Callback} {num : Nat} (hc : c.elem_num type = some num) (g : Stage) :
    Stage.step type g c =
      match g with
      | .elems k => if num = k then some (.elems (k + 1)) else none
      | .nodes prev => if follows prev num then some (.nodes (some num)) else none
      | _ => none := by
  rcases elem_num_elems hc with ⟨-, cnt, v, rfl | rfl⟩ | ⟨-, cnt, x, v, rfl | rfl⟩ <;> cases g <;> simp [Stage.step, hc]

/-- An element of a list, set, hash or sorted set. -/
theorem Fits.step_num {c : Callback} {num : Nat} (h : Fits type ms n g p) (hof : g.Of type)
    (hc : c.elem_num type = some num) (hstep : Stage.step type g c = some g') (hzero : g = .nodes (some 0) → num ≠ 0)
    (hw : c.Writable fmt show_meta) : Continues fmt show_meta type ms n p c g g' := by
  rw [Stage.step_num hc] at hstep
  cases g with
  | elems k =>
    obtain ⟨rfl, hnext⟩ := Option.ite_none_right_eq_some.mp hstep
    obtain rfl := Option.some.inj hnext
    exact h.step_elem hc hw
  | nodes prev =>
    obtain ⟨hnum, hnext⟩ := Option.ite_none_right_eq_some.mp hstep
    obtain rfl := Option.some.inj hnext
    refine h.step_node hof.2 hc hnum ?_ hw
    rintro ⟨rfl, hnone⟩
    exact hzero rfl hnone
  | _ => cases hstep

/-- From one stage of a key to the next. -/
theorem Fits.step {c : Callback} (h : Fits type ms n g p) (hbad : type ≠ .RDB_BAD_TYPE)
    (hof : g.Of type) (hstep : Stage.step type g c = some g') (hzero : g = .nodes (some 0) → c.elem_num type ≠ some 0)
    (hw : c.Writable fmt show_meta) : Continues fmt show_meta type ms n p c g g' := by
  cases hc : c.elem_num type with
  | some num => exact h.step_num hof hc hstep (fun hg hnum => hzero hg (hnum ▸ hc)) hw
  | none =>
    cases c with
    | d_end_key t =>
      simp only [Stage.step, Option.ite_none_right_eq_some, Option.some.injEq] at hstep
      obtain ⟨⟨hend, rfl⟩, rfl⟩ := hstep
      exact h.step_end hbad hof hend
    | d_string v => exact h.step_value hof (.inl rfl) hstep hw
    | d_module v => exact h.step_value hof (.inr rfl) hstep hw
    | d_stream_start c => exact h.step_start hstep
    | d_stream_end c => exact h.step_close hof hstep
    | d_stream_entry => exact h.step_entry hstep hw
    | d_stream_info => exact h.step_info hof hstep
    | d_stream_group => exact h.step_group hstep hw
    | d_stream_pend => exact h.step_pend hstep
    | d_stream_cons => exact h.step_cons hstep hw
    | d_stream_cons_pend => exact h.step_cons_pend hstep
    | _ => cases h <;> simp [Stage.step, hc] at hstep

end steps

/-- An element of an array that has the number zero. -/
def Callback.first_elem : Callback → Bool
  | .d_list num _ _ | .d_set num _ _ => num = 0
  | _ => false

/-- At most one element has the number zero. -/
def Callback.OneFirst (calls : List Callback) : Prop := (calls.filter Callback.first_elem).length ≤ 1

theorem Callback.OneFirst.right {xs ys : List Callback} (h : OneFirst (xs ++ ys)) : OneFirst ys := by
  rw [OneFirst, List.filter_append, List.length_append] at h
  exact Nat.le_trans (Nat.le_add_left _ _) h

/-- Behind one that has it there is none. -/
theorem Callback.OneFirst.rest {c : Callback} {calls : List Callback} (h : OneFirst (c :: calls))
    (hc : c.first_elem = true) :
    ∀ d ∈ calls, d.first_elem = false := by
  intro d hd
  rw [OneFirst, List.filter_cons_of_pos hc, List.length_cons] at h
  have hnone : calls.filter Callback.first_elem = [] := List.eq_nil_of_length_eq_zero (by omega)
  exact Bool.eq_false_of_not_eq_true (List.filter_eq_nil_iff.mp hnone d hd)

theorem first_elem_of {c : Callback} (hin : type.in_arr = true) (hc : c.elem_num type = some 0) :
    c.first_elem = true := by
  rcases elem_num_elems hc with ⟨-, cnt, v, rfl | rfl⟩ | ⟨hnot, -⟩
  · rfl
  · rfl
  · exact absurd (hin.symm.trans hnot) Bool.noConfusion

/-- Where the last element has had the number zero. -/
theorem Stage.step_first {prev : Stage} {c : Callback} (hof : prev.Of type)
    (h : Stage.step type prev c = some (.nodes (some 0))) :
    c.first_elem = true := by
  rcases Stage.step_inner h with hin | ⟨-, hg⟩ | ⟨before, num, rfl, hnum, hg⟩
  · exact Bool.noConfusion hin
  · exact Stage.noConfusion hg
  · cases hg
    exact first_elem_of hof.2 hnum

/-- What is printed of calls that are on the real output. -/
def JsonOutput.writes (fmt : Nat → List UInt8) (j : JsonOutput) (calls : List Callback) :=
  j.write fmt (calls.map (Dest.data_out, ·))

namespace JsonOutput

/-- What is written for calls is that for the first and then, from the state they leave, that for the others. -/
theorem write_append (j : JsonOutput) (xs ys : List (Dest × Callback)) :
    j.write fmt (xs ++ ys) = (j.write fmt xs).bind fun r => (r.2.write fmt ys).map fun q => (r.1 ++ q.1, q.2) := by
  induction xs generalizing j with
  | nil =>
    simp only [List.nil_append, write, Option.bind_some]
    cases j.write fmt ys <;> rfl
  | cons x xs ih =>
    obtain ⟨d, c⟩ := x
    cases d with
    | null_out => exact ih j
    | data_out =>
      simp only [List.cons_append, write, ih, Option.bind_eq_bind, Option.pure_def]
      cases j.callback fmt c with
      | none => rfl
      | some r =>
        simp only [Option.bind_some]
        cases r.2.write fmt xs with
        | none => rfl
        | some q =>
          simp only [Option.bind_some]
          cases q.2.write fmt ys <;> simp

theorem writes_cons {j k : JsonOutput} {c : Callback} {calls : List Callback} {u : List UInt8}
    (h : j.callback fmt c = some (u, k)) :
    j.writes fmt (c :: calls) = (k.writes fmt calls).map fun r => (u ++ r.1, r.2) := by
  simp only [writes, List.map_cons, write, h, Option.bind_eq_bind, Option.bind_some]
  cases k.write fmt (calls.map (Dest.data_out, ·)) <;> rfl

end JsonOutput

/-- The text of what is left of a key. -/
theorem Fits.run {calls : List Callback} {g : Stage} {p : Pos} (h : Fits type ms n g p) (hbad : type ≠ .RDB_BAD_TYPE)
    (hof : g.Of type) (hsteps : calls.foldlM (Stage.step type) g = some .stop)
    (hzero : g = .nodes (some 0) → ∀ c ∈ calls, c.first_elem = false) (hone : Callback.OneFirst calls)
    (hw : ∀ c ∈ calls, c.Writable fmt show_meta) :
    ∃ v, Callback.puts fmt show_meta calls p = some (.obj [] (ms ++ [(n, v)])) ∧
      ∀ j : JsonOutput, j.show_meta = show_meta → ∃ u, j.writes fmt calls = some (u, j) ∧
        ∀ t, p.Spells t → InObj [] (ms ++ [(n, v)]) (t ++ g.sep ++ u) := by
  induction calls generalizing g p with
  | nil =>
    obtain rfl : g = .stop := Option.some.inj hsteps
    cases h with
    | @stop v => exact ⟨v, rfl, fun j _ => ⟨[], rfl, fun t ht => by simpa [Stage.sep, Pos.Spells] using ht⟩⟩
  | cons c calls ih =>
    rw [List.forall_mem_cons] at hw
    rw [List.foldlM_cons, Option.bind_eq_bind, Option.bind_eq_some_iff] at hsteps
    obtain ⟨g', hstep, hrest⟩ := hsteps
    have hfirst : g = .nodes (some 0) → c.elem_num type ≠ some 0 := by
      rintro rfl hc
      exact absurd (first_elem_of hof.2 hc) (by simp [hzero rfl c List.mem_cons_self])
    obtain ⟨q, ⟨hput, hcall⟩, hq⟩ := h.step hbad hof hstep hfirst hw.1
    have hzero' : g' = .nodes (some 0) → ∀ d ∈ calls, d.first_elem = false := by
      rintro rfl
      exact hone.rest (Stage.step_first hof hstep)
    obtain ⟨v, hputs, hwrites⟩ := ih hq (hof.step hstep) hrest hzero' (@Callback.OneFirst.right [c] calls hone) hw.2
    refine ⟨v, ?_, fun j hj => ?_⟩
    · rw [Callback.puts, List.foldlM_cons, hput]
      exact hputs
    · obtain ⟨u, hu, htext⟩ := hcall j hj
      obtain ⟨w, hw, hall⟩ := hwrites j hj
      refine ⟨u ++ w, ?_, fun t ht => ?_⟩
      · rw [JsonOutput.writes_cons hu, hw]
        rfl
      · obtain ⟨t', ht', heq⟩ := htext t ht
        have hdone := hall t' ht'
        rwa [← heq, List.append_assoc] at hdone

theorem comma_nl_sep : Sep ms (comma_nl ms.length).1 := by
  cases ms with
  | nil => exact .inl ⟨rfl, rfl⟩
  | cons m ms => exact .inr ⟨List.cons_ne_nil m ms, ascii "\n", by decide, rfl⟩

theorem key_fmt_some (hbad : type ≠ .RDB_BAD_TYPE) :
    ∃ f, JsonOutput.key_fmt type = some (f, type.type_name) ∧
      f = ascii " :" ++ (if type.in_text then ascii " " else if type.in_arr then ascii " [\n" else
        ascii " \x7b\n") := by
  cases type <;> first | exact absurd rfl hbad | exact ⟨_, rfl, rfl⟩

theorem type_name_plain (type : RdbType) : Plain type.type_name := by
  cases type <;> decide

/-- The name of a key, and the bracket behind it. -/
theorem start_key_spells (hbad : type ≠ .RDB_BAD_TYPE) {key : RdbVal} (hkey : key.KeyWritable fmt) :
    ∃ q, Callback.put fmt show_meta (.d_start_key type key) (.obj [] ms) = some q ∧
      Fits type ms (key.key_name fmt type.type_name) (Stage.first type) q ∧
      ∀ j : JsonOutput, j.d_cnt = ms.length →
        ∃ u, j.callback fmt (.d_start_key type key) = some (u, { j with d_cnt := j.d_cnt + 1 }) ∧
          ∀ t, InObj [] ms t → q.Spells (t ++ u) := by
  obtain ⟨f, hfmt, hf⟩ := key_fmt_some hbad
  obtain ⟨hquoted, hchars⟩ := RdbVal.key_name_quoted hkey (chars_of_plain (type_name_plain type))
  have hcall : ∀ j : JsonOutput, j.callback fmt (.d_start_key type key) =
      some ((comma_nl j.d_cnt).1 ++ quoted (key.key_name fmt type.type_name) ++ f,
        { j with d_cnt := j.d_cnt + 1 }) := by
    intro j
    simp only [JsonOutput.callback, JsonOutput.d_start_key, hfmt, hquoted, comma_nl, Option.map_some]
  have hnext : ∀ t, InObj [] ms t → Waiting (in_key ms (key.key_name fmt type.type_name))
      (t ++ ((comma_nl ms.length).1 ++ (quoted (key.key_name fmt type.type_name) ++ ascii " : "))) := fun t ht =>
    ht.next comma_nl_sep hchars (a := ascii " ") (b := ascii " ") (by decide) (by decide)
  rw [Callback.put, Pos.next_member, Option.bind_eq_bind, Option.bind_some]
  by_cases htext : type.in_text = true
  · have hfirst : Stage.first type = .text := by
      cases type <;> first | rfl | exact Bool.noConfusion htext
    rw [if_pos htext] at hf ⊢
    refine ⟨_, rfl, hfirst ▸ .text, fun j hj => ⟨_, hcall j, fun t ht => ?_⟩⟩
    have h := hnext t ht
    rw [hf, hj]
    simpa [ascii, Pos.Spells] using h
  · rw [if_neg htext] at hf ⊢
    by_cases hin : type.in_arr = true
    · rw [if_pos hin] at hf ⊢
      refine ⟨_, rfl, ?_, fun j hj => ⟨_, hcall j, fun t ht => ?_⟩⟩
      · cases type <;> first | exact .arr rfl rfl | exact .nodes (by simp) | exact Bool.noConfusion hin
      · have h := (hnext t ht).open_arr (a := ascii "\n") (by decide)
        rw [hf, hj]
        simpa [ascii, Pos.Spells] using h
    · rw [if_neg hin] at hf ⊢
      refine ⟨_, rfl, ?_, fun j hj => ⟨_, hcall j, fun t ht => ?_⟩⟩
      · cases type <;> first | exact .obj rfl rfl | exact .stream | exact absurd rfl htext | exact absurd rfl hin
      · have h := (hnext t ht).open_obj (a := ascii "\n") (by decide)
        rw [hf, hj]
        simpa [ascii, Pos.Spells] using h

theorem Stage.first_sep (type : RdbType) : (Stage.first type).sep = [] := by cases type <;> rfl

/-- A key starts with `d_start_key` only. -/
theorem Stage.step_start {g : Stage} {c : Callback} (h : Stage.step type .start c = some g) :
    ∃ key, c = .d_start_key type key ∧ g = Stage.first type := by
  cases c <;> simp only [Stage.step, Stage.ends, Bool.false_eq_true, false_and, if_false, reduceCtorEq] at h
  split at h
  · next key htype =>
    subst htype
    exact ⟨key, rfl, (Option.some.inj h).symm⟩
  · cases h

/-- The name of the member that a callback adds to the document. -/
def Callback.member_name (fmt : Nat → List UInt8) (show_meta : Bool) : Callback → Option (List UInt8)
  | .d_start_key type key => some (key.key_name fmt type.type_name)
  | .d_idle _ => if show_meta then some (ascii "idle") else none
  | .d_freq _ => if show_meta then some (ascii "freq") else none
  | .d_aux var _ => if show_meta then some var.name else none
  | .d_dbresize _ _ => if show_meta then some (ascii "dbresize") else none
  | .d_expired_ms _ => if show_meta then some (ascii "expire_ms") else none
  | .d_expired _ => if show_meta then some (ascii "expire") else none
  | .d_dbselect _ => if show_meta then some (ascii "dbselect") else none
  | _ => none

theorem Stage.step_member_name {g g' : Stage} {c : Callback} (hg : g ≠ .start) (h : Stage.step type g c = some g') :
    c.member_name fmt show_meta = none := by
  have hnone : Stage.step type g c ≠ none := h ▸ Option.some_ne_none g'
  cases c <;> first | rfl | (refine absurd ?_ hnone; cases g <;> first | rfl | exact absurd rfl hg)

/-- Between the start of a key and its end no call starts another member of the document. -/
theorem Stage.steps_member_name {calls : List Callback} {g g' : Stage} (hg : g ≠ .start)
    (h : calls.foldlM (Stage.step type) g = some g') : calls.filterMap (Callback.member_name fmt show_meta) = [] := by
  induction calls generalizing g with
  | nil => rfl
  | cons c calls ih =>
    rw [List.foldlM_cons, Option.bind_eq_bind, Option.bind_eq_some_iff] at h
    obtain ⟨m, hstep, hrest⟩ := h
    rw [List.filterMap_cons_none (Stage.step_member_name hg hstep)]
    exact ih (Stage.step_ne_start hstep) hrest

/-- Callbacks between two keys whose text adds members to the document. -/
def Prints (fmt : Nat → List UInt8) (show_meta : Bool) (calls : List Callback) (ms ms' : List (List UInt8 × Json)) :
    Prop :=
  Callback.puts fmt show_meta calls (.obj [] ms) = some (.obj [] ms') ∧
    ∀ j : JsonOutput, j.show_meta = show_meta → j.d_cnt = ms.length →
      ∃ u, j.writes fmt calls = some (u, { j with d_cnt := ms'.length }) ∧ ∀ t, InObj [] ms t → InObj [] ms' (t ++ u)

namespace Prints

variable {ms' ms'' : List (List UInt8 × Json)} {calls calls' : List Callback}

theorem nil : Prints fmt show_meta [] ms ms := by
  refine ⟨rfl, fun j _ hcnt => ⟨[], ?_, fun t ht => by rwa [List.append_nil]⟩⟩
  rw [← hcnt]
  rfl

/-- Calls that are printed one behind the other are printed from the state that the first leave. -/
theorem append (h : Prints fmt show_meta calls ms ms') (h' : Prints fmt show_meta calls' ms' ms'') :
    Prints fmt show_meta (calls ++ calls') ms ms'' := by
  refine ⟨?_, fun j hj hcnt => ?_⟩
  · rw [Callback.puts, List.foldlM_append]
    exact (congrArg (Option.bind · _) h.1).trans h'.1
  · obtain ⟨u, hu, htext⟩ := h.2 j hj hcnt
    obtain ⟨w, hw, htext'⟩ := h'.2 { j with d_cnt := ms'.length } hj rfl
    refine ⟨u ++ w, ?_, fun t ht => ?_⟩
    · have hw' : JsonOutput.write fmt { j with d_cnt := ms'.length } (calls'.map (Dest.data_out, ·)) = _ := hw
      have hu' : j.write fmt (calls.map (Dest.data_out, ·)) = _ := hu
      rw [JsonOutput.writes, List.map_append, JsonOutput.write_append, hu', Option.bind_some, hw']
      rfl
    · rw [← List.append_assoc]
      exact htext' _ (htext t ht)

/-- The callbacks of a key add one member. -/
theorem of_laid (h : Callback.Laid type calls) (hbad : type ≠ .RDB_BAD_TYPE) (hone : Callback.OneFirst calls)
    (hw : ∀ c ∈ calls, c.Writable fmt show_meta) :
    ∃ n v, calls.filterMap (Callback.member_name fmt show_meta) = [n] ∧
      Prints fmt show_meta calls ms (ms ++ [(n, v)]) := by
  cases calls with
  | nil => cases h
  | cons c calls =>
    rw [Callback.Laid, List.foldlM_cons, Option.bind_eq_bind, Option.bind_eq_some_iff] at h
    obtain ⟨g, hstep, hrest⟩ := h
    obtain ⟨key, rfl, rfl⟩ := Stage.step_start hstep
    rw [List.forall_mem_cons] at hw
    obtain ⟨q, hput, hfits, hcall⟩ := @start_key_spells fmt show_meta type ms hbad key hw.1
    have hzero : Stage.first type = .nodes (some 0) → ∀ d ∈ calls, d.first_elem = false := fun hfirst => by
      cases type <;> cases hfirst
    obtain ⟨v, hputs, hwrites⟩ :=
      hfits.run hbad (Stage.of_first type) hrest hzero
      (@Callback.OneFirst.right [.d_start_key type key] calls hone) hw.2
    refine ⟨key.key_name fmt type.type_name, v, ?_, ?_, fun j hj hcnt => ?_⟩
    · rw [List.filterMap_cons, Stage.steps_member_name (Stage.step_ne_start hstep) hrest]
      rfl
    · rw [Callback.puts, List.foldlM_cons, hput]
      exact hputs
    · obtain ⟨u, hu, htext⟩ := hcall j hcnt
      obtain ⟨w, hw, hall⟩ := hwrites { j with d_cnt := j.d_cnt + 1 } hj
      refine ⟨u ++ w, ?_, fun t ht => ?_⟩
      · rw [JsonOutput.writes_cons hu, hw, List.length_append, List.length_singleton, hcnt]
        rfl
      · have hdone := hall _ (htext t ht)
        rwa [Stage.first_sep, List.append_nil, List.append_assoc] at hdone

/-- A call that adds a member, or none, is printed as one. -/
theorem of_call {c : Callback} (hput : c.put fmt show_meta (.obj [] ms) = some (.obj [] ms'))
    (h : ∀ j : JsonOutput, j.show_meta = show_meta → j.d_cnt = ms.length →
      ∃ u, j.callback fmt c = some (u, { j with d_cnt := ms'.length }) ∧ ∀ t, InObj [] ms t → InObj [] ms' (t ++ u)) :
    Prints fmt show_meta [c] ms ms' := by
  refine ⟨?_, fun j hj hcnt => ?_⟩
  · rw [Callback.puts, List.foldlM_cons, hput]
    rfl
  · obtain ⟨u, hu, htext⟩ := h j hj hcnt
    refine ⟨u, ?_, htext⟩
    rw [JsonOutput.writes_cons hu]
    exact congrArg (fun w => some (w, _)) (List.append_nil u)

/-- A meta field is a member, or nothing is printed. -/
theorem of_meta {c : Callback} {n u : List UInt8} {v : Json} {text : Option (List UInt8)}
    (hput : c.put fmt show_meta (.obj [] ms) = if show_meta then some (.obj [] (ms ++ [(n, v)])) else some (.obj [] ms))
    (hcall : ∀ j : JsonOutput, j.callback fmt c = j.d_meta text)
    (hname : c.member_name fmt show_meta = if show_meta then some n else none)
    (htext : show_meta = true → text = some (quoted n ++ (ascii " : " ++ u)) ∧ chars n = true ∧ Text v u) :
    ∃ ms', Prints fmt show_meta [c] ms ms' ∧
      ms'.map Prod.fst = ms.map Prod.fst ++ (c.member_name fmt show_meta).toList := by
  cases show_meta with
  | false =>
    refine ⟨ms, of_call hput fun j hj hcnt => ⟨[], ?_, fun t ht => by rwa [List.append_nil]⟩, ?_⟩
    · obtain ⟨cnt, shown⟩ := j
      obtain rfl : shown = false := hj
      rw [hcall, ← hcnt]
      rfl
    · rw [hname]
      exact (List.append_nil _).symm
  | true =>
    obtain ⟨rfl, hn, hv⟩ := htext rfl
    refine ⟨_, of_call hput fun j hj hcnt => ⟨(comma_nl ms.length).1 ++ (quoted n ++ (ascii " : " ++ u)), ?_,
      fun t ht => ?_⟩, ?_⟩
    · obtain ⟨cnt, shown⟩ := j
      obtain rfl : shown = true := hj
      rw [hcall, List.length_append, List.length_singleton, ← hcnt]
      rfl
    · exact ht.member comma_nl_sep hn (a := ascii " ") (b := ascii " ") (by decide) (by decide) hv
    · rw [hname]
      exact List.map_append

/-- An opcode or the start of a type adds the member it has a name for, or none. -/
theorem of_front {c : Callback} (hc : c.of_front = true) (hw : c.Writable fmt show_meta) :
    ∃ ms', Prints fmt show_meta [c] ms ms' ∧
      ms'.map Prod.fst = ms.map Prod.fst ++ (c.member_name fmt show_meta).toList := by
  have hnum : ∀ {n : List UInt8} {k : Nat}, Plain n → show_meta = true →
      some (quoted n ++ (ascii " : " ++ decimal k)) = some (quoted n ++ (ascii " : " ++ decimal k)) ∧
        chars n = true ∧ Text (.num (decimal k)) (decimal k) := fun hs _ =>
    ⟨rfl, chars_of_plain hs, .num (decimal_number _)⟩
  cases c with
  | d_start_type type =>
    refine ⟨ms, of_call rfl fun j hj hcnt => ⟨[], ?_, fun t ht => by rwa [List.append_nil]⟩, (List.append_nil _).symm⟩
    rw [← hcnt]
    rfl
  | d_idle i => exact of_meta rfl (fun j => rfl) rfl (@hnum (ascii "idle") i (by decide))
  | d_freq f => exact of_meta rfl (fun j => rfl) rfl (@hnum (ascii "freq") f (by decide))
  | d_expired_ms n => exact of_meta rfl (fun j => rfl) rfl (@hnum (ascii "expire_ms") n (by decide))
  | d_expired n => exact of_meta rfl (fun j => rfl) rfl (@hnum (ascii "expire") n (by decide))
  | d_dbselect n => exact of_meta rfl (fun j => rfl) rfl (@hnum (ascii "dbselect") n (by decide))
  | d_dbresize x y =>
    refine of_meta rfl (fun j => rfl) rfl (u := ascii "[" ++ decimal x ++ ascii ", " ++ decimal y ++ ascii "]")
      fun _ => ⟨?_, ?_, ?_⟩
    · simp [ascii, quoted]
    · exact chars_of_plain (by decide)
    · have hfirst := (Elems.nil .nil).snoc (.inl ⟨rfl, rfl⟩) (.num (decimal_number x)) .nil
      have hboth := hfirst.snoc (.inr ⟨List.cons_ne_nil _ _, ascii " ", by decide, rfl⟩) (.num (decimal_number y)) .nil
      have h := Text.arr hboth
      simpa [ascii] using h
  | d_aux var val =>
    cases show_meta with
    | false =>
      exact of_meta (n := []) (u := []) (v := .num []) rfl (fun j => rfl) rfl fun h => absurd h Bool.false_ne_true
    | true =>
      obtain ⟨hvar, hval⟩ := hw rfl
      obtain ⟨hname, hchars⟩ := RdbVal.print_s_name fmt hvar
      obtain ⟨u, hu, htext⟩ := RdbVal.print_s_json hval
      refine of_meta rfl (fun j => rfl) rfl (u := u) fun _ => ⟨?_, hchars, htext⟩
      simp [hname, hu]
  | _ => cases hc

end Prints

/-- The callbacks that a run has on an output: whole keys, with what comes in front of them. -/
inductive Blocks : List Callback → Prop
  | nil : Blocks []
  | front {c calls} (hc : c.of_front = true) (h : Blocks calls) : Blocks (c :: calls)
  | key {type key calls} (hbad : type ≠ .RDB_BAD_TYPE) (hkey : Callback.Laid type key) (hone : Callback.OneFirst key)
      (h : Blocks calls) : Blocks (key ++ calls)

/-- Keys that are whole one behind the other. -/
theorem Blocks.append {calls calls' : List Callback} (h : Blocks calls) (h' : Blocks calls') :
    Blocks (calls ++ calls') := by
  induction h with
  | nil => exact h'
  | front hc _ ih => exact .front hc ih
  | key hbad hkey hone _ ih =>
    rw [List.append_assoc]
    exact .key hbad hkey hone ih

theorem Blocks.fronts {calls : List Callback} (h : ∀ c ∈ calls, c.of_front = true) : Blocks calls := by
  induction calls with
  | nil => exact .nil
  | cons c calls ih =>
    rw [List.forall_mem_cons] at h
    exact .front h.1 (ih h.2)

/-- What is printed of whole keys adds a member for each of them to the document. -/
theorem Blocks.prints {calls : List Callback} (h : Blocks calls) (hw : ∀ c ∈ calls, c.Writable fmt show_meta)
    (ms : List (List UInt8 × Json)) : ∃ ms', Prints fmt show_meta calls ms ms' ∧
      ms'.map Prod.fst = ms.map Prod.fst ++ calls.filterMap (Callback.member_name fmt show_meta) := by
  induction h generalizing ms with
  | nil => exact ⟨ms, .nil, (List.append_nil _).symm⟩
  | @front c calls hc _ ih =>
    rw [List.forall_mem_cons] at hw
    obtain ⟨ms', hfirst, hname⟩ := @Prints.of_front fmt show_meta ms c hc hw.1
    obtain ⟨ms'', hrest, hnames⟩ := ih hw.2 ms'
    refine ⟨ms'', hfirst.append hrest, ?_⟩
    rw [hnames, hname, List.append_assoc]
    refine congrArg (_ ++ ·) ?_
    cases hm : c.member_name fmt show_meta with
    | none => rw [List.filterMap_cons_none hm, Option.toList_none, List.nil_append]
    | some n => rw [List.filterMap_cons_some hm, Option.toList_some, List.singleton_append]
  | @key type key calls hbad hkey hone _ ih =>
    rw [List.forall_mem_append] at hw
    obtain ⟨n, v, hname, hfirst⟩ := @Prints.of_laid fmt show_meta type ms key hkey hbad hone hw.1
    obtain ⟨ms'', hrest, hnames⟩ := ih hw.2 _
    refine ⟨ms'', hfirst.append hrest, ?_⟩
    rw [hnames, List.filterMap_append, hname, List.map_append, List.append_assoc]
    rfl

end rdbparser
