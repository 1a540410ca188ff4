import Rdbparser.Decode.Layout
import Rdbparser.Json.Document

/-! The text of a key. -/

namespace rdbparser

open JsonText JsonString

section Commas

variable {fs : List Frame} {xs : List Json} {ms : List (List UInt8 × Json)} {v : Json} {t u n : List UInt8} {num : Nat}

theorem tab_eq (test : Bool) (s : List UInt8) (k : Nat) :
    tab test s k = (if test then s else []) ++ tab false [] k := rfl

theorem tab_space (k : Nat) : Space (tab false [] k) := by
  intro b hb
  obtain ⟨_, hmem, hb⟩ := List.mem_flatten.mp hb
  obtain rfl := List.eq_of_mem_replicate hmem
  have hspace : Space (ascii "  ") := by decide
  exact hspace b hb

theorem tab_first (s : List UInt8) (k : Nat) : tab (decide (0 ≠ 0)) s k = tab false [] k := rfl

theorem tab_comma {α : Type} {l : List α} (hl : l ≠ []) (k : Nat) : Sep l (ascii ",\n" ++ tab false [] k) := by
  refine .inr ⟨hl, 0x0a :: tab false [] k, fun b hb => ?_, rfl⟩
  rcases List.mem_cons.mp hb with rfl | hb
  · decide
  · exact tab_space k b hb

theorem tab_next {α : Type} {l : List α} (hl : l ≠ []) (hnum : num ≠ 0) (k : Nat) :
    Sep l (tab (decide (num ≠ 0)) (ascii ",\n") k) := by
  rw [tab_eq, decide_eq_true hnum]
  exact tab_comma hl k

/-- In front of an element there is a comma if it is not the first. -/
theorem in_arr_tab (h : InArr fs xs t) (hnum : num = 0 ↔ xs = []) (k : Nat) :
    ∃ t' sep, InArr fs xs t' ∧ Sep xs sep ∧ t ++ tab (decide (num ≠ 0)) (ascii ",\n") k = t' ++ sep := by
  by_cases hzero : num = 0
  · refine ⟨t ++ tab false [] k, [], h.space (tab_space k), .inl ⟨hnum.mp hzero, rfl⟩, ?_⟩
    rw [hzero, tab_first, List.append_nil]
  · exact ⟨t, _, h, tab_next (fun hxs => hzero (hnum.mpr hxs)) hzero k, rfl⟩

theorem tab_elem (h : InArr fs xs t) (hnum : num = 0 ↔ xs = []) {k : Nat} (hv : Text v u) :
    InArr fs (xs ++ [v]) (t ++ (tab (decide (num ≠ 0)) (ascii ",\n") k ++ u)) := by
  obtain ⟨t', sep, hin, hsep, heq⟩ := in_arr_tab h hnum k
  rw [← List.append_assoc, heq, List.append_assoc]
  exact hin.elem hsep hv

theorem tab_waiting (h : InArr fs xs t) (hnum : num = 0 ↔ xs = []) (k : Nat) :
    Waiting (.arr xs :: fs) (t ++ tab (decide (num ≠ 0)) (ascii ",\n") k) := by
  obtain ⟨t', sep, hin, hsep, heq⟩ := in_arr_tab h hnum k
  rw [heq]
  exact hin.next hsep

theorem tab_member (h : InObj fs ms t) (hnum : num = 0 ↔ ms = []) {k : Nat} (hn : chars n = true) (hv : Text v u) :
    InObj fs (ms ++ [(n, v)]) (t ++ (tab (decide (num ≠ 0)) (ascii ",\n") k ++ (quoted n ++ (ascii " : " ++ u)))) := by
  have hspace : Space (ascii " ") := by decide
  by_cases hzero : num = 0
  · rw [hzero, tab_first, ← List.append_assoc]
    exact (h.space (tab_space k)).member (.inl ⟨hnum.mp hzero, rfl⟩) hn hspace hspace hv
  · exact h.member (tab_next (fun hms => hzero (hnum.mpr hms)) hzero k) hn hspace hspace hv

end Commas

variable {fmt : Nat → List UInt8} {show_meta : Bool}

/-- The containers around what is in a key. -/
abbrev in_key (ms : List (List UInt8 × Json)) (n : List UInt8) : List Frame := [.obj ms n]

/-- The containers around what is in a group of a stream. -/
abbrev in_group (ms : List (List UInt8 × Json)) (n : List UInt8) (ns : List (List UInt8 × Json)) (xs : List Json) :
    List Frame :=
  .arr xs :: .obj ns (ascii "groups") :: in_key ms n

/-- The containers around what is in a consumer of a group. -/
abbrev in_cons (ms : List (List UInt8 × Json)) (n : List UInt8) (ns : List (List UInt8 × Json)) (xs : List Json)
    (gs : List (List UInt8 × Json)) (cs : List Json) : List Frame :=
  .arr cs :: .obj gs (ascii "consumers") :: in_group ms n ns xs

/-- A place in the text of the key `n`, behind the members `ms`, that is as far in it as the callbacks are. -/
inductive Fits (type : RdbType) (ms : List (List UInt8 × Json)) (n : List UInt8) : Stage → Pos → Prop
  | text : Fits type ms n .text (.due (in_key ms n))
  | arr {num xs} (hin : type.in_arr = true) (hnum : xs.length = num) : Fits type ms n (.elems num)
      (.arr (in_key ms n) xs)
  | obj {num ns} (hin : type.in_arr = false) (hnum : ns.length = num) : Fits type ms n (.elems num)
      (.obj (in_key ms n) ns)
  | nodes {prev xs} (hprev : prev = none ↔ xs = []) : Fits type ms n (.nodes prev) (.arr (in_key ms n) xs)
  | stream : Fits type ms n (.entries 0) (.obj (in_key ms n) [])
  | first_entry : Fits type ms n .first_entry (.arr (.obj [] (ascii "entries") :: in_key ms n) [])
  | entries {num xs} (hnum : xs.length = num + 1) :
    Fits type ms n (.entries (num + 1)) (.arr (.obj [] (ascii "entries") :: in_key ms n) xs)
  | info {num ns} (hns : ns ≠ []) : Fits type ms n (.info num) (.obj (in_key ms n) ns)
  | groups_due {cnt ns} (hns : ns ≠ []) : Fits type ms n (.groups_due cnt) (.obj (in_key ms n) ns)
  | groups {cnt num ns xs} (hnum : xs.length = num) :
    Fits type ms n (.groups cnt num) (.arr (.obj ns (ascii "groups") :: in_key ms n) xs)
  | pel_due {cnt num pending ns xs gs} (hnum : xs.length = num) (hgs : gs ≠ []) :
    Fits type ms n (.pel_due cnt num pending) (.obj (in_group ms n ns xs) gs)
  | pel {cnt num pending i ns xs gs es} (hnum : xs.length = num) (hi : es.length = i) :
    Fits type ms n (.pel cnt num pending i) (.arr (.obj gs (ascii "pel") :: in_group ms n ns xs) es)
  | consumers_due {cnt num ns xs gs} (hnum : xs.length = num) (hgs : gs ≠ []) :
    Fits type ms n (.consumers_due cnt num) (.obj (in_group ms n ns xs) gs)
  | first_consumer {cnt num ns xs gs} (hnum : xs.length = num) :
    Fits type ms n (.first_consumer cnt num) (.arr (.obj gs (ascii "consumers") :: in_group ms n ns xs) [])
  | consumers {cnt num ccnt cnum ns xs gs cs} (hnum : xs.length = num) (hcnum : cs.length = cnum) :
    Fits type ms n (.consumers cnt num ccnt cnum) (.arr (.obj gs (ascii "consumers") :: in_group ms n ns xs) cs)
  | cons_pel_due {cnt num ccnt cnum pending ns xs gs cs ds} (hnum : xs.length = num) (hcnum : cs.length = cnum)
      (hds : ds ≠ []) : Fits type ms n (.cons_pel_due cnt num ccnt cnum pending) (.obj (in_cons ms n ns xs gs cs) ds)
  | cons_pel {cnt num ccnt cnum pending i ns xs gs cs ds es} (hnum : xs.length = num) (hcnum : cs.length = cnum)
      (hi : es.length = i) :
    Fits type ms n (.cons_pel cnt num ccnt cnum pending i) (.arr (.obj ds (ascii "pel") :: in_cons ms n ns xs gs cs) es)
  | cons_end {cnt num ccnt cnum ns xs gs cs ds} (hnum : xs.length = num) (hcnum : cs.length = cnum) :
    Fits type ms n (.cons_end cnt num ccnt cnum) (.obj (in_cons ms n ns xs gs cs) ds)
  | group_end {cnt num ns xs gs} (hnum : xs.length = num) :
    Fits type ms n (.group_end cnt num) (.obj (in_group ms n ns xs) gs)
  | last_text {v} (htext : type.in_text = true) : Fits type ms n .last (.obj [] (ms ++ [(n, v)]))
  | last {ns} (htext : type.in_text = false) (hin : type.in_arr = false) : Fits type ms n .last (.obj (in_key ms n) ns)
  | stop {v} : Fits type ms n .stop (.obj [] (ms ++ [(n, v)]))

/-- The stages that a key of a type comes to. -/
def Stage.Of (type : RdbType) : Stage → Prop
  | .start | .stop | .last => True
  | .text => type.in_text = true
  | .elems _ => type.in_text = false
  | .nodes _ => type.in_text = false ∧ type.in_arr = true
  | _ => type.in_text = false ∧ type.in_arr = false

theorem Stage.of_first (type : RdbType) : (Stage.first type).Of type := by
  cases type <;> first | exact rfl | exact ⟨rfl, rfl⟩

theorem Stage.of_stream {type : RdbType} (h : type.in_text = false ∧ type.in_arr = false)
    (cnt num ccnt cnum pending : Nat) :
    (Stage.groups_or_last cnt).Of type ∧ (Stage.group cnt num pending).Of type ∧
      (Stage.cons cnt num ccnt cnum pending).Of type := by
  unfold Stage.groups_or_last Stage.group Stage.cons
  refine ⟨?_, ?_, ?_⟩ <;> split <;> first | exact h | trivial

/-- A key comes to no stage of another type. -/
theorem Stage.Of.step {type : RdbType} {g g' : Stage} {c : Callback} (h : g.Of type)
    (hstep : Stage.step type g c = some g') : g'.Of type := by
  unfold Stage.step at hstep
  split at hstep
  all_goals try split at hstep
  all_goals try split at hstep
  all_goals cases hstep
  all_goals first
    | exact h
    | trivial
    | exact Stage.of_first type
    | exact (Stage.of_stream h _ 0 0 0 0).1
    | exact (Stage.of_stream h _ _ 0 0 _).2.1
    | exact (Stage.of_stream h _ _ _ _ _).2.2

/-- What has been written behind the last place, and belongs in front of the next member. -/
def Stage.sep : Stage → List UInt8
  | .info _ => ascii ",\n"
  | _ => []

/-- A callback puts out text that says what it stands for. -/
def Callback.Spells (fmt : Nat → List UInt8) (show_meta : Bool) (c : Callback) (p q : Pos) (sep sep' : List UInt8) :
    Prop :=
  c.put fmt show_meta p = some q ∧ ∀ j : JsonOutput, j.show_meta = show_meta → ∃ u, j.callback fmt c = some (u, j) ∧
    ∀ t, p.Spells t → ∃ t', q.Spells t' ∧ t ++ sep ++ u = t' ++ sep'

/-- The calls that have a number in the type are those of elements of an array, or those of members of an object. -/
theorem elem_num_elems {type : RdbType} {c : Callback} {num : Nat} (h : c.elem_num type = some num) :
    (type.in_arr = true ∧ ∃ cnt v, c = .d_list num cnt v ∨ c = .d_set num cnt v) ∨
      (type.in_arr = false ∧ ∃ cnt x v, c = .d_hash num cnt x v ∨ c = .d_zset num cnt x v) := by
  cases c with
  | d_list i cnt v =>
    left
    cases type <;> cases h <;> exact ⟨rfl, cnt, v, .inl rfl⟩
  | d_set i cnt v =>
    left
    cases type <;> cases h <;> exact ⟨rfl, cnt, v, .inr rfl⟩
  | d_hash i cnt x v =>
    right
    cases type <;> cases h <;> exact ⟨rfl, cnt, x, v, .inl rfl⟩
  | d_zset i cnt x v =>
    right
    cases type <;> cases h <;> exact ⟨rfl, cnt, x, v, .inr rfl⟩
  | _ => cases h

namespace Callback.Spells

variable {fs : List Frame} {xs : List Json} {ms : List (List UInt8 × Json)} {n : List UInt8} {num : Nat}

/-- A callback that does not depend on what was written before. -/
theorem of_text {c : Callback} {p q : Pos} {sep sep' u : List UInt8} (hput : c.put fmt show_meta p = some q)
    (hcall : ∀ j : JsonOutput, j.callback fmt c = some (u, j))
    (htext : ∀ t, p.Spells t → ∃ t', q.Spells t' ∧ t ++ sep ++ u = t' ++ sep') : c.Spells fmt show_meta p q sep sep' :=
  ⟨hput, fun j _ => ⟨u, hcall j, htext⟩⟩

/-- An element is a value more in the array, with a separator in front of all but the first. -/
theorem elem {c : Callback} {cnt : Nat} {v : RdbVal} (hc : c = .d_list num cnt v ∨ c = .d_set num cnt v)
    (hnum : num = 0 ↔ xs = []) (hv : v.Writable fmt) :
    c.Spells fmt show_meta (.arr fs xs) (.arr fs (xs ++ [v.json fmt])) [] [] := by
  obtain ⟨u, hu, htext⟩ := RdbVal.print_s_json hv
  refine of_text (u := tab (decide (num ≠ 0)) (ascii ",\n") 1 ++ u) ?_ ?_ fun t ht => ⟨_, ?_, (List.append_nil _).symm⟩
  · rcases hc with rfl | rfl <;> rfl
  · intro j
    rcases hc with rfl | rfl <;>
      simp [JsonOutput.callback, JsonOutput.d_list, JsonOutput.d_set, JsonOutput.d_elem, hu]
  · rw [List.append_nil]
    exact tab_elem ht hnum htext

/-- A pair is a member more in the object of its value, with a separator in front of all but the first. -/
theorem pair {c : Callback} {cnt : Nat} {x v : RdbVal} (hc : c = .d_hash num cnt x v ∨ c = .d_zset num cnt x v)
    (hnum : num = 0 ↔ ms = []) (hx : x.NameWritable) (hv : v.Writable fmt) :
    c.Spells fmt show_meta (.obj fs ms) (.obj fs (ms ++ [(x.name, v.json fmt)])) [] [] := by
  obtain ⟨hname, hchars⟩ := RdbVal.print_s_name fmt hx
  obtain ⟨u, hu, htext⟩ := RdbVal.print_s_json hv
  refine of_text (u := tab (decide (num ≠ 0)) (ascii ",\n") 1 ++ (quoted x.name ++ (ascii " : " ++ u))) ?_ ?_
    fun t ht => ⟨_, ?_, (List.append_nil _).symm⟩
  · rcases hc with rfl | rfl <;> rfl
  · intro j
    rcases hc with rfl | rfl <;>
      simp [JsonOutput.callback, JsonOutput.d_hash, JsonOutput.d_zset, JsonOutput.d_pair, hname, hu]
  · rw [List.append_nil]
    exact tab_member ht hnum hchars htext

/-- A string or a module is the value of its key. -/
theorem value {c : Callback} {v : RdbVal} (hc : c = .d_string v ∨ c = .d_module v) (hv : v.Writable fmt) :
    c.Spells fmt show_meta (.due (.obj ms n :: fs)) (.obj fs (ms ++ [(n, v.json fmt)])) [] [] := by
  obtain ⟨u, hu, htext⟩ := RdbVal.print_s_json hv
  refine of_text (u := u) ?_ ?_ fun t ht => ⟨_, ?_, (List.append_nil _).symm⟩
  · rcases hc with rfl | rfl <;> rfl
  · intro j
    rcases hc with rfl | rfl <;> simp [JsonOutput.callback, hu]
  · rw [List.append_nil]
    exact Waiting.value ht htext

theorem list_name_chars (c : StreamPart) : chars c.list_name = true := by
  refine chars_of_plain ?_
  cases c <;> decide

/-- The start of a list of a stream; there is a comma in front if it is not the first member. -/
theorem start_of {c : StreamPart} {l s a : List UInt8} (hl : Space l) (hs : Sep ms s)
    (ha : Space a) (hc : JsonOutput.d_stream_start c = l ++ (s ++ (quoted c.list_name ++ (ascii " : [" ++ a)))) :
    (Callback.d_stream_start c).Spells fmt show_meta (.obj fs ms) (.arr (.obj ms c.list_name :: fs) []) [] [] := by
  refine of_text rfl (fun j => congrArg (fun u => some (u, j)) hc) fun t ht => ⟨_, ?_, (List.append_nil _).symm⟩
  have hopen := ((InObj.space ht hl).next hs (list_name_chars c) (a := ascii " ") (b := ascii " ") (by decide)
    (by decide)).open_arr ha
  simpa [ascii, Pos.Spells] using hopen

theorem start_entries : (Callback.d_stream_start .STREAM_ENTRY_LIST).Spells fmt show_meta (.obj fs [])
    (.arr (.obj [] (ascii "entries") :: fs) []) [] [] :=
  start_of (l := ascii "  ") (s := []) (a := ascii "\n") (by decide) (.inl ⟨rfl, rfl⟩) (by decide) rfl

/-- A list of groups, pending entries or consumers is opened as a member of what it belongs to. -/
theorem start_list {c : StreamPart} (hc : c ∈ [.STREAM_GROUP_LIST, .STREAM_PENDING_LIST, .STREAM_CONSUMER_LIST,
    .STREAM_CONSUMER_PENDING_LIST]) (hms : ms ≠ []) :
    (Callback.d_stream_start c).Spells fmt show_meta (.obj fs ms) (.arr (.obj ms c.list_name :: fs) []) [] [] := by
  have htext : ∃ k, JsonOutput.d_stream_start c =
      ascii ",\n" ++ (tab false [] k ++ (quoted c.list_name ++ (ascii " : [" ++ ascii "\n"))) := by
    simp only [List.mem_cons, List.not_mem_nil, or_false] at hc
    rcases hc with rfl | rfl | rfl | rfl
    · exact ⟨1, rfl⟩
    · exact ⟨2, rfl⟩
    · exact ⟨3, rfl⟩
    · exact ⟨4, rfl⟩
  obtain ⟨k, htext⟩ := htext
  refine start_of (l := []) (a := ascii "\n") .nil (tab_comma hms k) (by decide) ?_
  rw [htext, List.nil_append, List.append_assoc]

theorem end_entries : (Callback.d_stream_end .STREAM_ENTRY_LIST).Spells fmt show_meta (.arr (.obj ms n :: fs) xs)
    (.obj fs (ms ++ [(n, .arr xs)])) [] (ascii ",\n") := by
  refine of_text rfl (fun j => rfl) fun t ht => ⟨t ++ ascii " " ++ [0x5d], ?_, ?_⟩
  · exact InArr.close_member (InArr.space ht (by decide))
  · simp [JsonOutput.d_stream_end, ascii]

/-- A list of a stream is closed and is the value of its member. -/
theorem end_list {c : StreamPart} (hc : c ∈ [.STREAM_GROUP_LIST, .STREAM_PENDING_LIST, .STREAM_CONSUMER_LIST,
    .STREAM_CONSUMER_PENDING_LIST]) : (Callback.d_stream_end c).Spells fmt show_meta (.arr (.obj ms n :: fs) xs)
    (.obj fs (ms ++ [(n, .arr xs)])) [] [] := by
  have htext : JsonOutput.d_stream_end c = ascii " ]" := by
    simp only [List.mem_cons, List.not_mem_nil, or_false] at hc
    rcases hc with rfl | rfl | rfl | rfl <;> rfl
  refine of_text rfl (fun j => congrArg (fun u => some (u, j)) htext) fun t ht => ⟨t ++ ascii " " ++ [0x5d], ?_, ?_⟩
  · exact InArr.close_member (InArr.space ht (by decide))
  · simp [ascii]

theorem end_record {c : StreamPart} (hc : c = .STREAM_GROUP ∨ c = .STREAM_CONSUMER) :
    (Callback.d_stream_end c).Spells fmt show_meta (.obj (.arr xs :: fs) ms) (.arr fs (xs ++ [.obj ms])) [] [] := by
  have htext : JsonOutput.d_stream_end c = ascii " \x7d" := by
    rcases hc with rfl | rfl <;> rfl
  refine of_text rfl (fun j => congrArg (fun u => some (u, j)) htext) fun t ht => ⟨t ++ ascii " " ++ [0x7d], ?_, ?_⟩
  · exact InObj.close_elem (InObj.space ht (by decide))
  · simp [ascii]

/-- A member behind others, on the same line or the next. -/
theorem member_of {t a u : List UInt8} {v : Json} (h : InObj fs ms t) (hms : ms ≠ []) (ha : Space a) (hn : Plain n)
    (hv : Text v u) : InObj fs (ms ++ [(n, v)]) (t ++ (ascii "," ++ (a ++ (quoted n ++ (ascii " : " ++ u))))) :=
  h.member (.inr ⟨hms, a, ha, rfl⟩) (chars_of_plain hn) (a := ascii " ") (b := ascii " ") (by decide) (by decide) hv

theorem text_decimal (n : Nat) : Text (.num (decimal n)) (decimal n) := .num (decimal_number n)

theorem text_rec_id (id : RdbStreamRecId) : Text id.json (quoted (rec_id_text id.ms id.ser)) := .str (rec_id_chars _ _)

/-- The info about a stream adds its members to the object, behind the entries if there are any. -/
theorem info (last : RdbStreamRecId) (num_elems num_cgroups entry_cnt : Nat) {sep : List UInt8}
    (hsep : ms = [] ∧ sep = [] ∨ ms ≠ [] ∧ sep = ascii ",\n") :
    (Callback.d_stream_info last num_elems num_cgroups entry_cnt).Spells fmt show_meta (.obj fs ms)
      (.obj fs (ms ++ [(ascii "last_id", last.json)] ++ [(ascii "num_elems", .num (decimal num_elems))] ++
        [(ascii "num_cgroups", .num (decimal num_cgroups))])) sep [] := by
  refine of_text rfl (fun j => rfl) fun t ht => ⟨_, ?_, (List.append_nil _).symm⟩
  have hfirst : InObj fs (ms ++ [(ascii "last_id", last.json)])
      (t ++ sep ++ (ascii "  \"last_id\" : " ++ quoted (rec_id_text last.ms last.ser))) := by
    rcases hsep with ⟨rfl, rfl⟩ | ⟨hms, rfl⟩
    · have h := tab_member ht (iff_of_true (rfl : 0 = 0) rfl) (k := 1) (n := ascii "last_id")
        (chars_of_plain (by decide)) (text_rec_id last)
      simpa [tab_eq (decide _), tab, ascii, quoted] using h
    · have h := member_of ht hms (a := ascii "\n  ") (n := ascii "last_id") (by decide) (by decide) (text_rec_id last)
      simpa [ascii, quoted] using h
  have h := member_of hfirst (List.append_ne_nil_of_right_ne_nil _ (List.cons_ne_nil _ _)) (a := ascii "\n  ")
    (n := ascii "num_elems") (by decide) (by decide) (text_decimal num_elems)
  have h := member_of h (List.append_ne_nil_of_right_ne_nil _ (List.cons_ne_nil _ _)) (a := ascii "\n  ")
    (n := ascii "num_cgroups") (by decide) (by decide) (text_decimal num_cgroups)
  simpa [JsonOutput.d_stream_info, ascii, quoted, Pos.Spells] using h

/-- A field or value of an entry is printed as JSON, as a string or a number. -/
theorem lval_text {v : RdbVal} (h : v.PlainVal) : ∃ u, JsonOutput.lval_text v = some u ∧ Text v.lval_json u := by
  cases v with
  | int i => exact ⟨_, rfl, .num (int_text_number i)⟩
  | str s =>
    refine ⟨quoted s, ?_, .str (chars_of_plain h.2)⟩
    rw [JsonOutput.lval_text, printf_s_plain h.1 h.2]
    rfl
  | nil | dbl => exact absurd h id

/-- The name of a field is printed in quotes. -/
theorem field_text {f : RdbVal} (h : f.PlainVal) :
    JsonOutput.field_text f = some (quoted f.field_name) ∧ Plain f.field_name := by
  cases f with
  | int i => exact ⟨rfl, int_text_plain i⟩
  | str s =>
    refine ⟨?_, h.2⟩
    rw [JsonOutput.field_text, JsonOutput.lval_text, printf_s_plain h.1 h.2]
    · rfl
    · exact fun _ h => RdbVal.noConfusion h
  | nil | dbl => exact absurd h id

/-- The fields of an entry behind other members. -/
theorem fields_text (fs : List Frame) {fields : List (RdbVal × RdbVal)}
    (hfields : ∀ f ∈ fields, f.1.PlainVal ∧ f.2.PlainVal) (i : Nat) :
    ∃ u, JsonOutput.fields_text (i + 1) fields = some u ∧ ∀ (ms : List (List UInt8 × Json)) (t : List UInt8), ms ≠ [] →
      InObj fs ms t → InObj fs (ms ++ fields.map fun f => (f.1.field_name, f.2.lval_json)) (t ++ u) := by
  induction fields generalizing i with
  | nil => exact ⟨[], rfl, fun ms t _ h => by simpa using h⟩
  | cons f fields ih =>
    rw [List.forall_mem_cons] at hfields
    obtain ⟨hname, hplain⟩ := field_text hfields.1.1
    obtain ⟨u, hu, htext⟩ := lval_text hfields.1.2
    obtain ⟨w, hw, hrest⟩ := ih hfields.2 (i + 1)
    refine ⟨_, by simp only [JsonOutput.fields_text, hname, hu, hw, Option.bind_eq_bind, Option.bind_some]; rfl, ?_⟩
    intro ms t hms h
    have hmember := member_of h hms (a := ascii " ") (by decide) hplain htext
    simpa [ascii] using hrest _ _ (List.append_ne_nil_of_right_ne_nil _ (List.cons_ne_nil _ _)) hmember

theorem fields_text_succ (fields : List (RdbVal × RdbVal)) (i : Nat) :
    JsonOutput.fields_text (i + 1) fields = JsonOutput.fields_text 1 fields := by
  induction fields generalizing i with
  | nil => rfl
  | cons f fields ih => simp [JsonOutput.fields_text, ih (i + 1), ih 1]

/-- The comma in front of all fields of an entry is the one behind its id. -/
theorem fields_text_comma {fields : List (RdbVal × RdbVal)} (hne : fields ≠ []) :
    JsonOutput.fields_text 1 fields = (JsonOutput.fields_text 0 fields).map (ascii ", " ++ ·) := by
  cases fields with
  | nil => exact absurd rfl hne
  | cons f fields =>
    simp only [JsonOutput.fields_text, fields_text_succ fields 1]
    cases JsonOutput.field_text f.1 <;> cases JsonOutput.lval_text f.2 <;> cases JsonOutput.fields_text 1 fields <;>
      simp

/-- The first member of an object that is opened where a value is due. -/
theorem open_member {t u : List UInt8} {v : Json} (h : Waiting fs t) (hn : Plain n) (hv : Text v u) :
    InObj fs [(n, v)] (t ++ (ascii "\x7b " ++ (quoted n ++ (ascii " : " ++ u)))) := by
  have hopen := (h.open_obj (a := ascii " ") (by decide)).member (.inl ⟨rfl, rfl⟩) (chars_of_plain hn) (a := ascii " ")
    (b := ascii " ") (by decide) (by decide) hv
  simpa [ascii] using hopen

/-- An entry of a stream is an object more in the list of entries. It needs a field, as one without fields would leave
a comma behind. -/
theorem entry (cnt : Nat) (id diff : RdbStreamRecId) (flags : Nat) {fields : List (RdbVal × RdbVal)} (hne : fields ≠ [])
    (hfields : ∀ f ∈ fields, f.1.PlainVal ∧ f.2.PlainVal) (hnum : num = 0 ↔ xs = []) :
    (Callback.d_stream_entry num cnt id diff flags fields).Spells fmt show_meta (.arr fs xs)
      (.arr fs (xs ++ [.obj ((ascii "id",
        RdbStreamRecId.json ⟨(id.ms + diff.ms) % 2 ^ 64, (id.ser + diff.ser) % 2 ^ 64⟩) ::
        fields.map fun f => (f.1.field_name, f.2.lval_json))])) [] [] := by
  obtain ⟨w, hw, hrest⟩ := fields_text (.arr xs :: fs) hfields 0
  rw [fields_text_comma hne] at hw
  obtain ⟨u, hu, rfl⟩ := Option.map_eq_some_iff.mp hw
  refine of_text (u := tab (decide (num ≠ 0)) (ascii ",\n") 2 ++
    (ascii "\x7b " ++ (quoted (ascii "id") ++ (ascii " : " ++
    quoted (rec_id_text ((id.ms + diff.ms) % 2 ^ 64) ((id.ser + diff.ser) % 2 ^ 64))))) ++
      (ascii ", " ++ u) ++ ascii " \x7d")
    rfl (fun j => ?_) fun t ht => ⟨_, ?_, (List.append_nil _).symm⟩
  · simp [JsonOutput.callback, JsonOutput.d_stream_entry, hu, ascii, quoted]
  · have hid := open_member (tab_waiting ht hnum 2) (n := ascii "id") (by decide)
      (text_rec_id ⟨(id.ms + diff.ms) % 2 ^ 64, (id.ser + diff.ser) % 2 ^ 64⟩)
    have hall := ((hrest _ _ (List.cons_ne_nil _ _) hid).space (a := ascii " ") (by decide)).close_elem
    simpa [ascii, Pos.Spells] using hall

theorem name_text {v : RdbVal} (h : v.PlainStr) :
    JsonOutput.name_text v = some v.bytes ∧ Text (.str v.bytes) (quoted v.bytes) := by
  cases v with
  | str s =>
    refine ⟨?_, .str (chars_of_plain h.2)⟩
    rw [JsonOutput.name_text, printf_s_plain h.1 h.2, RdbVal.bytes]
  | nil | int | dbl => exact absurd h id

/-- A group opens an object in the list of groups, with its name and what is said of it. -/
theorem group (cnt pending_cnt : Nat) {gname : RdbVal} (last : RdbStreamRecId) (hname : gname.PlainStr)
    (hnum : num = 0 ↔ xs = []) :
    (Callback.d_stream_group num cnt gname pending_cnt last).Spells fmt show_meta (.arr fs xs)
      (.obj (.arr xs :: fs) [(ascii "group", .str gname.bytes), (ascii "pending", .num (decimal pending_cnt)),
        (ascii "last_id", last.json)]) [] [] := by
  obtain ⟨hprint, htext⟩ := name_text hname
  refine of_text (u := tab (decide (num ≠ 0)) (ascii ",\n") 2 ++
    (ascii "\x7b " ++ (quoted (ascii "group") ++ (ascii " : " ++
    quoted gname.bytes))) ++ (ascii "," ++
      (ascii " " ++ (quoted (ascii "pending") ++ (ascii " : " ++ decimal pending_cnt)))) ++
    (ascii "," ++ (ascii " " ++ (quoted (ascii "last_id") ++ (ascii " : " ++ quoted (rec_id_text last.ms last.ser))))))
    rfl (fun j => ?_) fun t ht => ⟨_, ?_, (List.append_nil _).symm⟩
  · simp [JsonOutput.callback, JsonOutput.d_stream_group, hprint, ascii, quoted]
  · have h := open_member (tab_waiting ht hnum 2) (n := ascii "group") (by decide) htext
    have h := member_of h (List.cons_ne_nil _ _) (a := ascii " ") (n := ascii "pending") (by decide) (by decide)
      (text_decimal pending_cnt)
    have h := member_of h (List.cons_ne_nil _ _) (a := ascii " ") (n := ascii "last_id") (by decide) (by decide)
      (text_rec_id last)
    simpa [ascii, Pos.Spells] using h

/-- A consumer opens one in the list of consumers. -/
theorem cons (cnt pend_cnt last_seen : Nat) {cname : RdbVal} (hname : cname.PlainStr) (hnum : num = 0 ↔ xs = []) :
    (Callback.d_stream_cons num cnt cname pend_cnt last_seen).Spells fmt show_meta (.arr fs xs)
      (.obj (.arr xs :: fs) [(ascii "name", .str cname.bytes), (ascii "pending", .num (decimal pend_cnt)),
        (ascii "last_seen", .num (decimal last_seen))]) [] [] := by
  obtain ⟨hprint, htext⟩ := name_text hname
  refine of_text (u := tab (decide (num ≠ 0)) (ascii ",\n") 4 ++
    (ascii "\x7b " ++ (quoted (ascii "name") ++ (ascii " : " ++
    quoted cname.bytes))) ++ (ascii "," ++
      (ascii " " ++ (quoted (ascii "pending") ++ (ascii " : " ++ decimal pend_cnt)))) ++
    (ascii "," ++ (ascii " " ++ (quoted (ascii "last_seen") ++ (ascii " : " ++ decimal last_seen)))))
    rfl (fun j => ?_) fun t ht => ⟨_, ?_, (List.append_nil _).symm⟩
  · simp [JsonOutput.callback, JsonOutput.d_stream_cons, hprint, ascii, quoted]
  · have h := open_member (tab_waiting ht hnum 4) (n := ascii "name") (by decide) htext
    have h := member_of h (List.cons_ne_nil _ _) (a := ascii " ") (n := ascii "pending") (by decide) (by decide)
      (text_decimal pend_cnt)
    have h := member_of h (List.cons_ne_nil _ _) (a := ascii " ") (n := ascii "last_seen") (by decide) (by decide)
      (text_decimal last_seen)
    simpa [ascii, Pos.Spells] using h

/-- A pending entry is an object more in the list of them. -/
theorem pend (cnt : Nat) (id : RdbStreamRecId) (last_delivery delivery_cnt : Nat) (hnum : num = 0 ↔ xs = []) :
    (Callback.d_stream_pend num cnt id last_delivery delivery_cnt).Spells fmt show_meta (.arr fs xs)
      (.arr fs (xs ++ [.obj [(ascii "id", id.json), (ascii "last_d", .num (decimal last_delivery)),
        (ascii "d_cnt", .num (decimal delivery_cnt))]])) [] [] := by
  refine of_text rfl (fun j => rfl) fun t ht => ⟨_, ?_, (List.append_nil _).symm⟩
  have h := open_member (tab_waiting ht hnum 4) (n := ascii "id") (by decide) (text_rec_id id)
  have h := member_of h (List.cons_ne_nil _ _) (a := ascii " ") (n := ascii "last_d") (by decide) (by decide)
    (text_decimal last_delivery)
  have h := member_of h (List.cons_ne_nil _ _) (a := ascii " ") (n := ascii "d_cnt") (by decide) (by decide)
    (text_decimal delivery_cnt)
  have h := (h.space (a := ascii " ") (by decide)).close_elem
  simpa [JsonOutput.d_stream_pend, ascii, quoted, Pos.Spells] using h

theorem cons_pend (cnt : Nat) (id : RdbStreamRecId) (hnum : num = 0 ↔ xs = []) :
    (Callback.d_stream_cons_pend num cnt id).Spells fmt show_meta (.arr fs xs) (.arr fs (xs ++ [id.json])) [] [] := by
  refine of_text rfl (fun j => rfl) fun t ht => ⟨_, ?_, (List.append_nil _).symm⟩
  have h := tab_elem ht hnum (k := 5) (text_rec_id id)
  simpa [JsonOutput.d_stream_cons_pend, ascii, quoted, Pos.Spells] using h

theorem end_text {type : RdbType} (htext : type.in_text = true) (p : Pos) :
    (Callback.d_end_key type).Spells fmt show_meta p p [] [] := by
  have hend : JsonOutput.d_end_key type = [] := by cases type <;> first | rfl | exact Bool.noConfusion htext
  refine of_text ?_ (fun j => congrArg (fun u => some (u, j)) hend) fun t ht => ⟨t, ht, by simp⟩
  rw [Callback.put, if_pos htext]

/-- The end of a list or a set closes its array. -/
theorem end_arr {type : RdbType} (htext : type.in_text = false) (hin : type.in_arr = true) :
    (Callback.d_end_key type).Spells fmt show_meta (.arr (.obj ms n :: fs) xs)
      (.obj fs (ms ++ [(n, .arr xs)])) [] [] := by
  have hend : JsonOutput.d_end_key type = ascii "\n]" := by cases type <;> first | rfl | exact Bool.noConfusion hin
  refine of_text ?_ (fun j => congrArg (fun u => some (u, j)) hend) fun t ht => ⟨t ++ ascii "\n" ++ [0x5d], ?_, ?_⟩
  · rw [Callback.put, htext]
    rfl
  · exact InArr.close_member (InArr.space ht (by decide))
  · simp [ascii]

/-- The end of a hash or a sorted set closes its object. -/
theorem end_obj {type : RdbType} {ns : List (List UInt8 × Json)} (hbad : type ≠ .RDB_BAD_TYPE)
    (htext : type.in_text = false) (hin : type.in_arr = false) :
    (Callback.d_end_key type).Spells fmt show_meta (.obj (.obj ms n :: fs) ns)
      (.obj fs (ms ++ [(n, .obj ns)])) [] [] := by
  have hend : JsonOutput.d_end_key type = ascii "\n\x7d" := by
    cases type <;> first | rfl | exact absurd rfl hbad | exact Bool.noConfusion htext | exact Bool.noConfusion hin
  refine of_text ?_ (fun j => congrArg (fun u => some (u, j)) hend) fun t ht => ⟨t ++ ascii "\n" ++ [0x7d], ?_, ?_⟩
  · rw [Callback.put, htext]
    rfl
  · exact InObj.close_member (InObj.space ht (by decide))
  · simp [ascii]

end Callback.Spells

end rdbparser
