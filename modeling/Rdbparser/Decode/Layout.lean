import Rdbparser.Decode.Trace
import Rdbparser.Proc.Reaches

namespace rdbparser

open RdbDecode

/-- How far the callbacks of a key have come. A list of a stream is known by the count that was announced for it and
the number of its next member. -/
inductive Stage
  | start
  | text
  | elems (num : Nat)
  | nodes (prev : Option Nat)
  | entries (num : Nat)
  | first_entry
  | info (num : Nat)
  | groups_due (cnt : Nat)
  | groups (cnt num : Nat)
  | pel_due (cnt num pending : Nat)
  | pel (cnt num pending i : Nat)
  | consumers_due (cnt num : Nat)
  | first_consumer (cnt num : Nat)
  | consumers (cnt num ccnt cnum : Nat)
  | cons_pel_due (cnt num ccnt cnum pending : Nat)
  | cons_pel (cnt num ccnt cnum pending i : Nat)
  | cons_end (cnt num ccnt cnum : Nat)
  | group_end (cnt num : Nat)
  | last
  | stop
  deriving DecidableEq, Repr

/-- The number of an element of a list, set, hash or sorted set, for the callback that belongs to its type. -/
def Callback.elem_num (type : RdbType) : Callback → Option Nat
  | .d_list num _ _ =>
    match type with
    | .RDB_LIST | .RDB_LIST_ZIPLIST | .RDB_LIST_QUICKLIST | .RDB_LIST_QUICKLIST_2 => some num
    | _ => none
  | .d_set num _ _ =>
    match type with
    | .RDB_SET | .RDB_SET_INTSET => some num
    | _ => none
  | .d_zset num _ _ _ =>
    match type with
    | .RDB_ZSET | .RDB_ZSET_2 | .RDB_ZSET_ZIPLIST | .RDB_ZSET_LISTPACK => some num
    | _ => none
  | .d_hash num _ _ _ =>
    match type with
    | .RDB_HASH | .RDB_HASH_ZIPMAP | .RDB_HASH_ZIPLIST | .RDB_HASH_LISTPACK => some num
    | _ => none
  | _ => none

/-- The number that an element of a quicklist may have behind the last one: the next, or the same again. -/
def follows : Option Nat → Nat → Bool
  | none, num => num = 0
  | some prev, num => num = prev || num = prev + 1

namespace Stage

/-- Behind the start of a key. -/
def first : RdbType → Stage
  | .RDB_STRING | .RDB_MODULE | .RDB_MODULE_2 => .text
  | .RDB_LIST_QUICKLIST | .RDB_LIST_QUICKLIST_2 => .nodes none
  | .RDB_STREAM_LISTPACK | .RDB_STREAM_LISTPACKS_2 => .entries 0
  | _ => .elems 0

/-- Behind the name of a group and its last id. -/
def group (cnt num pending : Nat) : Stage := if pending = 0 then .consumers_due cnt num else .pel_due cnt num pending

/-- Behind the name of a consumer. -/
def cons (cnt num ccnt cnum pending : Nat) : Stage :=
  if pending = 0 then .cons_end cnt num ccnt cnum else .cons_pel_due cnt num ccnt cnum pending

/-- Where a key may end. -/
def ends : Stage → Bool
  | .elems _ | .nodes _ | .last => true
  | _ => false

/-- Behind the information about a stream. -/
def groups_or_last (cnt : Nat) : Stage := if cnt = 0 then .last else .groups_due cnt

/-- The callbacks that make up a key of a type, one after the other. -/
def step (type : RdbType) : Stage → Callback → Option Stage
  | g, .d_end_key t => if g.ends ∧ t = type then some .stop else none
  | .start, .d_start_key t _ => if t = type then some (first type) else none
  | .text, .d_string _ => if type = .RDB_STRING then some .last else none
  | .text, .d_module _ => if type = .RDB_MODULE ∨ type = .RDB_MODULE_2 then some .last else none
  | .elems num, c => if c.elem_num type = some num then some (.elems (num + 1)) else none
  | .nodes prev, c =>
    match c.elem_num type with
    | some num => if follows prev num then some (.nodes (some num)) else none
    | none => none
  | .entries 0, .d_stream_start .STREAM_ENTRY_LIST => some .first_entry
  | .first_entry, .d_stream_entry 0 _ _ _ _ _ => some (.entries 1)
  | .entries (n + 1), .d_stream_entry num _ _ _ _ _ => if num = n + 1 then some (.entries (n + 2)) else none
  | .entries (n + 1), .d_stream_end .STREAM_ENTRY_LIST => some (.info (n + 1))
  | .entries 0, .d_stream_info _ _ cnt entry_cnt => if entry_cnt = 0 then some (groups_or_last cnt) else none
  | .info n, .d_stream_info _ _ cnt entry_cnt => if entry_cnt = n then some (groups_or_last cnt) else none
  | .groups_due cnt, .d_stream_start .STREAM_GROUP_LIST => some (.groups cnt 0)
  | .groups cnt num, .d_stream_group i n _ pending _ => if i = num ∧ n = cnt then some (group cnt num pending) else none
  | .pel_due cnt num pending, .d_stream_start .STREAM_PENDING_LIST => some (.pel cnt num pending 0)
  | .pel cnt num pending i, .d_stream_pend j n _ _ _ =>
    if j = i ∧ n = pending then some (.pel cnt num pending (i + 1)) else none
  | .pel cnt num pending i, .d_stream_end .STREAM_PENDING_LIST =>
    if i = pending then some (.consumers_due cnt num) else none
  | .consumers_due cnt num, .d_stream_end .STREAM_GROUP => some (.groups cnt (num + 1))
  | .consumers_due cnt num, .d_stream_start .STREAM_CONSUMER_LIST => some (.first_consumer cnt num)
  | .first_consumer cnt num, .d_stream_cons 0 ccnt _ pending _ => some (cons cnt num ccnt 0 pending)
  | .consumers cnt num ccnt cnum, .d_stream_cons i n _ pending _ =>
    if i = cnum ∧ n = ccnt then some (cons cnt num ccnt cnum pending) else none
  | .cons_pel_due cnt num ccnt cnum pending, .d_stream_start .STREAM_CONSUMER_PENDING_LIST =>
    some (.cons_pel cnt num ccnt cnum pending 0)
  | .cons_pel cnt num ccnt cnum pending i, .d_stream_cons_pend j n _ =>
    if j = i ∧ n = pending then some (.cons_pel cnt num ccnt cnum pending (i + 1)) else none
  | .cons_pel cnt num ccnt cnum pending i, .d_stream_end .STREAM_CONSUMER_PENDING_LIST =>
    if i = pending then some (.cons_end cnt num ccnt cnum) else none
  | .cons_end cnt num ccnt cnum, .d_stream_end .STREAM_CONSUMER => some (.consumers cnt num ccnt (cnum + 1))
  | .consumers cnt num ccnt cnum, .d_stream_end .STREAM_CONSUMER_LIST =>
    if cnum = ccnt then some (.group_end cnt num) else none
  | .group_end cnt num, .d_stream_end .STREAM_GROUP => some (.groups cnt (num + 1))
  | .groups cnt num, .d_stream_end .STREAM_GROUP_LIST => if num = cnt then some .last else none
  | _, _ => none

end Stage

/-- The callbacks of a key of a type: from its start to its end, nothing missing in between. -/
def Callback.Laid (type : RdbType) (calls : List Callback) : Prop :=
  calls.foldlM (Stage.step type) .start = some .stop

instance (type : RdbType) (calls : List Callback) : Decidable (Callback.Laid type calls) :=
  inferInstanceAs (Decidable (_ = _))

namespace Stage

theorem step_elems {type : RdbType} {num : Nat} {c : Callback} (h : c.elem_num type = some num) :
    step type (.elems num) c = some (.elems (num + 1)) := by
  cases c <;> exact if_pos h

/-- An element of a node follows the one before, or has its number again where a node has ended. -/
theorem step_nodes {type : RdbType} {prev : Option Nat} {num : Nat} {c : Callback} (h : c.elem_num type = some num)
    (hnum : follows prev num = true) : step type (.nodes prev) c = some (.nodes (some num)) := by
  have hstep : step type (.nodes prev) c =
      match c.elem_num type with
      | some num => if follows prev num then some (.nodes (some num)) else none
      | none => none := by
    cases c <;> first | rfl | cases h
  rw [hstep, h]
  exact if_pos hnum

/-- Neither where a key starts or stops, nor behind an element of a quicklist. -/
def inner : Stage → Bool
  | .start | .stop | .nodes (some _) => false
  | _ => true

theorem first_inner (type : RdbType) : (first type).inner = true := by cases type <;> rfl

theorem group_inner (cnt num pending : Nat) : (group cnt num pending).inner = true := by
  unfold group
  split <;> rfl

theorem cons_inner (cnt num ccnt cnum pending : Nat) : (cons cnt num ccnt cnum pending).inner = true := by
  unfold cons
  split <;> rfl

theorem groups_or_last_inner (cnt : Nat) : (groups_or_last cnt).inner = true := by
  unfold groups_or_last
  split <;> rfl

/-- Where a call leads: only `d_end_key` leads to the stop, and only behind an element of a quicklist is its number
    kept. Every other call leads to an inner stage, whatever it carries and whatever the type of the key is. -/
theorem step_inner {type : RdbType} {g g' : Stage} {c : Callback} (h : step type g c = some g') :
    g'.inner = true ∨ (c = .d_end_key type ∧ g' = .stop) ∨
      ∃ prev num, g = .nodes prev ∧ c.elem_num type = some num ∧ g' = .nodes (some num) := by
  unfold step at h
  split at h
  any_goals split at h
  all_goals try cases h
  all_goals try
    first
      | exact .inl rfl
      | exact .inl (first_inner _)
      | exact .inl (group_inner _ _ _)
      | exact .inl (cons_inner _ _ _ _ _)
      | exact .inl (groups_or_last_inner _)
  -- the two calls with a stage of their own are left: the end of the key, and an element of a quicklist
  · next hend => exact .inr (.inl ⟨by rw [hend.2], rfl⟩)
  · next hnum =>
    split at h
    · cases h
      exact .inr (.inr ⟨_, _, rfl, hnum, rfl⟩)
    · cases h

/-- A key ends with `d_end_key` only. -/
theorem step_stop {type : RdbType} {g : Stage} {c : Callback} (h : step type g c = some .stop) :
    c = .d_end_key type := by
  rcases step_inner h with hin | ⟨hc, -⟩ | ⟨_, _, -, -, hg⟩
  · exact Bool.noConfusion hin
  · exact hc
  · exact Stage.noConfusion hg

/-- No call leads back to where the key has not started. -/
theorem step_ne_start {type : RdbType} {g g' : Stage} {c : Callback} (h : step type g c = some g') : g' ≠ .start := by
  rintro rfl
  rcases step_inner h with hin | ⟨-, hg⟩ | ⟨_, _, -, -, hg⟩
  · exact Bool.noConfusion hin
  · exact Stage.noConfusion hg
  · exact Stage.noConfusion hg

end Stage

/-- `x` takes the callbacks of a key of a type further. -/
abbrev Lays {α : Type} (type : RdbType) (x : DecodeProc α) (G : Stage → Prop) (Q : α → Stage → Prop) : Prop :=
  x.Reaches (fun s => s.dec.type = type ∧ s.dec.out.isSome = true) (fun g e => Stage.step type g e.call) G Q

namespace Lays

variable {α : Type} {E : Env} {type : RdbType} {G : Stage → Prop} {g g' : Stage}

/-- A computation that sends nothing stays where it is. -/
theorem of_quiet {x : DecodeProc α} (hx : x.Follows (Sends fun _ => false)) : Lays type x G fun _ => G := by
  refine .quiet fun s a t o hs hrun => ?_
  have h := hx s
  rw [hrun] at h
  have hdec : t.dec = s.dec := h.1
  refine ⟨hdec ▸ hs, ?_⟩
  cases o with
  | nil => rfl
  | cons e o => exact absurd (h.2 e List.mem_cons_self).2 Bool.false_ne_true

/-- A call goes where its step leads. -/
theorem call_of {c : Callback} {G' : Stage → Prop} (h : ∀ g, G g → ∃ g', Stage.step type g c = some g' ∧ G' g') :
    Lays type (DecodeProc.call c) G fun _ => G' := by
  intro s a t o g hs hg hrun
  obtain ⟨d, hd⟩ := Option.isSome_iff_exists.mp hs.2
  rw [DecodeProc.call, Proc.emit_run, hd] at hrun
  obtain ⟨-, rfl, rfl⟩ := Run.mk.inj hrun
  obtain ⟨g', hstep, hg'⟩ := h g hg
  refine ⟨hs, g', ?_, hg'⟩
  rw [List.foldlM_cons, hstep]
  rfl

theorem call {c : Callback} (h : Stage.step type g c = some g') :
    Lays type (DecodeProc.call c) (· = g) fun _ => (· = g') :=
  call_of fun _ hg => ⟨g', hg ▸ h, rfl⟩

theorem decode (l : RdbLength) : Lays type (DecodeProc.decode l) G fun _ => G := of_quiet (Sends.decode l)

theorem incr (n : Nat) : Lays type (DecodeProc.incr n) G fun _ => G := of_quiet (Sends.incr n)

theorem consume (l : RdbLength) : Lays type (DecodeProc.consume E l) G fun _ => G := of_quiet (Sends.consume l)

theorem decode_rlen : Lays type (RdbDecode.decode_rlen E .empty) G fun _ => G :=
  of_quiet (Sends.steps.decode_rlen _)

theorem start_key : Lays type RdbDecode.start_key (· = .start) fun _ => (· = .first type) := by
  rintro s a t o _ ⟨htype, hout⟩ rfl hrun
  rw [start_key_run] at hrun
  obtain ⟨-, rfl, rfl⟩ := Run.mk.inj hrun
  refine ⟨⟨htype, rfl⟩, _, ?_, rfl⟩
  rw [List.foldlM_cons, htype, Stage.step, if_pos rfl]
  rfl

theorem end_key (h : ∀ g, G g → g.ends = true) : Lays type RdbDecode.end_key G fun _ => (· = .stop) := by
  refine .read_bind fun s hs => call_of fun g hg => ⟨_, ?_, rfl⟩
  rw [hs.1, Stage.step, if_pos ⟨h g hg, rfl⟩]

/-! Elements that are counted. -/

theorem call_elem {num : Nat} {c : Callback} (h : c.elem_num type = some num) :
    Lays type (DecodeProc.call c) (· = .elems num) fun _ => (· = .elems (num + 1)) :=
  call (Stage.step_elems h)

theorem count {body : Nat → DecodeProc Unit}
    (hbody : ∀ i, Lays type (body i) (· = .elems i) fun _ => (· = .elems (i + 1))) (n : Nat) :
    Lays type (Proc.count body 0 n) (· = .elems 0) fun _ g => ∃ num, g = .elems num :=
  (Proc.Reaches.count hbody 0 n).mono (fun _ h => h) fun _ _ h => ⟨_, h⟩

/-- Elements one after the other, as many as the length says, between the start of the key and its end. -/
theorem decode_elems {elem : Nat → Nat → DecodeProc Unit} (hfirst : Stage.first type = .elems 0)
    (helem : ∀ cnt i, Lays type (elem cnt i) (· = .elems i) fun _ => (· = .elems (i + 1))) :
    Lays type (RdbDecode.decode_elems elem) (· = .start) fun _ => (· = .stop) := by
  refine .bind start_key fun _ => ?_
  rw [hfirst]
  refine .read_bind fun s _ => .bind (count (helem _) _) fun _ => end_key ?_
  rintro _ ⟨num, rfl⟩
  rfl

/-- A zipmap hands out its pairs with the numbers from `num` on, however many turns are left. -/
theorem zipmap_loop (cnt fuel num : Nat) (hptr : RdbBufptr) :
    Lays .RDB_HASH_ZIPMAP (RdbDecode.zipmap_loop cnt fuel num hptr) (· = .elems num) fun _ g => ∃ n, g = .elems n := by
  induction fuel generalizing num hptr with
  | zero => exact .pure fun _ h => ⟨num, h⟩
  | succ fuel ih =>
    have hincr : ∀ (hptr : RdbBufptr) n, Lays .RDB_HASH_ZIPMAP (RdbDecode.local_incr hptr n) (· = .elems num)
        fun _ => (· = .elems num) := fun hptr n => of_quiet (Sends.buf.local_incr hptr n)
    have hlen : ∀ (hptr : RdbBufptr) n, Lays .RDB_HASH_ZIPMAP (RdbDecode.zipmap_len hptr n) (· = .elems num)
        fun _ => (· = .elems num) := fun hptr n => of_quiet (Sends.buf.zipmap_len hptr n)
    refine .ite (fun _ => .pure fun _ h => ⟨num, h⟩) fun _ => .bind (hincr _ _) fun _ => ?_
    refine .ite (fun _ => .pure fun _ h => ⟨num, h⟩) fun _ => .bind (hlen _ _) fun _ => ?_
    refine .bind (hincr _ _) fun _ => .bind (hincr _ _) fun _ => .bind (hlen _ _) fun _ => ?_
    refine .bind (hincr _ _) fun _ => .bind (hincr _ _) fun _ => .bind (call_elem rfl) fun _ => ih _ _

/-- The elements of a list are sent with the numbers from `num` on. -/
theorem list_loop {next : RdbListValue → Bool × RdbListValue} {base : Ptr} {cnt : Nat}
    (hfirst : ∀ n v, (Callback.d_list n cnt v).elem_num type = some n) (fuel num : Nat) (lval : RdbListValue) :
    Lays type (RdbDecode.list_loop next base cnt fuel num lval) (· = .elems num) fun _ g => ∃ n, g = .elems n := by
  induction fuel generalizing num lval with
  | zero => exact .pure fun _ h => ⟨num, h⟩
  | succ fuel ih =>
    refine .bind (call_elem (hfirst _ _)) fun _ => ?_
    exact .ite (fun _ => ih _ _) fun _ => .pure fun _ h => ⟨num + 1, h⟩

/-- So are pairs. -/
theorem pair_loop {next : RdbListValue → Bool × RdbListValue} {base : Ptr} {d_pair : Nat → RdbVal → RdbVal → Callback}
    (hpair : ∀ n x y, (d_pair n x y).elem_num type = some n) (fuel num : Nat) (lval : RdbListValue) :
    Lays type (RdbDecode.pair_loop next base d_pair fuel num lval) (· = .elems num) fun _ g => ∃ n, g = .elems n := by
  induction fuel generalizing num lval with
  | zero => exact .pure fun _ h => ⟨num, h⟩
  | succ fuel ih =>
    refine .ite (fun _ => .bind (call_elem (hpair _ _ _)) fun _ => ?_) fun _ => .pure fun _ h => ⟨num, h⟩
    exact .ite (fun _ => ih _ _) fun _ => .pure fun _ h => ⟨num + 1, h⟩

/-! Elements of the nodes of a quicklist. -/

/-- An element with the number `num` may be next. -/
def AtNode (num : Nat) (g : Stage) : Prop := ∃ prev, g = .nodes prev ∧ follows prev num = true

/-- The elements of one node of a quicklist, numbered from where the node starts. -/
theorem node_loop {next : RdbListValue → Bool × RdbListValue} {base : Ptr}
    (hfirst : ∀ n v, (Callback.d_list n 0 v).elem_num type = some n) (fuel num : Nat) (lval : RdbListValue) :
    Lays type (RdbDecode.list_loop next base 0 fuel num lval) (AtNode num) AtNode := by
  have hcall : ∀ num v, Lays type (DecodeProc.call (.d_list num 0 v)) (AtNode num) fun _ =>
    (· = .nodes (some num)) := by
    refine fun num v => call_of ?_
    rintro _ ⟨prev, rfl, hnum⟩
    exact ⟨_, Stage.step_nodes (hfirst num v) hnum, rfl⟩
  induction fuel generalizing num lval with
  | zero => exact .pure fun _ h => h
  | succ fuel ih =>
    refine .bind (hcall _ _) fun _ => .ite (fun _ => ?_) fun _ => .pure ?_
    · refine (ih (num + 1) _).mono ?_ fun _ _ h => h
      rintro _ rfl
      exact ⟨some num, rfl, by simp [follows]⟩
    · rintro _ rfl
      exact ⟨some num, rfl, by simp [follows]⟩

theorem decode_quicklist_node (num : Nat) :
    Lays .RDB_LIST_QUICKLIST (RdbDecode.decode_quicklist_node E num) (AtNode num) AtNode := by
  refine .bind (decode {}) fun _ => .bind (consume _) fun _ => ?_
  split
  · exact .ret _
  · exact .ite (fun _ => node_loop (fun _ _ => rfl) _ _ _) fun _ => .pure fun _ h => h

theorem decode_quicklist_2_node (num : Nat) :
    Lays .RDB_LIST_QUICKLIST_2 (RdbDecode.decode_quicklist_2_node E num) (AtNode num) AtNode := by
  refine .bind (decode {}) fun _ => .bind (decode {}) fun _ => .bind (consume _) fun _ =>
    .ite (fun _ => ?_) fun _ => .ret _
  split
  · exact .ret _
  · exact .ite (fun _ => node_loop (fun _ _ => rfl) _ _ _) fun _ => .pure fun _ h => h

/-- The nodes of a quicklist between the start of the key and its end. -/
theorem nodes {node : Nat → DecodeProc Nat} (hfirst : Stage.first type = .nodes none)
    (hnode : ∀ num, Lays type (node num) (AtNode num) AtNode) :
    Lays type (do
      RdbDecode.start_key
      let s ← Proc.read
      let _ ← Proc.times s.dec.rlen.len node 0
      RdbDecode.end_key) (· = .start) fun _ => (· = .stop) := by
  refine .bind start_key fun _ => .read_bind fun s _ => ?_
  rw [hfirst]
  have htimes := Proc.Reaches.times (Q := fun _ => AtNode) (fun _ => hnode) 0 s.dec.rlen.len 0
  refine .bind (htimes.mono ?_ fun _ _ h => h) fun _ => end_key ?_
  · rintro _ rfl
    exact ⟨none, rfl, rfl⟩
  · rintro _ ⟨prev, rfl, -⟩
    rfl

/-! The parts of a stream. -/

/-- A list of a part of the stream: nothing if it is empty, else its start, its elements and its end. -/
theorem stream_list {part : StreamPart} {cnt : Nat} {elem : Nat → DecodeProc Unit} {due D : Stage} {A : Nat → Stage}
    (hnone : cnt = 0 → due = D) (hstart : cnt ≠ 0 → Stage.step type due (.d_stream_start part) = some (A 0))
    (helem : ∀ i, Lays type (elem i) (· = A i) fun _ => (· = A (i + 1)))
    (hend : cnt ≠ 0 → Stage.step type (A cnt) (.d_stream_end part) = some D) :
    Lays type (RdbDecode.stream_list part cnt elem) (· = due) fun _ => (· = D) := by
  refine .ite (fun hcnt => ?_) fun hcnt => ?_
  · have hcount := Proc.Reaches.count helem 0 cnt
    rw [Nat.zero_add] at hcount
    refine .bind (call (hstart hcnt)) fun _ => .bind hcount fun _ => ?_
    rw [if_pos hcnt]
    exact call (hend hcnt)
  · obtain rfl := not_not.mp hcnt
    exact .pure fun _ h => h.trans (hnone rfl)

theorem stream_pend (cnt num pending i : Nat) :
    Lays type (RdbDecode.stream_pend pending i) (· = .pel cnt num pending i) fun _ =>
      (· = .pel cnt num pending (i + 1)) :=
  .bind (incr _) fun _ => .bind (incr _) fun _ => .bind (decode {}) fun _ => call (if_pos ⟨rfl, rfl⟩)

theorem stream_cons_pend (cnt num ccnt cnum pending i : Nat) :
    Lays type (RdbDecode.stream_cons_pend pending i) (· = .cons_pel cnt num ccnt cnum pending i)
      fun _ => (· = .cons_pel cnt num ccnt cnum pending (i + 1)) :=
  .bind (incr _) fun _ => call (if_pos ⟨rfl, rfl⟩)

/-- In front of a consumer; how many there are is known from the first one on. -/
def at_cons (cnt num ccnt cnum : Nat) : Stage :=
  if cnum = 0 then .first_consumer cnt num else .consumers cnt num ccnt cnum

theorem step_cons (cnt num ccnt cnum pending last_seen : Nat) (cname : RdbVal) :
    Stage.step type (at_cons cnt num ccnt cnum) (.d_stream_cons cnum ccnt cname pending last_seen) =
      some (.cons cnt num ccnt cnum pending) := by
  cases cnum with
  | zero => rfl
  | succ cnum => exact if_pos ⟨rfl, rfl⟩

/-- A consumer, with its pending entries, between two of the list. -/
theorem stream_cons (cnt num ccnt cnum : Nat) :
    Lays type (RdbDecode.stream_cons E ccnt cnum) (· = at_cons cnt num ccnt cnum)
      fun _ => (· = at_cons cnt num ccnt (cnum + 1)) := by
  refine .bind (of_quiet Sends.steps.stream_name) fun _ => .bind (incr _) fun _ => .bind (decode {}) fun cpend => ?_
  refine .bind (call (step_cons _ _ _ _ _ _ _)) fun _ => .bind (stream_list (D := .cons_end cnt num ccnt cnum)
    (A := .cons_pel cnt num ccnt cnum cpend.len) ?_ ?_ (stream_cons_pend _ _ _ _ _) ?_) fun _ => call rfl
  · exact fun h => if_pos h
  · intro h
    rw [Stage.cons, if_neg h]
    rfl
  · exact fun _ => if_pos rfl

/-- Behind the consumers of a group. -/
def cons_done (cnt num ccnt : Nat) : Stage := if ccnt = 0 then .consumers_due cnt num else .group_end cnt num

theorem step_group_end (cnt num ccnt : Nat) :
    Stage.step type (cons_done cnt num ccnt) (.d_stream_end .STREAM_GROUP) = some (.groups cnt (num + 1)) := by
  unfold cons_done
  split <;> rfl

/-- In front of a group. -/
def AtGroup (cnt i : Nat) (b : Nat × RdbLength) (g : Stage) : Prop := b.1 = i ∧ g = .groups cnt i

/-- One group: its start with the number of its pending entries, these, its consumers, and its end. -/
theorem stream_group (t : RdbType) (cnt i : Nat) (b : Nat × RdbLength) :
    Lays type (RdbDecode.stream_group E t cnt b) (AtGroup cnt i b) (AtGroup cnt (i + 1)) := by
  obtain ⟨num, group_off⟩ := b
  refine .of_fact fun hnum => ?_
  obtain rfl : num = i := hnum
  refine .bind (of_quiet Sends.steps.stream_name) fun gname => .bind (decode {}) fun last_ms => ?_
  refine .bind (decode {}) fun last_ser => ?_
  have hrest : ∀ group_off : RdbLength, Lays type (do
      let pend_cnt ← DecodeProc.decode {}
      DecodeProc.call (.d_stream_group num cnt gname pend_cnt.len ⟨last_ms.len, last_ser.len⟩)
      RdbDecode.stream_list .STREAM_PENDING_LIST pend_cnt.len (RdbDecode.stream_pend pend_cnt.len)
      let cons_cnt ← DecodeProc.decode {}
      RdbDecode.stream_list .STREAM_CONSUMER_LIST cons_cnt.len (RdbDecode.stream_cons E cons_cnt.len)
      DecodeProc.call (.d_stream_end .STREAM_GROUP)
      pure (num + 1, group_off)) (· = .groups cnt num) (AtGroup cnt (num + 1)) := by
    refine fun group_off => .bind (decode {}) fun pend_cnt => .bind (call (if_pos ⟨rfl, rfl⟩)) fun _ => ?_
    refine .bind (stream_list (D := .consumers_due cnt num) (A := .pel cnt num pend_cnt.len) ?_ ?_
      (stream_pend _ _ _) ?_) fun _ => .bind (decode {}) fun cons_cnt => ?_
    · exact fun h => if_pos h
    · intro h
      rw [Stage.group, if_neg h]
      rfl
    · exact fun _ => if_pos rfl
    · refine .bind (stream_list (D := cons_done cnt num cons_cnt.len) (A := at_cons cnt num cons_cnt.len) ?_ ?_
        (stream_cons _ _ _) ?_) fun _ => .bind (call (step_group_end _ _ _)) fun _ => .pure fun _ h => ⟨rfl, h⟩
      · exact fun h => (if_pos h).symm
      · exact fun _ => rfl
      · intro h
        rw [at_cons, if_neg h, cons_done, if_neg h]
        exact if_pos rfl
  exact .ite (fun _ => .bind (decode _) hrest) fun _ => .bind (.pure fun _ h => h) hrest

/-- An entry of a stream moves the number of the next one on by one. -/
theorem stream_entry (e : RdbStreamEntry) (base : Ptr) :
    Lays type (RdbDecode.stream_entry e base) (· = .entries e.num) fun _ => (· = .entries (e.num + 1)) := by
  unfold RdbDecode.stream_entry
  cases e.pairs base with
  | none =>
    refine .ite (fun hnum => ?_) fun _ => .ret _
    rw [hnum]
    exact .bind (call rfl) fun _ => .ret _
  | some pairs =>
    refine .ite (fun hnum => ?_) fun hnum => ?_
    · rw [hnum]
      exact .bind (call rfl) fun _ => call rfl
    · obtain ⟨n, hn⟩ := Nat.exists_eq_succ_of_ne_zero hnum
      rw [hn]
      exact call (if_pos rfl)

/-- The entries of one listpack, by induction on how many of them are still counted. -/
theorem stream_entries (list : RdbListPack) (n : Nat) (e : RdbStreamEntry) (lval : RdbListValue) :
    Lays type (RdbDecode.stream_entries list n e lval) (· = .entries e.num) fun e => (· = .entries e.num) := by
  induction n generalizing e lval with
  | zero => exact .pure fun _ h => h
  | succ n ih =>
    unfold RdbDecode.stream_entries
    split
    · exact .ret _
    · exact .ret _
    · next hentry =>
      have hnum := congrArg Prod.fst (RdbStreamEntry.read_entry_head hentry)
      change _ = e.num at hnum
      rw [← hnum]
      exact .ite (fun _ => .bind (stream_entry _ _) fun _ => ih _ _) fun _ => ih _ _

/-- One node, from the numbers that the ones before have left. -/
theorem stream_block (e : RdbStreamEntry) (r : RdbStreamRecId × Ptr × Nat) :
    Lays type (RdbDecode.stream_block e r) (· = .entries e.num) fun e => (· = .entries e.num) := by
  unfold RdbDecode.stream_block
  split
  · exact .pure fun _ h => h
  · split
    · exact .ret _
    · exact .ret _
    · next hheader =>
      have hnum := congrArg Prod.fst (RdbStreamEntry.read_header_head hheader)
      change _ = e.num at hnum
      rw [← hnum]
      exact stream_entries _ _ _ _

theorem stream_node (e : RdbStreamEntry) :
    Lays type (RdbDecode.stream_node E e) (· = .entries e.num) fun e => (· = .entries e.num) :=
  .bind (.recode _ (of_quiet Sends.steps.stream_lp)) fun r => stream_block e r

/-- Where the information about a stream is due, behind so many entries. -/
def AtInfo (num : Nat) (g : Stage) : Prop := num = 0 ∧ g = .entries 0 ∨ g = .info num

theorem step_info {num : Nat} (h : AtInfo num g) (last : RdbStreamRecId) (num_elems cnt : Nat) :
    Stage.step type g (.d_stream_info last num_elems cnt num) = some (.groups_or_last cnt) := by
  rcases h with ⟨rfl, rfl⟩ | rfl
  · rfl
  · exact if_pos rfl

/-- What is stored behind the nodes, up to the last call in front of the end of the key. -/
theorem stream_trailer (type' : RdbType) (num : Nat) :
    Lays type (RdbDecode.stream_trailer E type' num) (· = .entries num) fun _ => (· = .last) := by
  have hgroups : ∀ (n : Nat) (g : Stage), (n ≠ 0 → g = .groups n 0) → (¬ n ≠ 0 → g = .last) → Lays type (do
      let _ ← Proc.times n (RdbDecode.stream_group E type' n) (0, {})
      if n ≠ 0 then DecodeProc.call (.d_stream_end .STREAM_GROUP_LIST)) (· = g) fun _ => (· = .last) := by
    intro n g hopen hnone
    by_cases hn : n ≠ 0
    · have hgroup : ∀ i b, Lays type (RdbDecode.stream_group E type' n b) (AtGroup n i b) (AtGroup n (i + 1)) :=
        stream_group type' n
      have htimes := Proc.Reaches.times hgroup 0 n (0, {})
      refine .bind (htimes.mono ?_ fun _ _ h => h.2) fun _ => ?_
      · rintro _ rfl
        exact ⟨rfl, hopen hn⟩
      · rw [if_pos hn, Nat.zero_add]
        exact call (if_pos rfl)
    · rw [hnone hn]
      obtain rfl := not_not.mp hn
      exact .bind (Q := fun _ => (· = .last)) (.pure fun _ h => h) fun _ => .pure fun _ h => h
  have hinfo : Lays type (do
      let r ← RdbDecode.stream_info type'
      DecodeProc.call (.d_stream_info r.2.1 r.1 r.2.2 num)
      if r.2.2 ≠ 0 then DecodeProc.call (.d_stream_start .STREAM_GROUP_LIST)
      let _ ← Proc.times r.2.2 (RdbDecode.stream_group E type' r.2.2) (0, {})
      if r.2.2 ≠ 0 then DecodeProc.call (.d_stream_end .STREAM_GROUP_LIST)) (AtInfo num) fun _ => (· = .last) := by
    refine .bind (of_quiet (Sends.buf.stream_info _)) fun r => ?_
    refine .bind (Q := fun _ => (· = .groups_or_last r.2.2)) (call_of ?_) fun _ => ?_
    · exact fun g hg => ⟨_, step_info hg _ _ _, rfl⟩
    refine .ite (fun hn => ?_) fun hn => ?_
    · rw [Stage.groups_or_last, if_neg hn]
      exact .bind (call rfl) fun _ => hgroups _ _ (fun _ => rfl) fun h => absurd hn h
    · rw [Stage.groups_or_last, if_pos (not_not.mp hn)]
      exact hgroups _ _ (fun h => absurd h hn) fun _ => rfl
  refine .ite (fun hnum => ?_) fun hnum => ?_
  · obtain ⟨n, hn⟩ := Nat.exists_eq_succ_of_ne_zero hnum
    refine .bind (Q := fun _ => AtInfo num) (call_of ?_) fun _ => hinfo
    rintro _ rfl
    rw [hn]
    exact ⟨_, rfl, .inr rfl⟩
  · refine hinfo.mono ?_ fun _ _ h => h
    rintro _ rfl
    rw [not_not.mp hnum]
    exact .inl ⟨rfl, rfl⟩

/-- A stream from the start of its key to the end, through all of its parts. -/
theorem stream_parts (hfirst : Stage.first type = .entries 0) :
    Lays type (RdbDecode.stream_parts E) (· = .start) fun _ => (· = .stop) := by
  have hnodes : Lays type (RdbDecode.stream_nodes E) (· = .start) fun e => (· = .entries e.num) := by
    refine .bind start_key fun _ => .read_bind fun s _ => ?_
    rw [hfirst]
    exact Proc.Reaches.times (Q := fun _ (e : RdbStreamEntry) (g : Stage) => g = .entries e.num)
      (fun _ => stream_node) 0 _ {}
  refine .bind hnodes fun e => .read_bind fun s _ => ?_
  refine .bind (.recode _ (.bind (stream_trailer _ _) fun _ => end_key ?_)) fun _ => .pure fun _ h => h
  rintro _ rfl
  rfl

/-- The decoder of a type goes from the start of a key to its end. -/
theorem decode_type (hstream : type ≠ .RDB_STREAM_LISTPACK ∧ type ≠ .RDB_STREAM_LISTPACKS_2) :
    Lays type (RdbDecode.decode_type E type) (· = .start) fun _ => (· = .stop) := by
  have hpairs : ∀ {d_pair : Nat → RdbVal → RdbVal → Callback} (next : RdbListValue →
      Bool × RdbListValue) base fuel lval,
      (∀ n x y, (d_pair n x y).elem_num type = some n) → Lays type (do
        RdbDecode.pair_loop next base d_pair fuel 0 lval
        RdbDecode.end_key) (· = .elems 0) fun _ => (· = .stop) := by
    intro d_pair next base fuel lval hpair
    refine .bind (pair_loop hpair _ _ _) fun _ => end_key ?_
    rintro _ ⟨num, rfl⟩
    rfl
  have hend : Lays type RdbDecode.end_key (· = .elems 0) fun _ => (· = .stop) := by
    refine end_key ?_
    rintro _ rfl
    rfl
  have hlast : Lays type RdbDecode.end_key (· = .last) fun _ => (· = .stop) := by
    refine end_key ?_
    rintro _ rfl
    rfl
  cases type with
  | RDB_STREAM_LISTPACK => exact absurd rfl hstream.1
  | RDB_STREAM_LISTPACKS_2 => exact absurd rfl hstream.2
  | RDB_BAD_TYPE => exact .ret _
  | RDB_STRING =>
    exact .bind start_key fun _ => .read_bind fun _ _ => .bind (of_quiet (Sends.buf.decode_str _ _)) fun _ =>
      .bind (call rfl) fun _ => hlast
  | RDB_MODULE | RDB_MODULE_2 =>
    refine .read_bind fun _ _ => .ite (fun _ => .ret _) fun _ => .bind start_key fun _ => .bind (call rfl) fun _ => ?_
    refine .bind hlast fun _ => .quiet ?_
    rintro s a t o hs ⟨⟩
    exact ⟨hs, rfl⟩
  | RDB_LIST => exact decode_elems rfl fun _ _ => .bind decode_rlen fun _ => call_elem rfl
  | RDB_SET => exact decode_elems rfl fun _ _ => .bind decode_rlen fun _ => call_elem rfl
  | RDB_HASH =>
    exact decode_elems rfl fun _ _ => .bind decode_rlen fun _ => .bind decode_rlen fun _ => call_elem rfl
  | RDB_ZSET | RDB_ZSET_2 =>
    refine .bind start_key fun _ => .read_bind fun s hs => .bind (count (fun i => ?_) _) fun _ => end_key ?_
    · exact .bind decode_rlen fun _ => .bind (of_quiet (Sends.buf.decode_score _)) fun _ => call_elem rfl
    · rintro _ ⟨num, rfl⟩
      rfl
  | RDB_HASH_ZIPMAP =>
    refine .bind start_key fun _ => .read_bind fun _ _ => .bind (incr _) fun _ => ?_
    dsimp only
    split
    all_goals
      refine .bind (zipmap_loop _ _ _ _) fun _ => end_key ?_
      rintro _ ⟨num, rfl⟩
      rfl
  | RDB_SET_INTSET =>
    refine .bind start_key fun _ => .bind (incr _) fun _ => .ite (fun _ => .ret _) fun _ => .bind (incr _) fun _ => ?_
    refine .bind (count (fun _ => call_elem rfl) _) fun _ => end_key ?_
    rintro _ ⟨num, rfl⟩
    rfl
  | RDB_LIST_ZIPLIST =>
    refine .bind start_key fun _ => .read_bind fun s hs => .bind (incr _) fun _ => ?_
    rw [hs.1]
    split
    · exact .ret _
    · refine .ite (fun _ => .bind (list_loop (fun _ _ => rfl) _ _ _) fun _ => end_key ?_) fun _ => hend
      rintro _ ⟨num, rfl⟩
      rfl
  | RDB_ZSET_ZIPLIST | RDB_HASH_ZIPLIST =>
    refine .bind start_key fun _ => .read_bind fun s hs => .bind (incr _) fun _ => ?_
    rw [hs.1]
    split
    · exact .ret _
    · exact .ite (fun _ => hpairs _ _ _ _ fun _ _ _ => rfl) fun _ => hend
  | RDB_HASH_LISTPACK | RDB_ZSET_LISTPACK =>
    refine .bind start_key fun _ => .read_bind fun s hs => .bind (incr _) fun _ => ?_
    rw [hs.1]
    split
    · exact .ret _
    · exact .ite (fun _ => hpairs _ _ _ _ fun _ _ _ => rfl) fun _ => hend
  | RDB_LIST_QUICKLIST => exact nodes rfl decode_quicklist_node
  | RDB_LIST_QUICKLIST_2 => exact nodes rfl decode_quicklist_2_node

end Lays

variable {E : Env}

/-- What has gone through has the callbacks of a key, one after the other. -/
theorem Lays.laid {α : Type} {x : DecodeProc α} {type : RdbType}
    (h : Lays type x (· = .start) fun _ => (· = .stop)) {s t : St}
    {a : α} {o : List Event} (htype : s.dec.type = type) (hout : s.dec.out.isSome = true)
    (hrun : x s = ⟨.ok a, t, o⟩) :
    Callback.Laid type (o.map Event.call) := by
  obtain ⟨-, g', hfold, rfl⟩ := h s a t o _ ⟨htype, hout⟩ rfl hrun
  rwa [Callback.Laid, List.foldlM_map]

/-- The last callback of a key is its end. -/
theorem Callback.Laid.end_key {type : RdbType} {calls : List Callback} (h : Laid type calls) :
    .d_end_key type ∈ calls := by
  cases calls using List.reverseRecOn with
  | nil => cases h
  | append_singleton cs c =>
    rw [Laid, List.foldlM_append, Option.bind_eq_bind, Option.bind_eq_some_iff] at h
    obtain ⟨g, -, hlast⟩ := h
    rw [List.foldlM_cons, Option.bind_eq_bind, Option.bind_eq_some_iff] at hlast
    obtain ⟨g', hstep, hg'⟩ := hlast
    obtain rfl : g' = .stop := Option.some.inj hg'
    exact Stage.step_stop hstep ▸ List.mem_append_right _ (List.mem_singleton_self _)

/-- `start_key` sets the output, whatever it was. -/
theorem decode_type_out {type : RdbType} {s t : St} {o : List Event}
    (hstream : type ≠ .RDB_STREAM_LISTPACK ∧ type ≠ .RDB_STREAM_LISTPACKS_2)
    (hrun : decode_type E type s = ⟨.ok (), t, o⟩) :
    decode_type E type { s with dec.out := some .data_out } = ⟨.ok (), t, o⟩ := by
  cases type with
  | RDB_STREAM_LISTPACK => exact absurd rfl hstream.1
  | RDB_STREAM_LISTPACKS_2 => exact absurd rfl hstream.2
  | RDB_BAD_TYPE => cases hrun
  | RDB_MODULE | RDB_MODULE_2 =>
    rw [decode_type, decode_module, Proc.read_bind_run] at hrun ⊢
    dsimp only at hrun ⊢
    split
    · next hlen =>
      rw [if_pos hlen] at hrun
      cases hrun
    · next hlen =>
      rw [if_neg hlen] at hrun
      exact (Proc.bind_congr_run (start_key_run s) _).trans hrun
  | _ => exact (Proc.bind_congr_run (start_key_run s) _).trans hrun

/-- A stream that is left at a name is started, and not ended. -/
theorem stream_parts_not_end {s t : St} {err : RdbErrCode} {o : List Event}
    (hparts : stream_parts E s = ⟨.error err, t, o⟩) (type : RdbType) : .d_end_key type ∉ o.map Event.call := by
  intro hmem
  obtain ⟨e, he, hcall⟩ := List.mem_map.mp hmem
  rcases (stream_parts_framed (E := E) (C := Callback.of_value) fun _ h => h).run s with
    ⟨_, hrun⟩ | ⟨o', t', ho, ⟨_, start, hrun, hstart⟩ | ⟨_, _, _, hrun, -, -⟩⟩
  · obtain ⟨-, -, rfl⟩ := Run.mk.inj (hparts.symm.trans hrun)
    cases he
  · obtain ⟨-, -, rfl⟩ := Run.mk.inj (hparts.symm.trans hrun)
    rcases List.mem_cons.mp he with rfl | he
    · rw [hcall] at hstart
      cases hstart
    · have hvalue := ho e he
      rw [hcall] at hvalue
      cases hvalue
  · cases hparts.symm.trans hrun

/-- Where a name is cut, the end of the key is missing. -/
theorem St.NameUnread.not_end {s t : St} {o : List Event} (h : s.NameUnread E) (hrun : decode_body E s = ⟨.ok (), t, o⟩)
    (type : RdbType) : .d_end_key type ∉ o.map Event.call := by
  have hstream : decode_stream E s = ⟨.ok (), t, o⟩ := by
    rw [← hrun, decode_body, Proc.read_bind_run]
    rcases h.1 with htype | htype <;> rw [htype, decode_type]
  rw [name_unread_iff hstream h.1] at h
  rcases decode_stream_cases hstream with hparts | ⟨e, hparts, -⟩
  · exact stream_parts_not_end hparts type
  · rw [hparts] at h
    cases h

/-- When the names can be read, nothing is missing. -/
theorem decode_body_laid {s t : St} {o : List Event} (hrun : decode_body E s = ⟨.ok (), t, o⟩)
    (hread : ¬ s.NameUnread E) :
    Callback.Laid s.dec.type (o.map Event.call) := by
  have hbody : decode_body E s = decode_type E s.dec.type s := by rw [decode_body, Proc.read_bind_run]
  by_cases htype : s.dec.type = .RDB_STREAM_LISTPACK ∨ s.dec.type = .RDB_STREAM_LISTPACKS_2
  · have hstream : decode_body E s = decode_stream E s := by
      rcases htype with htype | htype <;> rw [hbody, htype, decode_type]
    rw [hstream] at hrun
    rw [name_unread_iff hrun htype] at hread
    obtain ⟨e, hparts, -⟩ := (decode_stream_cases hrun).resolve_left fun h => hread (by rw [h])
    have hfirst : Stage.first s.dec.type = .entries 0 := by
      rcases htype with h | h <;> rw [h] <;> rfl
    exact (Lays.stream_parts hfirst).laid (s := { s with dec.out := some .data_out }) rfl rfl
      ((Proc.bind_congr_run (Proc.bind_congr_run (start_key_run s) _) _).trans hparts)
  · rw [not_or] at htype
    exact (Lays.decode_type htype).laid (s := { s with dec.out := some .data_out }) rfl rfl
      (decode_type_out htype (hbody.symm.trans hrun))

end rdbparser
