import Mathlib.Data.List.TakeWhile
import Rdbparser.Decode.Elements
import Rdbparser.Format.Stream
import Rdbparser.Stream

/-! What is handed out behind the nodes of a stream up to the first consumer whose name is compressed. -/

namespace rdbparser

open format

/-- The callback that hands out a consumer. -/
def Callback.of_cons : Callback → Bool
  | .d_stream_cons .. => true
  | _ => false

/-- The callbacks in front of the `n`-th consumer. -/
def upto : Nat → List Callback → List Callback
  | _, [] => []
  | 0, c :: cs => if c.of_cons then [] else c :: upto 0 cs
  | n + 1, c :: cs => c :: upto (if c.of_cons then n else n + 1) cs

theorem upto_zero_cons {c : Callback} {cs : List Callback} (h : c.of_cons = true) : upto 0 (c :: cs) = [] := by
  rw [upto, if_pos h]

/-- The calls in front of a consumer of the first part are among those of the first part. -/
theorem upto_append_lt {n : Nat} {xs : List Callback} (h : n < xs.countP Callback.of_cons) (ys : List Callback) :
    upto n (xs ++ ys) = upto n xs := by
  induction xs generalizing n with
  | nil => exact absurd h (Nat.not_lt_zero n)
  | cons c cs ih =>
    rw [List.countP_cons] at h
    rw [List.cons_append]
    cases hc : c.of_cons with
    | true =>
      rw [hc, if_pos rfl] at h
      cases n with
      | zero => rw [upto, upto, if_pos hc, if_pos hc]
      | succ n => rw [upto, upto, if_pos hc, ih (by omega)]
    | false =>
      rw [hc, if_neg Bool.false_ne_true] at h
      cases n with
      | zero => rw [upto, upto, hc, if_neg Bool.false_ne_true, ih h, if_neg Bool.false_ne_true]
      | succ n => rw [upto, upto, hc, if_neg Bool.false_ne_true, ih h]

/-- Those in front of one of the second part are all of the first, and then some of the second. -/
theorem upto_append_add (xs ys : List Callback) (n : Nat) :
    upto (xs.countP Callback.of_cons + n) (xs ++ ys) = xs ++ upto n ys := by
  induction xs with
  | nil => rw [List.countP_nil, Nat.zero_add, List.nil_append, List.nil_append]
  | cons c cs ih =>
    rw [List.countP_cons, List.cons_append, List.cons_append]
    cases hc : c.of_cons with
    | true =>
      rw [if_pos rfl, Nat.add_right_comm, upto, if_pos hc, ih]
    | false =>
      rw [if_neg Bool.false_ne_true, Nat.add_zero]
      cases hn : cs.countP Callback.of_cons + n with
      | zero => rw [upto, if_neg (by rw [hc]; exact Bool.false_ne_true), ← hn, ih]
      | succ m => rw [upto, if_neg (by rw [hc]; exact Bool.false_ne_true), ← hn, ih]

theorem upto_count (xs : List Callback) : upto (xs.countP Callback.of_cons) xs = xs := by
  have h := upto_append_add xs [] 0
  rwa [Nat.add_zero, List.append_nil, upto, List.append_nil] at h

/-- So many consumers are in front of the `n`-th. -/
theorem countP_upto {n : Nat} {xs : List Callback} (h : n ≤ xs.countP Callback.of_cons) :
    (upto n xs).countP Callback.of_cons = n := by
  induction xs generalizing n with
  | nil =>
    rw [upto, List.countP_nil]
    exact (Nat.le_zero.mp h).symm
  | cons c cs ih =>
    rw [List.countP_cons] at h
    cases hc : c.of_cons with
    | true =>
      rw [hc, if_pos rfl] at h
      cases n with
      | zero => rw [upto, if_pos hc, List.countP_nil]
      | succ n => rw [upto, if_pos hc, List.countP_cons, if_pos hc, ih (by omega)]
    | false =>
      rw [hc, if_neg Bool.false_ne_true] at h
      have hcount : ∀ m ≤ cs.countP Callback.of_cons, (c :: upto m cs).countP Callback.of_cons = m := by
        intro m hm
        rw [List.countP_cons, hc, if_neg Bool.false_ne_true, ih hm, Nat.add_zero]
      cases n with
      | zero => rw [upto, hc, if_neg Bool.false_ne_true, hcount 0 h]
      | succ n => rw [upto, hc, if_neg Bool.false_ne_true, hcount (n + 1) h]

variable {E : Env}

/-- How many names are in front of the first that is compressed. -/
def clear (names : List (StoredStr E)) : Nat := (names.takeWhile fun n => !n.is_lzf).length

theorem clear_all {names : List (StoredStr E)} (h : ∀ n ∈ names, n.is_lzf = false) :
    clear names = names.length := by
  rw [clear, List.takeWhile_eq_self_iff.mpr fun n hn => by rw [h n hn]; rfl]

/-- The names in front of a compressed one are fewer than all. -/
theorem clear_lt {names : List (StoredStr E)} (h : ∃ n ∈ names, n.is_lzf = true) :
    clear names < names.length := by
  obtain ⟨n, hn, hlzf⟩ := h
  have hle : clear names ≤ names.length := (List.takeWhile_prefix _).length_le
  refine Nat.lt_of_le_of_ne hle fun heq => ?_
  have hall := List.takeWhile_eq_self_iff.mp ((List.takeWhile_prefix _).eq_of_length heq) n hn
  rw [hlzf] at hall
  cases hall

theorem clear_le (names : List (StoredStr E)) : clear names ≤ names.length :=
  (List.takeWhile_prefix _).length_le

theorem clear_append_all {xs : List (StoredStr E)} (h : ∀ n ∈ xs, n.is_lzf = false) (ys : List (StoredStr E)) :
    clear (xs ++ ys) = xs.length + clear ys := by
  rw [clear, List.takeWhile_append_of_pos fun n hn => by rw [h n hn]; rfl, List.length_append, clear]

theorem clear_append_some {xs : List (StoredStr E)} (h : ∃ n ∈ xs, n.is_lzf = true) (ys : List (StoredStr E)) :
    clear (xs ++ ys) = clear xs := by
  have hne : (xs.takeWhile fun n => !n.is_lzf).length ≠ xs.length := Nat.ne_of_lt (clear_lt h)
  rw [clear, List.takeWhile_append, if_neg hne, clear]

/-- Wherever the bytes `bs` lie ahead of a cursor that meets `P`, the step sends `calls` and leaves the
decoder with `RDB_ERR_TRUNC`. -/
def Stops {α : Type} (P : RdbBufptr → Place → Prop) (x : DecodeProc α) (bs : List UInt8)
    (calls : List Callback) : Prop :=
  ∀ (s : St) (c : Place) (d : Dest) (rest : List UInt8),
    P s.bptr c → c.Views (bs ++ rest) → s.dec.out = some d →
      ∃ t o, x s = ⟨.error .RDB_ERR_TRUNC, t, o⟩ ∧ o.map Event.sent = calls.map (d, ·)

section

variable {α β : Type} {P : RdbBufptr → Place → Prop} {bs bs' : List UInt8} {calls calls' : List Callback}
  {Q : α → RdbBufptr → Place → Prop} {R : β → RdbBufptr → Place → Prop}

theorem Stops.bind {x : DecodeProc α} (hx : Stops P x bs calls) (f : α → DecodeProc β) (bs' : List UInt8) :
    Stops P (x >>= f) (bs ++ bs') calls := by
  intro s c d rest hs hv hd
  rw [List.append_assoc] at hv
  obtain ⟨t, o, hrun, ho⟩ := hx s c d _ hs hv hd
  exact ⟨t, o, Proc.bind_error hrun, ho⟩

/-- A sequence stops where its second step does, behind what the first has sent. -/
theorem Reads.bind_stops {x : DecodeProc α} {f : α → DecodeProc β} (hx : Reads P x bs calls Q)
    (hf : ∀ a, Stops (Q a) (f a) bs' calls') : Stops P (x >>= f) (bs ++ bs') (calls ++ calls') := by
  intro s c d rest hs hv hd
  rw [List.append_assoc] at hv
  obtain ⟨a, b, o, hrun, hq, ho⟩ := hx s c d _ hs hv hd
  obtain ⟨t, o', hrun', ho'⟩ := hf a { s with bptr := b } _ d rest hq hv.adv hd
  refine ⟨t, o ++ o', Proc.bind_ok hrun hrun', ?_⟩
  rw [List.map_append, List.map_append, ho, ho']

theorem Stops.of_fact {x : DecodeProc α} {p : Prop} (h : p → Stops P x bs calls) :
    Stops (fun b c => P b c ∧ p) x bs calls := by
  intro s c d rest hs hv hd
  exact h hs.2 s c d rest hs.1 hv hd

/-- The step goes through the bytes `bs`, in which the names of consumers are `names`, and sends `calls`; if
one of the names is compressed it stops at the first of these. -/
structure Goes (P : RdbBufptr → Place → Prop) (x : DecodeProc α) (bs : List UInt8) (names : List (StoredStr E))
    (calls : List Callback) (Q : α → RdbBufptr → Place → Prop) : Prop where
  reads : (∀ n ∈ names, n.is_lzf = false) → Reads P x bs calls Q
  stops : (∃ n ∈ names, n.is_lzf = true) → Stops P x bs (upto (clear names) calls)

namespace Goes

variable {names names' : List (StoredStr E)}

/-- Two steps in a row go through if both do, and stop at the first compressed name of either. For that the first has
to send one call for each of its names. -/
theorem bind {x : DecodeProc α} {f : α → DecodeProc β} (hx : Goes P x bs names calls Q)
    (hf : ∀ a, Goes (Q a) (f a) bs' names' calls' R) (hcount : calls.countP Callback.of_cons = names.length) :
    Goes P (x >>= f) (bs ++ bs') (names ++ names') (calls ++ calls') R where
  reads hall := (hx.reads fun n hn => hall n (List.mem_append_left _ hn)).bind fun a =>
    (hf a).reads fun n hn => hall n (List.mem_append_right _ hn)
  stops := by
    rintro ⟨n, hn, hlzf⟩
    by_cases hfirst : ∃ n ∈ names, n.is_lzf = true
    · rw [clear_append_some hfirst, upto_append_lt (hcount ▸ clear_lt hfirst)]
      exact (hx.stops hfirst).bind f bs'
    · have hall : ∀ n ∈ names, n.is_lzf = false := fun n hn => by
        rw [← Bool.not_eq_true]
        exact fun h => hfirst ⟨n, hn, h⟩
      have hlater : ∃ n ∈ names', n.is_lzf = true := by
        rcases List.mem_append.mp hn with hn | hn
        · exact absurd ⟨n, hn, hlzf⟩ hfirst
        · exact ⟨n, hn, hlzf⟩
      rw [clear_append_all hall, ← hcount, upto_append_add]
      exact (hx.reads hall).bind_stops fun a => (hf a).stops hlater

/-- A step that reads no name of a consumer. -/
theorem of_reads {x : DecodeProc α} (hx : Reads P x bs calls Q) : Goes (E := E) P x bs [] calls Q where
  reads _ := hx
  stops := by
    rintro ⟨n, hn, -⟩
    cases hn

theorem of_fact {x : DecodeProc α} {p : Prop} (h : p → Goes P x bs names calls Q) :
    Goes (fun b c => P b c ∧ p) x bs names calls Q where
  reads hall := .of_fact fun hp => (h hp).reads hall
  stops hex := .of_fact fun hp => (h hp).stops hex

theorem mono {P' : RdbBufptr → Place → Prop} {Q' : α → RdbBufptr → Place → Prop} {x : DecodeProc α}
    (h : Goes P x bs names calls Q) (hP : ∀ b c, P' b c → P b c) (hQ : ∀ a b c, Q a b c → Q' a b c) :
    Goes P' x bs names calls Q' where
  reads hall := (h.reads hall).mono hP hQ
  stops hex s c d rest hs hv hd := h.stops hex s c d rest (hP _ _ hs) hv hd

end Goes

/-- A step that reads no name of a consumer and sends nothing, and one that follows. -/
theorem Reads.bind_goes {names : List (StoredStr E)} {x : DecodeProc α} {f : α → DecodeProc β}
    (hx : Reads P x bs [] Q) (hf : ∀ a, Goes (Q a) (f a) bs' names calls' R) :
    Goes P (x >>= f) (bs ++ bs') names calls' R :=
  (Goes.of_reads hx).bind hf rfl

/-- A callback that hands out no consumer, and what follows it. -/
theorem Goes.call_bind {names : List (StoredStr E)} {f : DecodeProc α} {k : Callback}
    (hf : Goes P f bs names calls Q) (hk : k.of_cons = false := by rfl) :
    Goes P (DecodeProc.call k >>= fun _ => f) bs names (k :: calls) Q :=
  (Goes.of_reads (Reads.call k)).bind (fun _ => hf) (by rw [List.countP_singleton, hk]; rfl)

/-- A counted loop. -/
theorem Goes.count {γ : Type} {P : RdbBufptr → Place → Prop} {body : Nat → DecodeProc Unit}
    {bytes : γ → List UInt8} {names : γ → List (StoredStr E)} {calls : Nat → γ → List Callback} {xs : List γ}
    (hbody : ∀ num, ∀ x ∈ xs, Goes P (body num) (bytes x) (names x) (calls num x) fun _ => P)
    (hcount : ∀ num, ∀ x ∈ xs, (calls num x).countP Callback.of_cons = (names x).length) (k : Nat) :
    Goes P (Proc.count body k xs.length) (xs.flatMap bytes) (xs.flatMap names)
      (xs.mapIdx fun i x => calls (k + i) x).flatten fun _ => P := by
  induction xs generalizing k with
  | nil => exact .of_reads (.value fun _ _ h => h)
  | cons x xs ih =>
    rw [List.flatMap_cons, List.flatMap_cons, List.mapIdx_cons, List.flatten_cons]
    have hrest := ih (fun num y hy => hbody num y (List.mem_cons_of_mem x hy))
      (fun num y hy => hcount num y (List.mem_cons_of_mem x hy)) (k + 1)
    refine (hbody k x List.mem_cons_self).bind (fun _ => ?_) (hcount k x List.mem_cons_self)
    simpa only [Nat.add_zero, Nat.add_assoc, Nat.add_comm 1] using hrest

end

/-- Numbered parts send one call for each of their names. -/
theorem countP_mapIdx_flatten {α : Type} {names : α → List (StoredStr E)} {calls : Nat → α → List Callback}
    {xs : List α} (h : ∀ num, ∀ x ∈ xs, (calls num x).countP Callback.of_cons = (names x).length) :
    (xs.mapIdx calls).flatten.countP Callback.of_cons = (xs.flatMap names).length := by
  induction xs generalizing calls with
  | nil => rfl
  | cons x xs ih =>
    have hrest := @ih (fun num => calls (num + 1)) fun num y hy => h (num + 1) y (List.mem_cons_of_mem x hy)
    rw [List.mapIdx_cons, List.flatten_cons, List.countP_append, List.flatMap_cons, List.length_append, hrest,
      h 0 x List.mem_cons_self]

/-- A list of parts sends one call for each name in it if each part does. -/
theorem countP_listed {α : Type} (part : StreamPart) {cnt : Nat} {names : α → List (StoredStr E)}
    {calls : Nat → α → List Callback} {xs : List α} (hcnt : cnt = xs.length)
    (h : ∀ num, ∀ x ∈ xs, (calls num x).countP Callback.of_cons = (names x).length) :
    (listed part cnt (xs.mapIdx calls).flatten).countP Callback.of_cons = (xs.flatMap names).length := by
  subst hcnt
  rw [listed]
  split
  · next hnil =>
    obtain rfl := List.length_eq_zero_iff.mp hnil
    rfl
  · have hstart : (Callback.d_stream_start part).of_cons = false := rfl
    have hend : (Callback.d_stream_end part).of_cons = false := rfl
    rw [List.countP_cons, List.countP_append, List.countP_singleton, hstart, hend, if_neg Bool.false_ne_true,
      Nat.add_zero, countP_mapIdx_flatten h]

/-- Parts that are no consumers. -/
theorem countP_listed_none {α : Type} (part : StreamPart) {cnt : Nat} {call : Nat → α → Callback} {xs : List α}
    (hcnt : cnt = xs.length) (h : ∀ num x, (call num x).of_cons = false) :
    (listed part cnt (xs.mapIdx call)).countP Callback.of_cons = 0 := by
  have hparts : (listed part cnt (xs.mapIdx fun num x => [call num x]).flatten).countP Callback.of_cons =
      (xs.flatMap fun _ => ([] : List (StoredStr Env.literal))).length :=
    countP_listed part hcnt fun num x _ => by
      rw [List.countP_singleton, h num x]
      rfl
  rwa [Reads.mapIdx_singleton, List.flatMap_eq_nil_iff.mpr fun _ _ => rfl] at hparts

/-- A consumer is handed out by one callback. -/
theorem format.StreamCons.countP_calls (cnt num : Nat) (x : StreamCons E) :
    (x.calls cnt num).countP Callback.of_cons = 1 := by
  have hpend : (listed .STREAM_CONSUMER_PENDING_LIST x.pend_cnt.val (x.pending.mapIdx fun i y =>
      Callback.d_stream_cons_pend i x.pend_cnt.val y.id)).countP Callback.of_cons = 0 :=
    countP_listed_none _ x.hpend fun _ _ => rfl
  rw [StreamCons.calls, List.countP_cons, List.countP_append, hpend]
  rfl

theorem format.StreamGroup.countP_consumers (x : StreamGroup E) :
    (listed .STREAM_CONSUMER_LIST x.cons_cnt.val (x.consumers.mapIdx (StreamCons.calls x.cons_cnt.val)).flatten).countP
      Callback.of_cons = (x.consumers.flatMap fun c => [c.name.str]).length :=
  countP_listed .STREAM_CONSUMER_LIST x.hcons fun num y _ => y.countP_calls x.cons_cnt.val num

theorem format.StreamGroup.countP_pending (x : StreamGroup E) :
    (listed .STREAM_PENDING_LIST x.pend_cnt.val (x.pending.mapIdx (StreamPend.call x.pend_cnt.val))).countP
      Callback.of_cons = 0 :=
  countP_listed_none .STREAM_PENDING_LIST x.hpend fun _ _ => rfl

theorem format.StreamGroup.countP_calls (cnt num : Nat) (x : StreamGroup E) :
    (x.calls cnt num).countP Callback.of_cons = (x.consumers.map fun c => c.name.str).length := by
  rw [StreamGroup.calls, List.countP_cons, List.countP_append, List.countP_append, x.countP_pending,
    x.countP_consumers, Nat.zero_add, List.map_eq_flatMap]
  rfl

/-- A list of parts between its start and its end. -/
theorem Goes.stream_list {α : Type} (part : StreamPart) {cnt : Nat} {elem : Nat → DecodeProc Unit}
    {bytes : α → List UInt8} {names : α → List (StoredStr E)} {calls : Nat → α → List Callback} {xs : List α}
    (hcnt : cnt = xs.length)
    (helem : ∀ num, ∀ x ∈ xs, Goes RdbBufptr.On (elem num) (bytes x) (names x) (calls num x) fun _ => RdbBufptr.On)
    (hcount : ∀ num, ∀ x ∈ xs, (calls num x).countP Callback.of_cons = (names x).length) :
    Goes RdbBufptr.On (RdbDecode.stream_list part cnt elem) (xs.flatMap bytes) (xs.flatMap names)
      (listed part cnt (xs.mapIdx calls).flatten) fun _ => RdbBufptr.On := by
  subst hcnt
  have hloop := Goes.count helem hcount 0
  simp only [Nat.zero_add] at hloop
  rw [RdbDecode.stream_list, listed]
  by_cases hnil : xs.length = 0
  · obtain rfl := List.length_eq_zero_iff.mp hnil
    exact .of_reads (.value fun b c h => h)
  · simp only [ne_eq, hnil, not_false_eq_true, if_true, if_false]
    have h := hloop.bind (fun _ => .of_reads (.call (P := RdbBufptr.On) (.d_stream_end part)))
      (countP_mapIdx_flatten hcount)
    rw [List.append_nil, List.append_nil] at h
    exact h.call_bind

/-- A list of parts in which no consumer is found. -/
theorem Reads.stream_list {α : Type} (part : StreamPart) {cnt : Nat} {elem : Nat → DecodeProc Unit}
    {bytes : α → List UInt8} {call : Nat → α → Callback} {xs : List α} (hcnt : cnt = xs.length)
    (helem : ∀ num, ∀ x ∈ xs, Reads RdbBufptr.On (elem num) (bytes x) [call num x] fun _ => RdbBufptr.On)
    (hcall : ∀ num, ∀ x ∈ xs, (call num x).of_cons = false) :
    Reads RdbBufptr.On (RdbDecode.stream_list part cnt elem) (xs.flatMap bytes)
      (listed part cnt (xs.mapIdx call)) fun _ => RdbBufptr.On := by
  have h : Goes RdbBufptr.On (RdbDecode.stream_list part cnt elem) (xs.flatMap bytes)
      (xs.flatMap fun _ => ([] : List (StoredStr Env.literal)))
        (listed part cnt (xs.mapIdx fun num x => [call num x]).flatten)
      fun _ => RdbBufptr.On :=
    Goes.stream_list part hcnt (fun num x hx => .of_reads (helem num x hx)) fun num x hx => by
      rw [List.countP_singleton, hcall num x hx]
      rfl
  rw [mapIdx_singleton] at h
  exact h.reads fun n hn => by
    obtain ⟨x, -, hx⟩ := List.mem_flatMap.mp hn
    cases hx

end rdbparser
