import Rdbparser.Main.Records
import Rdbparser.Main.Redirect

namespace rdbparser

open format RdbDecode DecodeProc

/-- A callback of an opcode that belongs to the next key. -/
def Callback.of_next_key : Callback → Bool
  | .d_idle _ | .d_freq _ | .d_expired_ms _ | .d_expired _ => true
  | _ => false

/-- What belongs to a key goes to the output that the verdict on the key selects; `dests` are the outputs
that the callbacks since the last key have gone to. -/
def OpcodesDelivered (verdict : RdbVal → Dest) : List Dest → List (Dest × Callback) → Prop
  | _, [] => True
  | dests, (d, c) :: trace =>
    match c.starts with
    | some key => (∀ d ∈ dests, d = verdict key) ∧ OpcodesDelivered verdict [] trace
    | none => OpcodesDelivered verdict (if c.of_next_key then d :: dests else dests) trace

/-- Each key that something belongs to has the verdict of the key before it; `opcodes` says whether
anything does since the last key, which had the verdict `prev`. -/
def VerdictsKept (verdict : RdbVal → Dest) : Dest → Bool → List Callback → Prop
  | _, _, [] => True
  | prev, opcodes, c :: calls =>
    match c.starts with
    | some key => (opcodes = true → verdict key = prev) ∧ VerdictsKept verdict (verdict key) false calls
    | none => VerdictsKept verdict prev (opcodes || c.of_next_key) calls

/-- Where the code sends callbacks: the output is switched at the start of a key only. -/
def Routed (verdict : RdbVal → Dest) : Dest → List (Dest × Callback) → Dest → Prop
  | prev, [], last => prev = last
  | prev, (d, c) :: trace, last =>
    match c.starts with
    | some key => d = verdict key ∧ Routed verdict (verdict key) trace last
    | none => (c.of_next_key = true → d = prev) ∧ Routed verdict prev trace last

namespace Routed

variable {verdict : RdbVal → Dest} {prev last : Dest} {xs : List (Dest × Callback)}

/-- Calls that go where the verdicts send them are routed: those of a type go to the real output, but they do not
belong to the next key. -/
theorem of_redirect {es : List Event} (h : redirect verdict prev es = es) :
    Routed verdict prev (es.map Event.sent) (selected verdict prev es) := by
  induction es generalizing prev with
  | nil => rfl
  | cons e es ih =>
    obtain ⟨hhead, htail⟩ := List.cons.inj h
    have hdest : e.dest = e.call.sent_to verdict prev := (congrArg Event.dest hhead).symm
    have hrest := ih htail
    have hselected : selected verdict prev (e :: es) = selected verdict (e.call.switched verdict prev) es := rfl
    rw [List.map_cons, Event.sent, Routed, hselected]
    cases hkey : e.call.starts with
    | some key =>
      have hswitched : e.call.switched verdict prev = verdict key := by rw [Callback.switched, hkey]; rfl
      rw [hswitched] at hrest ⊢
      refine ⟨?_, hrest⟩
      rw [hdest, ← hswitched]
      cases hcall : e.call <;> first | rfl | (rw [hcall] at hkey; cases hkey)
    | none =>
      have hswitched : e.call.switched verdict prev = prev := by rw [Callback.switched, hkey]; rfl
      rw [hswitched] at hrest ⊢
      refine ⟨fun hnext => ?_, hrest⟩
      rw [hdest, ← hswitched]
      cases hcall : e.call <;> first | rfl | (rw [hcall] at hnext; cases hnext)

/-- What goes to the output of the key before is delivered if and only if the verdict stays the same. -/
theorem delivered_iff (h : Routed verdict prev xs last) {dests : List Dest} (hdests : ∀ d ∈ dests, d = prev) :
    OpcodesDelivered verdict dests xs ↔
      VerdictsKept verdict prev (decide (dests ≠ [])) (xs.map Prod.snd) := by
  induction xs generalizing prev dests with
  | nil => exact Iff.rfl
  | cons x xs ih =>
    obtain ⟨d, c⟩ := x
    rw [OpcodesDelivered, List.map_cons, VerdictsKept]
    cases hkey : c.starts with
    | some key =>
      simp only [Routed, hkey] at h ⊢
      rw [ih h.2 (by simp : ∀ d ∈ ([] : List Dest), d = verdict key)]
      refine and_congr ?_ Iff.rfl
      cases dests with
      | nil => simp
      | cons d' dests =>
        rw [decide_eq_true (List.cons_ne_nil d' dests)]
        constructor
        · intro hall _
          exact (hall d' List.mem_cons_self).symm.trans (hdests d' List.mem_cons_self)
        · intro hsame x hx
          exact (hdests x hx).trans (hsame rfl).symm
    | none =>
      simp only [Routed, hkey] at h ⊢
      cases hnext : c.of_next_key with
      | false => simpa using ih h.2 hdests
      | true =>
        have hall : ∀ x ∈ d :: dests, x = prev := List.forall_mem_cons.mpr ⟨h.1 hnext, hdests⟩
        simpa using ih h.2 hall

end Routed

/-- On any input and with any filter, the idle, freq and expiry callbacks before each key go to the output
that its verdict selects if and only if each key that has any is given the verdict of the key before it,
and the first one is let through if it has any. -/
theorem main_opcodes_iff {E : Env} {filter : Option (RdbVal → Bool)} {i : Input} {r : MainRun}
    (h : i.Delivers E filter r) :
    OpcodesDelivered (verdict filter) [] r.trace ↔
      VerdictsKept (verdict filter) .data_out false (r.trace.map Prod.snd) := by
  obtain ⟨fuel, hrun⟩ := h
  have hsame := main_loop_redirects hrun (.inr ⟨rfl, rfl, rfl⟩)
  exact (Routed.of_redirect hsame).delivered_iff (by simp)

/-- The list "k" with an expiry, the list "m" without one, and again with one. -/
def format.RdbFile.three_keys : RdbFile Env.literal (Value Env.literal) :=
  RdbFile.compressed.with_records (RdbFile.compressed.records.flatMap fun r =>
    [r, { r with metas := [], key := .letter 0x6d }, { r with key := .letter 0x6d }])

/-- The expiry of the first key goes to the output, and that of the last, which is not let through, to the null
output. -/
theorem main_opcodes_three :
    ∃ r, (Input.map RdbFile.three_keys.bytes 0 0).Delivers Env.literal (some fun key => key = .str [0x6b]) r ∧
      OpcodesDelivered (verdict (some fun key => key = .str [0x6b])) [] r.trace := by
  obtain ⟨r, hr, hout, -⟩ := Input.run_file (E := Env.literal) (some fun key => key = .str [0x6b]) RdbFile.three_keys
    (Input.map_tracks RdbFile.three_keys.bytes 0 0) (.inl rfl)
  have htrace : r.trace = _ := congrArg Prod.fst hout
  refine ⟨r, hr, (main_opcodes_iff hr).mpr ?_⟩
  rw [htrace]
  -- the verdict of "m" is the one before it only where it has an expiry
  exact ⟨fun _ => rfl, fun h => absurd h (by decide), fun _ => rfl, trivial⟩

/-- The expiry of a key that is not let through is delivered all the same when it is the first. -/
theorem main_opcodes_misrouted :
    ¬ ∀ (E : Env) (filter : Option (RdbVal → Bool)) (i : Input) (r : MainRun),
      i.Delivers E filter r → OpcodesDelivered (verdict filter) [] r.trace := by
  intro h
  obtain ⟨r, hr, hout, -⟩ := Input.run_file (E := Env.literal) (some fun _ => false) RdbFile.compressed
    (Input.map_tracks RdbFile.compressed.bytes 0 0) (.inl rfl)
  have hdelivered := h _ (some fun _ => false) _ r hr
  rw [show r.trace = _ from congrArg Prod.fst hout] at hdelivered
  have hfirst : ∀ d ∈ [Dest.data_out], d = Dest.null_out := hdelivered.1
  exact absurd (hfirst _ List.mem_cons_self) (by decide)

end rdbparser
