import Rdbparser.Decode.Framed
import Rdbparser.Main

/-! The outputs that the verdicts on the keys select, in a run of the key loop. -/

namespace rdbparser

open format RdbDecode DecodeProc

/-- The key that a callback starts. -/
def Callback.starts : Callback → Option RdbVal
  | .d_start_key _ key => some key
  | _ => none

/-- The output that calls go to after this one, when the one before went to `prev`. -/
def Callback.switched (verdict : RdbVal → Dest) (prev : Dest) (c : Callback) : Dest :=
  (c.starts.map verdict).getD prev

/-- The output that a call goes to. -/
def Callback.sent_to (verdict : RdbVal → Dest) (prev : Dest) : Callback → Dest
  | .d_start_type _ => .data_out
  | c => c.switched verdict prev

/-- The calls, each on the output that the verdicts select. -/
def redirect (verdict : RdbVal → Dest) : Dest → List Event → List Event
  | _, [] => []
  | prev, e :: es =>
    { e with dest := e.call.sent_to verdict prev } :: redirect verdict (e.call.switched verdict prev) es

/-- The output that the last key of the calls has selected. -/
def selected (verdict : RdbVal → Dest) (prev : Dest) (es : List Event) : Dest :=
  es.foldl (fun d e => e.call.switched verdict d) prev

section Redirect

variable {v : RdbVal → Dest} {d : Dest}

theorem redirect_append (xs ys : List Event) :
    redirect v d (xs ++ ys) = redirect v d xs ++ redirect v (selected v d xs) ys := by
  induction xs generalizing d with
  | nil => rfl
  | cons e xs ih =>
    rw [List.cons_append, redirect, redirect, ih, List.cons_append]
    rfl

theorem selected_append (xs ys : List Event) : selected v d (xs ++ ys) = selected v (selected v d xs) ys :=
  List.foldl_append

/-- Calls that start neither a key nor a type. -/
theorem redirect_same {es : List Event}
    (h : ∀ e ∈ es, e.dest = d ∧ ∀ d', e.call.sent_to v d' = d' ∧ e.call.switched v d' = d') :
    redirect v d es = es ∧ selected v d es = d := by
  induction es with
  | nil => exact ⟨rfl, rfl⟩
  | cons e es ih =>
    rw [List.forall_mem_cons] at h
    obtain ⟨⟨hdest, hkept⟩, hes⟩ := h
    obtain ⟨hsent, hswitched⟩ := hkept d
    obtain ⟨hredirect, hselected⟩ := ih hes
    rw [redirect, selected, List.foldl_cons, hsent, hswitched, hredirect]
    refine ⟨?_, hselected⟩
    rw [← hdest]

end Redirect

/-! The decoder. -/

/-- The output of the key before: the real one at first. -/
def St.Prev (s : St) (d : Dest) : Prop :=
  s.dec.out = some d ∨ s.dec.out = none ∧ s.dec.data_out = true ∧ d = .data_out

/-- A header first chooses the output, which is the one of the key before or the real one at first. -/
theorem decode_hdr_prev {E : Env} {s : St} {d : Dest} (h : s.Prev d) :
    decode_hdr E s = (do
      if s.dec.ver = 0 then RdbDecode.decode_trailer E
      let s ← Proc.read
      if s.dec.is_rdb_file then RdbDecode.decode_meta_loop E (s.bptr.avail + s.bptr.sav_avail)
      RdbDecode.decode_type_key E
      RdbDecode.decode_unzip E : DecodeProc Unit) { s with dec.out := some d } := by
  rw [decode_hdr, Proc.read_bind_run]
  rcases h with hout | ⟨hout, hdata, rfl⟩
  · have hsame : { s with dec.out := some d } = s := by rw [← hout]
    rw [if_neg fun h => absurd (hout ▸ h.1) (Option.some_ne_none d),
      if_neg fun h => absurd (hout ▸ h) (Option.some_ne_none d), hsame]
  · rw [if_neg fun h => h.2 hdata, if_pos hout, DecodeProc.set_dec, Proc.update_bind_run]

/-- All calls go where the verdicts send them. -/
def Redirects (s : St) (o : List Event) (t : St) : Prop :=
  ∀ d, s.dec.out = some d → t.dec.filter = s.dec.filter ∧
    t.dec.out = some (selected (verdict s.dec.filter) d o) ∧ redirect (verdict s.dec.filter) d o = o

namespace Redirects

variable {E : Env}

/-- What is sent by two computations in a row goes on from the output that the first has selected. -/
theorem chains : Proc.Chains Redirects where
  refl s d hd := ⟨rfl, hd, rfl⟩
  trans := by
    intro s o t o' u hst htu d hd
    obtain ⟨hfilter, hout, hsame⟩ := hst d hd
    obtain ⟨hfilter', hout', hsame'⟩ := htu _ hout
    rw [hfilter] at hfilter' hout' hsame'
    rw [selected_append, redirect_append, hsame, hsame']
    exact ⟨hfilter', hout', rfl⟩

/-- A callback that goes to the output of the one before. -/
def stays (c : Callback) : Bool :=
  match c with
  | .d_start_type _ | .d_start_key _ _ => false
  | _ => true

theorem of_stays {c : Callback} (hc : stays c = true) (v : RdbVal → Dest) (d : Dest) :
    c.sent_to v d = d ∧ c.switched v d = d := by
  cases c <;> first | exact ⟨rfl, rfl⟩ | cases hc

/-- Calls that start neither a type nor a key stay on the output of the one before. -/
theorem of_sends {s t : St} {o : List Event} (h : Sends stays s o t) : Redirects s o t := by
  intro d hd
  have hall : ∀ e ∈ o, e.dest = d ∧ ∀ d', e.call.sent_to (verdict s.dec.filter) d' = d' ∧
      e.call.switched (verdict s.dec.filter) d' = d' := by
    intro e he
    obtain ⟨hdest, hcall⟩ := h.2 e he
    exact ⟨Option.some.inj (hdest.symm.trans hd), of_stays hcall _⟩
  obtain ⟨hredirect, hselected⟩ := redirect_same hall
  rw [h.1, hselected]
  exact ⟨rfl, hd, hredirect⟩

theorem set_dec {f : RdbDecode → RdbDecode} (hout : ∀ d, (f d).out = d.out) (hfilter : ∀ d, (f d).filter = d.filter) :
    (DecodeProc.set_dec f).Follows Redirects := by
  intro s d hd
  exact ⟨hfilter _, (hout _).trans hd, rfl⟩

theorem bptr (f : St → RdbBufptr) :
    Proc.Follows (ε := RdbErrCode) Redirects (Proc.update fun s => { s with bptr := f s }) :=
  fun _ _ hd => ⟨rfl, hd, rfl⟩

theorem start_key : RdbDecode.start_key.Follows Redirects := by
  intro s d hd
  rw [start_key_run]
  exact ⟨rfl, rfl, rfl⟩

theorem steps : DecodeSteps E stays Redirects := Sends.steps_of chains of_sends

theorem hdr_steps : HdrSteps E stays Redirects where
  toReadSteps := steps.toReadSteps
  start_type _ _ _ hd := ⟨rfl, hd, rfl⟩
  header _ _ _ _ _ hd := ⟨rfl, hd, rfl⟩

theorem body_steps : BodySteps E stays Redirects where
  toDecodeSteps := steps
  start_key := start_key
  scan := bptr _

theorem decode_ver : RdbDecode.decode_ver.Follows Redirects := by
  refine .read_bind chains fun s => .ite ?_ ?_
  · refine .bind chains (set_dec (fun _ => rfl) fun _ => rfl) fun _ => .ite (.ret chains _) ?_
    exact .ite (.bind chains (set_dec (fun _ => rfl) fun _ => rfl) fun _ => .pure chains _) (.pure chains _)
  · exact .bind chains (set_dec (fun _ => rfl) fun _ => rfl) fun _ => .pure chains _

theorem decode_trailer : (RdbDecode.decode_trailer E).Follows Redirects := by
  refine .bind chains (set_dec (fun _ => rfl) fun _ => rfl) fun _ => .read_bind chains fun s => ?_
  refine .ite (.ret chains _) (.bind chains decode_ver fun off => .read_bind chains fun s => ?_)
  exact .ite (.ret chains _) (.ite (bptr _) ((steps (E := E)).skip _))

/-- One turn of the key loop, from a state that has an output or is to take the real one. Nothing is assumed of
the buffer, so this is so of a turn that stops early as well. -/
theorem next_key {s : St} {d : Dest} (h : s.Prev d) :
    (next_key E s).st.dec.filter = s.dec.filter ∧
      (next_key E s).st.dec.out = some (selected (verdict s.dec.filter) d (next_key E s).out) ∧
      redirect (verdict s.dec.filter) d (next_key E s).out = (next_key E s).out := by
  have hopcode : ∀ c : Callback, c.of_opcode = true → stays c = true := by
    intro c hc
    cases c <;> first | rfl | cases hc
  have hvalue : ∀ c : Callback, c.of_value = true → stays c = true := by
    intro c hc
    cases c <;> first | rfl | cases hc
  have hbody : Proc.Follows Redirects (do
      decode_body E
      DecodeProc.set_dec fun d => { d with key_cnt := d.key_cnt + 1 }
      Proc.update fun s => { s with bptr := s.bptr.free_alloced } : DecodeProc Unit) :=
    .bind chains (body_steps.decode_body hvalue fun _ => rfl) fun _ =>
      .bind chains (set_dec (fun _ => rfl) fun _ => rfl) fun _ => bptr _
  have hrun := Proc.bind_congr_run (decode_hdr_prev (E := E) h) fun _ => do
    decode_body E
    DecodeProc.set_dec fun d => { d with key_cnt := d.key_cnt + 1 }
    Proc.update fun s => { s with bptr := s.bptr.free_alloced }
  change rdbparser.next_key E s = _ at hrun
  rw [hrun]
  have hhdr := hdr_steps.decode_hdr_rest (steps (E := E)) hopcode decode_trailer s
  exact Proc.Follows.bind chains hhdr (fun _ => hbody) _ d rfl

end Redirects

/-- The key loop, from any state and on any input: what it has put out when it ends is sent where the verdicts on
the keys send it, however many buffers it has gone through. -/
theorem main_loop_redirects {E : Env} {fuel : Nat} {s : St} {i : Input} {r : MainRun} {d : Dest}
    (h : main_loop E fuel s i = some r) (hprev : s.Prev d) :
    redirect (verdict s.dec.filter) d r.events = r.events := by
  induction fuel generalizing s i r d with
  | zero => cases h
  | succ fuel ih =>
    obtain ⟨hfilter, hout, hsame⟩ := Redirects.next_key (E := E) hprev
    obtain ⟨res, t, o, hkey⟩ : ∃ res t o, next_key E s = ⟨res, t, o⟩ := ⟨_, _, _, rfl⟩
    rw [hkey] at hfilter hout hsame
    rw [main_loop, hkey] at h
    cases res with
    | error e =>
      obtain rfl := Option.some.inj h
      exact hsame
    | ok a =>
      obtain ⟨j, b, hrefill⟩ : ∃ j b, i.refill t.bptr = (j, b) := ⟨_, _, rfl⟩
      simp only [hrefill] at h
      split at h
      · obtain rfl := Option.some.inj h
        simpa [MainRun.events] using hsame
      · obtain ⟨run, hrun, rfl⟩ := Option.map_eq_some_iff.mp h
        have hrest := ih hrun (.inl hout)
        rw [show t.dec.filter = s.dec.filter from hfilter] at hrest
        have hevents : (run.cons o t).events = o ++ run.events := by simp [MainRun.events, MainRun.cons]
        rw [hevents, redirect_append, hsame, hrest]

end rdbparser
