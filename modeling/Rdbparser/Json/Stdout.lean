import Rdbparser.Decode.Codes
import Rdbparser.Json.Whole
import Rdbparser.Main.Redirect
import Rdbparser.Main.Returns

/-! What the key loop prints as JSON. -/

namespace rdbparser

open JsonText RdbDecode

variable {E : Env} {filter : Option (RdbVal → Bool)}

/-- The callbacks on the real output, one after the other. -/
def on_data_out (o : List Event) : List Callback := (o.filter fun e => e.dest = .data_out).map Event.call

theorem on_data_out_append (o o' : List Event) : on_data_out (o ++ o') = on_data_out o ++ on_data_out o' := by
  rw [on_data_out, List.filter_append, List.map_append, on_data_out, on_data_out]

/-- What goes to one output is printed as a whole or not at all. -/
theorem on_data_out_same {o : List Event} {d : Dest} (h : ∀ e ∈ o, e.dest = d) :
    on_data_out o = o.map Event.call ∨ on_data_out o = [] := by
  cases d with
  | data_out =>
    left
    rw [on_data_out, List.filter_eq_self.mpr fun e he => decide_eq_true (h e he)]
  | null_out =>
    right
    rw [on_data_out, List.filter_eq_nil_iff.mpr fun e he => by rw [h e he]; decide, List.map_nil]

theorem on_data_out_front {o : List Event} (h : ∀ e ∈ o, e.call.of_front = true) : Blocks (on_data_out o) := by
  refine .fronts fun c hc => ?_
  obtain ⟨e, he, rfl⟩ := List.mem_map.mp hc
  exact h e (List.mem_filter.mp he).1

/-- A decoder of a key sends all to the output that the verdict on the key selects. -/
theorem Framed.dests {C : Callback → Bool} {α : Type} {x : DecodeProc α} (h : Framed C x) (s : St) :
    ∀ e ∈ (x s).out, e.dest = s.dec.dest := by
  intro e he
  rcases h s with ⟨_, hfail⟩ | ⟨f, hf, hrun⟩
  · rw [hfail] at he
    cases he
  · rw [hrun] at he
    have hsent : ∀ {o t}, Sends C { s with dec.out := some s.dec.dest } o t → ∀ e ∈ o, e.dest = s.dec.dest :=
      fun hsent e he => (Option.some.inj (hsent.2 e he).1).symm
    rcases hf { s with dec.out := some s.dec.dest } s.dec.dest rfl with ⟨_, t, o, hrest, ho⟩ | ⟨_, t, o, n, hrest, ho⟩
    · rw [Proc.bind_ok (start_key_run s) hrest] at he
      rcases List.mem_append.mp he with he | he
      · obtain rfl := List.mem_singleton.mp he
        rfl
      · exact hsent ho e he
    · rw [Proc.bind_ok (start_key_run s) hrest] at he
      rcases List.mem_append.mp he with he | he
      · obtain rfl := List.mem_singleton.mp he
        rfl
      · rcases List.mem_append.mp he with he | he
        · exact hsent ho e he
        · obtain rfl := List.mem_singleton.mp he
          rfl

/-- All calls of a body go to the output that the header has chosen: it is not switched between the start of a key and
its end. -/
theorem decode_body_dests (s : St) : ∀ e ∈ (decode_body E s).out, e.dest = s.dec.dest := by
  have hstream : ∀ e ∈ (decode_stream E s).out, e.dest = s.dec.dest := by
    rw [decode_stream_out]
    exact (stream_parts_framed (C := Callback.of_value) fun _ h => h).dests s
  rw [decode_body, Proc.read_bind_run]
  by_cases hlist : s.dec.type = .RDB_STREAM_LISTPACK
  · rw [hlist]
    exact hstream
  · by_cases hlists : s.dec.type = .RDB_STREAM_LISTPACKS_2
    · rw [hlists]
      exact hstream
    · exact (decode_type_framed (C := Callback.of_elem) (fun _ h => h) hlist hlists).dests s

/-- What the header of a record puts out. -/
theorem decode_hdr_front {s : St} {d : Dest} (h : s.Prev d) : ∀ e ∈ (decode_hdr E s).out, e.call.of_front = true := by
  have hop : ∀ c : Callback, c.of_opcode = true → c.of_front = true := by
    intro c hc
    cases c <;> first | rfl | cases hc
  have hquiet : ∀ f : RdbDecode → RdbDecode, (DecodeProc.set_dec f).Follows (Calls Callback.of_front) :=
    fun f s e he => absurd he List.not_mem_nil
  have hver : decode_ver.Follows (Calls Callback.of_front) := by
    refine .read_bind Calls.chains fun s => .ite ?_ (.bind Calls.chains (hquiet _) fun _ => .pure Calls.chains _)
    refine .bind Calls.chains (hquiet _) fun _ => .ite (.ret Calls.chains _) (.ite ?_ (.pure Calls.chains _))
    exact .bind Calls.chains (hquiet _) fun _ => .pure Calls.chains _
  have htrailer : (decode_trailer E).Follows (Calls Callback.of_front) := by
    refine .bind Calls.chains (hquiet _) fun _ => .read_bind Calls.chains fun s => .ite (.ret Calls.chains _) ?_
    refine .bind Calls.chains hver fun off => .read_bind Calls.chains fun s => .ite (.ret Calls.chains _) ?_
    exact .ite (fun s e he => absurd he List.not_mem_nil) ((Calls.steps (E := E)).skip _)
  rw [decode_hdr_prev h]
  exact (Calls.hdr_steps fun _ => rfl).decode_hdr_rest Calls.steps hop htrailer _ _

/-- What a call of the key loop is made of. -/
theorem next_key_cases (s : St) :
    (∃ e t o, decode_hdr E s = ⟨.error e, t, o⟩ ∧ next_key E s = ⟨.error e, t, o⟩) ∨
      ∃ u o, decode_hdr E s = ⟨.ok (), u, o⟩ ∧
        ((∃ e t o', decode_body E u = ⟨.error e, t, o'⟩ ∧ next_key E s = ⟨.error e, t, o ++ o'⟩) ∨
          ∃ t t' o', decode_body E u = ⟨.ok (), t, o'⟩ ∧ next_key E s = ⟨.ok (), t', o ++ o'⟩) := by
  rw [next_key]
  rcases Proc.bind_run (decode_hdr E) _ s with ⟨e, t, o, hhdr, hbind⟩ | ⟨⟨⟩, u, o, hhdr, hbind⟩
  · exact .inl ⟨e, t, o, hhdr, hbind⟩
  · refine .inr ⟨u, o, hhdr, ?_⟩
    obtain ⟨res, t, o', hbody⟩ : ∃ res t o, decode_body E u = ⟨res, t, o⟩ := ⟨_, _, _, rfl⟩
    cases res with
    | error e => exact .inl ⟨e, t, o', hbody, Proc.bind_ok hhdr (Proc.bind_error hbody)⟩
    | ok _ =>
      have hrun := next_key_run (Proc.bind_ok hhdr hbody)
      rw [next_key] at hrun
      exact .inr ⟨t, _, o', hbody, hrun⟩

/-- One call of the key loop that goes through: what it puts out on the real output is whole, if the key has ended. -/
theorem next_key_blocks {s t : St} {o : List Event} {d : Dest} (h : s.Prev d) (hrun : next_key E s = ⟨.ok (), t, o⟩)
    (hend : ∃ e ∈ o, ∃ type, e.call = .d_end_key type) (hone : Callback.OneFirst (on_data_out o)) :
    Blocks (on_data_out o) := by
  have hfront := decode_hdr_front (E := E) h
  rcases next_key_cases (E := E) s with ⟨_, _, _, -, herr⟩ | ⟨u, o₁, hhdr,
    ⟨_, _, _, -, herr⟩ | ⟨v, t', o₂, hbody, hkey⟩⟩
  · rw [herr] at hrun
    cases hrun
  · rw [herr] at hrun
    cases hrun
  · rw [hkey] at hrun
    obtain ⟨-, -, rfl⟩ := Run.mk.inj hrun
    rw [hhdr] at hfront
    have hdests := decode_body_dests (E := E) u
    have hread : ¬ u.NameUnread E := by
      intro hunread
      obtain ⟨e, he, type, hcall⟩ := hend
      rcases List.mem_append.mp he with he | he
      · exact absurd hcall (Callback.of_front_ne_end (hfront e he) type)
      · exact hunread.not_end hbody type (List.mem_map.mpr ⟨e, he, hcall⟩)
    have hbad : u.dec.type ≠ .RDB_BAD_TYPE := by
      intro htype
      rw [decode_body, Proc.read_bind_run, htype] at hbody
      cases hbody
    rw [hbody] at hdests
    rw [on_data_out_append] at hone ⊢
    refine (on_data_out_front hfront).append ?_
    rcases on_data_out_same hdests with hsame | hnone
    · rw [hsame] at hone ⊢
      rw [← List.append_nil (o₂.map Event.call)]
      exact .key hbad (decode_body_laid hbody hread) hone.right .nil
    · rw [hnone]
      exact .nil

/-- The end of the input is found in front of a key. -/
theorem next_key_eof {s t : St} {o : List Event} {d : Dest} (h : s.Prev d)
    (hrun : next_key E s = ⟨.error .RDB_EOF_MARK, t, o⟩) : ∀ e ∈ o, e.call.of_front = true := by
  have hfront := decode_hdr_front (E := E) h
  rcases next_key_cases (E := E) s with ⟨_, _, _, hhdr, herr⟩ | ⟨u, o₁, -, ⟨e, _, _, hbody, herr⟩ | ⟨_, _, _, -, hkey⟩⟩
  · rw [herr] at hrun
    obtain ⟨-, -, rfl⟩ := Run.mk.inj hrun
    rwa [hhdr] at hfront
  · rw [herr] at hrun
    obtain rfl := Except.error.inj (Run.mk.inj hrun).1
    have hcode := decode_body_codes (E := E) u .RDB_EOF_MARK (by rw [hbody])
    cases hcode
  · rw [hkey] at hrun
    cases hrun

/-- All keys of a run that succeeds are whole on the output that they go to, if they have ended. -/
theorem main_loop_blocks {fuel : Nat} {s : St} {i : Input} {r : MainRun} {d : Dest} (h : main_loop E fuel s i = some r)
    (hprev : s.Prev d) (hsuccess : r.success = true) (hend : ∀ k ∈ r.keys, ∃ e ∈ k.1, ∃ type, e.call = .d_end_key type)
    (hone : ∀ k ∈ r.keys, Callback.OneFirst (on_data_out k.1)) : Blocks (on_data_out r.events) := by
  induction fuel generalizing s i r d with
  | zero => cases h
  | succ fuel ih =>
    obtain ⟨-, hout, -⟩ := Redirects.next_key (E := E) hprev
    rw [main_loop] at h
    rcases hkey : next_key E s with ⟨e | ⟨⟩, t, o⟩
    · simp only [hkey] at h
      obtain rfl := Option.some.inj h
      obtain rfl : e = .RDB_EOF_MARK := of_decide_eq_true hsuccess
      exact on_data_out_front (next_key_eof hprev hkey)
    · rw [hkey] at hout
      rcases hrefill : i.refill t.bptr with ⟨j, b⟩
      simp only [hkey, hrefill] at h
      split at h
      · obtain rfl := Option.some.inj h
        have hblocks := next_key_blocks hprev hkey (hend _ List.mem_cons_self) (hone _ List.mem_cons_self)
        simpa [MainRun.events] using hblocks
      · obtain ⟨run, hrun, rfl⟩ := Option.map_eq_some_iff.mp h
        have hblocks := next_key_blocks hprev hkey (hend _ List.mem_cons_self) (hone _ List.mem_cons_self)
        have hrest := ih hrun (.inl hout) hsuccess (fun k hk => hend k (List.mem_cons_of_mem _ hk)) fun k hk =>
          hone k (List.mem_cons_of_mem _ hk)
        have hall := hblocks.append hrest
        rw [← on_data_out_append] at hall
        simpa [MainRun.events, MainRun.cons] using hall

/-- The callbacks that are printed. -/
def MainRun.printed (r : MainRun) : List Callback := (r.trace.filter fun x => x.1 = .data_out).map Prod.snd

theorem MainRun.printed_eq (r : MainRun) : r.printed = on_data_out r.events := by
  rw [printed, trace, List.filter_map, List.map_map]
  rfl

/-- What is written is what the calls to the real output are written as: those to the null output leave no trace, in
the text or in the state. -/
theorem JsonOutput.write_printed (fmt : Nat → List UInt8) (j : JsonOutput) (trace : List (Dest × Callback)) :
    j.write fmt trace = j.writes fmt ((trace.filter fun x => x.1 = .data_out).map Prod.snd) := by
  induction trace generalizing j with
  | nil => rfl
  | cons x trace ih =>
    obtain ⟨d, c⟩ := x
    cases d with
    | null_out => exact ih j
    | data_out =>
      have hfilter : (((Dest.data_out, c) :: trace).filter fun x => x.1 = .data_out) =
          (.data_out, c) :: trace.filter fun x => x.1 = .data_out := List.filter_cons_of_pos rfl
      rw [hfilter, List.map_cons, write, writes, List.map_cons, write]
      refine congrArg (Option.bind _ ·) (funext fun r => ?_)
      obtain ⟨text, j⟩ := r
      dsimp only
      rw [ih, writes]

theorem JsonOutput.stdout_congr {fmt : Nat → List UInt8} {show_meta : Bool} {r r' : MainRun}
    (htrace : r.trace = r'.trace)
    (hsuccess : r.success = r'.success) : stdout fmt show_meta r = stdout fmt show_meta r' := by
  rw [stdout, stdout, htrace, hsuccess]

/-- The object that is printed of whole keys. -/
theorem json_of_blocks {fmt : Nat → List UInt8} {show_meta : Bool} {r : MainRun} (hblocks : Blocks r.printed)
    (hsuccess : r.success = true) (hw : ∀ c ∈ r.printed, c.Writable fmt show_meta) :
    ∃ ms, Callback.puts fmt show_meta r.printed (.obj [] []) = some (.obj [] ms) ∧
      ms.map Prod.fst = r.printed.filterMap (Callback.member_name fmt show_meta) ∧
      ∃ text, JsonOutput.stdout fmt show_meta r = some text ∧ Whole (.obj ms) text := by
  obtain ⟨ms, ⟨hputs, hprints⟩, hnames⟩ := hblocks.prints hw []
  obtain ⟨u, hu, htext⟩ := hprints { show_meta := show_meta } rfl rfl
  refine ⟨ms, hputs, hnames, JsonOutput.d_init ++ u ++ JsonOutput.d_finish true, ?_, ?_⟩
  · have hwrite : JsonOutput.write fmt { show_meta := show_meta } r.trace = _ :=
      (JsonOutput.write_printed fmt _ r.trace).trans hu
    rw [JsonOutput.stdout, hwrite, hsuccess]
    rfl
  · have hopen : InObj [] [] JsonOutput.d_init := by
      have h : InObj [] [] ([] ++ 0x7b :: ascii "\n") := Waiting.open_obj .nil (by decide)
      exact h
    have hclose := ((htext _ hopen).space (a := ascii "\n") (by decide)).close (a := ascii "\n") (by decide)
    simpa [JsonOutput.d_finish, ascii] using hclose

theorem run_blocks {i : Input} {r : MainRun} (h : i.Delivers E filter r) (hsuccess : r.success = true)
    (hwhole : ∀ k ∈ r.keys, (∃ e ∈ k.1, ∃ type, e.call = .d_end_key type) ∧ Callback.OneFirst (on_data_out k.1)) :
    Blocks r.printed := by
  obtain ⟨fuel, hrun⟩ := h
  rw [r.printed_eq]
  exact main_loop_blocks hrun (.inr ⟨rfl, rfl, rfl⟩) hsuccess (fun k hk => (hwhole k hk).1) fun k hk => (hwhole k hk).2

end rdbparser
