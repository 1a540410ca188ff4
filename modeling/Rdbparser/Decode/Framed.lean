import Rdbparser.Decode.Sends

namespace rdbparser

open RdbDecode

variable {E : Env} {C : Callback → Bool} {α β : Type}

/-- What a decoder does behind `start_key`: it sends callbacks of the kind `C` and, if it goes through,
`d_end_key` at last. -/
def Ends (C : Callback → Bool) (x : DecodeProc α) : Prop :=
  ∀ (s : St) (d : Dest), s.dec.out = some d →
    (∃ e t o, x s = ⟨.error e, t, o⟩ ∧ Sends C s o t) ∨
    ∃ a t o n, x s = ⟨.ok a, t, o ++ [⟨d, .d_end_key s.dec.type, n⟩]⟩ ∧ Sends C s o t

namespace Ends

theorem ret (e : RdbErrCode) : Ends C (Proc.ret e : DecodeProc α) := fun s _ _ =>
  .inl ⟨e, s, [], rfl, Sends.chains.refl s⟩

theorem end_key : Ends C RdbDecode.end_key := by
  intro s d hout
  refine .inr ⟨(), s, [], s.bptr.offset, ?_, Sends.chains.refl s⟩
  simp only [RdbDecode.end_key, Proc.read_bind_run, DecodeProc.call, Proc.emit_run, hout,
    List.nil_append]

theorem ite {c : Prop} [Decidable c] {x y : DecodeProc α} (hx : Ends C x) (hy : Ends C y) :
    Ends C (if c then x else y) := by
  split
  · exact hx
  · exact hy

/-- A computation that ends with one of its calls still does behind another one that sends none of them elsewhere. -/
theorem bind {x : DecodeProc α} {f : α → DecodeProc β} (hx : x.Follows (Sends C))
    (hf : ∀ a, Ends C (f a)) : Ends C (x >>= f) := by
  intro s d hout
  have hfirst := hx s
  rcases Proc.bind_run x f s with ⟨e, t, o, hrun, hbind⟩ | ⟨a, t, o, hrun, hbind⟩
  · rw [hrun] at hfirst
    exact .inl ⟨e, t, o, hbind, hfirst⟩
  · rw [hrun] at hfirst
    have hout' : t.dec.out = some d := hfirst.1.symm ▸ hout
    rw [hbind]
    rcases hf a t d hout' with ⟨e, u, o', hrest, hsent⟩ | ⟨b, u, o', n, hrest, hsent⟩
    · rw [hrest]
      exact .inl ⟨e, u, o ++ o', rfl, Sends.chains.trans hfirst hsent⟩
    · rw [hrest, hfirst.1]
      exact .inr ⟨b, u, o ++ o', n, by rw [List.append_assoc], Sends.chains.trans hfirst hsent⟩

theorem read_bind {f : St → DecodeProc α} (hf : ∀ s, Ends C (f s)) : Ends C (Proc.read >>= f) :=
  bind (.read Sends.chains) hf

theorem recode (f : RdbErrCode → RdbErrCode) {x : DecodeProc α} (hx : Ends C x) : Ends C (Proc.recode f x) := by
  intro s d hout
  rcases hx s d hout with ⟨e, t, o, hrun, hsent⟩ | ⟨a, t, o, n, hrun, hsent⟩
  · exact .inl ⟨f e, t, o, Proc.recode_error hrun, hsent⟩
  · exact .inr ⟨a, t, o, n, Proc.recode_ok hrun, hsent⟩

/-- What is done behind `end_key` is on the buffer only. -/
theorem update {x : DecodeProc Unit} (hx : Ends C x) (f : St → RdbBufptr) :
    Ends C (x >>= fun _ => Proc.update fun s => { s with bptr := f s }) := by
  intro s d hout
  rcases hx s d hout with ⟨e, t, o, hrun, hsent⟩ | ⟨_, t, o, n, hrun, hsent⟩
  · exact .inl ⟨e, t, o, Proc.bind_error hrun, hsent⟩
  · refine .inr ⟨(), { t with bptr := f t }, o, n, ?_, hsent⟩
    rw [Proc.bind_ok hrun (Proc.update_run _ t), List.append_nil]

/-- A value may be returned behind it. -/
theorem value {x : DecodeProc Unit} (hx : Ends C x) (b : β) : Ends C (x >>= fun _ => pure b) := by
  intro s d hout
  rcases hx s d hout with ⟨e, t, o, hrun, hsent⟩ | ⟨_, t, o, n, hrun, hsent⟩
  · exact .inl ⟨e, t, o, Proc.bind_error hrun, hsent⟩
  · refine .inr ⟨b, t, o, n, ?_, hsent⟩
    rw [Proc.bind_ok hrun (Proc.pure_run b t), List.append_nil]

end Ends

/-- A decoder fails before anything else or starts with `start_key`. -/
def Framed (C : Callback → Bool) (x : DecodeProc α) : Prop :=
  ∀ s, (∃ e, x s = ⟨.error e, s, []⟩) ∨ ∃ f, Ends C f ∧ x s = (start_key >>= fun _ => f) s

theorem Framed.of_ends {f : DecodeProc α} (hf : Ends C f) :
    Framed C (start_key >>= fun _ => f) := fun _ => .inr ⟨f, hf, rfl⟩

theorem stream_parts_framed (hC : ∀ c, c.of_value = true → C c = true) : Framed C (stream_parts E) := by
  have hpart : ∀ c : Callback, c.of_part = true → C c = true := fun c hc => hC c (Callback.of_part_value hc)
  rw [stream_parts, stream_nodes, Proc.bind_assoc]
  refine .of_ends (.bind (.read_bind Sends.chains fun _ => .times Sends.chains (Sends.steps.stream_node hC) _ _)
    fun e => ?_)
  refine .read_bind fun s => .value (.recode _ ?_) e
  exact .bind (Sends.steps.stream_trailer hpart _ _) fun _ => .end_key

/-- Every decoder but the one of streams starts the key, sends elements of the value, and ends the key if it returns
at all. Streams are left out as they may return between the two. -/
theorem decode_type_framed (hC : ∀ c, c.of_elem = true → C c = true) {type : RdbType}
    (hlist : type ≠ .RDB_STREAM_LISTPACK) (hlists : type ≠ .RDB_STREAM_LISTPACKS_2) :
    Framed C (decode_type E type) := by
  have hpair : ∀ cnt n x y, (Callback.d_zset n cnt x y).of_elem = true := fun _ _ _ _ => rfl
  have hhash : ∀ cnt n x y, (Callback.d_hash n cnt x y).of_elem = true := fun _ _ _ _ => rfl
  cases type with
  | RDB_STREAM_LISTPACK => exact absurd rfl hlist
  | RDB_STREAM_LISTPACKS_2 => exact absurd rfl hlists
  | RDB_BAD_TYPE => exact fun s => .inl ⟨_, rfl⟩
  | RDB_STRING =>
    exact .of_ends (.read_bind fun s => .bind (Sends.buf.decode_str _ _) fun _ =>
      .bind (Sends.call (hC _ rfl)) fun _ => .end_key)
  | RDB_LIST =>
    exact .of_ends (.read_bind fun s =>
      .bind (.count Sends.chains (Sends.steps.decode_list_elem hC _) _ _) fun _ => .end_key)
  | RDB_SET =>
    exact .of_ends (.read_bind fun s =>
      .bind (.count Sends.chains (Sends.steps.decode_set_elem hC _) _ _) fun _ => .end_key)
  | RDB_HASH =>
    exact .of_ends (.read_bind fun s =>
      .bind (.count Sends.chains (Sends.steps.decode_hash_elem hC _) _ _) fun _ => .end_key)
  | RDB_ZSET | RDB_ZSET_2 =>
    exact .of_ends (.read_bind fun s =>
      .bind (.count Sends.chains (Sends.steps.decode_zset_elem hC _ _) _ _) fun _ => .end_key)
  | RDB_MODULE | RDB_MODULE_2 =>
    intro s
    change (∃ e, decode_module s = _) ∨ ∃ f, Ends C f ∧ decode_module s = _
    rw [decode_module, Proc.read_bind_run]
    split
    · exact .inl ⟨_, rfl⟩
    · refine .inr ⟨_, ?_, rfl⟩
      have hend : Ends C (do
          DecodeProc.call (.d_module (.str (module_name s.dec.rlen.len)))
          RdbDecode.end_key) := .bind (Sends.call (hC _ rfl)) fun _ => .end_key
      have hscan := hend.update fun s => module_scan s.bptr.avail s.bptr
      rwa [Proc.bind_assoc] at hscan
  | RDB_HASH_ZIPMAP =>
    refine .of_ends (.read_bind fun s => .bind (Sends.incr _) fun b => ?_)
    dsimp only
    split <;> exact .bind (Sends.buf.zipmap_loop hC _ _ _ _) fun _ => .end_key
  | RDB_SET_INTSET =>
    refine .of_ends (.bind (Sends.incr _) fun b => .ite (.ret _) (.bind (Sends.incr _) fun b' => ?_))
    exact .bind (.count Sends.chains (fun _ => Sends.call (hC _ rfl)) _ _) fun _ => .end_key
  | RDB_LIST_ZIPLIST | RDB_ZSET_ZIPLIST | RDB_HASH_ZIPLIST =>
    refine .of_ends (.read_bind fun s => .bind (Sends.incr _) fun b => ?_)
    split
    · exact .ret _
    · refine .ite ?_ .end_key
      split
      · exact .bind (Sends.buf.pair_loop hC _ _ (hpair _) _ _ _) fun _ => .end_key
      · exact .bind (Sends.buf.list_loop hC _ _ _ _ _ _) fun _ => .end_key
      · exact .bind (Sends.buf.pair_loop hC _ _ (hhash _) _ _ _) fun _ => .end_key
  | RDB_LIST_QUICKLIST =>
    exact .of_ends (.read_bind fun s =>
      .bind (.times Sends.chains (Sends.steps.decode_quicklist_node hC) _ _) fun _ => .end_key)
  | RDB_LIST_QUICKLIST_2 =>
    exact .of_ends (.read_bind fun s =>
      .bind (.times Sends.chains (Sends.steps.decode_quicklist_2_node hC) _ _) fun _ => .end_key)
  | RDB_HASH_LISTPACK | RDB_ZSET_LISTPACK =>
    refine .of_ends (.read_bind fun s => .bind (Sends.incr _) fun b => ?_)
    split
    · exact .ret _
    · dsimp only
      split
      · exact .ite (.bind (Sends.buf.pair_loop hC _ _ (hhash _) _ _ _) fun _ => .end_key) .end_key
      · exact .ite (.bind (Sends.buf.pair_loop hC _ _ (hpair _) _ _ _) fun _ => .end_key) .end_key
      · exact .ret _

end rdbparser
