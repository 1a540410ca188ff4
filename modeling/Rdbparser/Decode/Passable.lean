import Rdbparser.Decode.Packed

/-! Which values the decoder gets past. A value of a kind it does not always get past is decoded when it meets a
condition on what is stored, and ends the decoding when it does not. -/

namespace rdbparser

open format RdbDecode DecodeProc

/-- `decode_body` ends with an error, wherever the value is stored and whatever follows it. -/
def format.Encoding.Refused {E : Env} {V : Type} [Encoding E V] (v : V) : Prop :=
  ∀ ⦃s : St⦄ ⦃c : Place⦄ ⦃rest : List UInt8⦄,
    s.dec.type = Encoding.type v → s.dec.rlen = RdbLength.ofHeader (Encoding.head v).hdr →
      s.bptr.OpenedHead (Encoding.head v) c → c.Views (Encoding.plain v ++ rest) →
        ∃ e, (decode_body E s).res = .error e

/-- A kind of values with the condition on them that is met by those that are decoded; the others are refused. -/
class Passable (E : outParam Env) (V : Type) [Encoding E V] where
  passable : V → Prop
  decoded : ∀ {v : V}, passable v → Encoding.Decoded v
  refused : ∀ {v : V}, ¬ passable v → Encoding.Refused v

variable {E : Env}

instance {V : Type} [Encoding E V] [Decodes E V] : Passable E V where
  passable _ := True
  decoded _ := Decodes.decode_body_run _
  refused h := absurd trivial h

/-- Sorted sets without compressed members are decoded. -/
instance : Passable E (ZSet E) where
  passable v := ∀ m ∈ v.members, m.is_lzf = false
  decoded {v} h := Decodes.decode_body_run (⟨v, h⟩ : PlainZSet E)
  refused {v} h s c rest htype hrlen hs hv := by
    push Not at h
    obtain ⟨m, hm, hlzf⟩ := h
    have hon : s.bptr.On c := by
      cases v <;> exact hs
    exact ⟨_, (decode_body_zset_cases v htype hrlen hon hv).2 ⟨m, hm, by simpa using hlzf⟩⟩

/-- Sets of integers are decoded, of whatever size these are. -/
instance : Decodes E (IntsetValue E) where
  decode_body_run v s c rest htype hrlen hs hv := by
    have hbody : decode_body E s = decode_set_intset s := by
      rw [decode_body, Proc.read_bind_run, htype]
      rfl
    rw [hbody]
    exact decode_set_intset_run v.blob v.set v.holds v.small hs hv

/-- A loop that hands a value from one turn to the next fails at the first part its body fails on. -/
theorem times_fails {α β : Type} {P : RdbBufptr → Place → Prop} {f : β → DecodeProc β} {bytes : α → List UInt8}
    {calls : β → α → List Callback} {bad : α → Bool} {e : RdbErrCode}
    (hgood : ∀ b x, bad x = false → Reads P (f b) (bytes x) (calls b x) fun _ => P)
    (hbad : ∀ b x, bad x = true → Fails P (f b) (bytes x) e) {xs : List α} (hex : ∃ x ∈ xs, bad x = true) (b : β) :
    Fails P (Proc.times xs.length f b) (xs.flatMap bytes) e := by
  induction xs generalizing b with
  | nil =>
    obtain ⟨x, hx, -⟩ := hex
    exact absurd hx List.not_mem_nil
  | cons x xs ih =>
    rw [List.flatMap_cons]
    cases hx : bad x with
    | true => exact ((hbad b x hx).bind _).append _
    | false =>
      obtain ⟨y, hy, hbady⟩ := hex
      have hy : y ∈ xs := by
        rcases List.mem_cons.mp hy with rfl | hy
        · rw [hx] at hbady
          cases hbady
        · exact hy
      exact (hgood b x hx).bind_fails fun b' => ih ⟨y, hy, hbady⟩ b'

/-- A plain node is not supported. -/
theorem decode_quicklist_2_plain (n : { n : StoredLen // n.val = 1 }) (x : Blob E) (num : Nat) :
    Fails RdbBufptr.At (decode_quicklist_2_node E num) (QuickPart.plain n x).bytes .RDB_ERR_NOTSUP := by
  have hcontainer : Reads RdbBufptr.At (DecodeProc.decode {}) n.1.bytes []
      fun l b c => b.At c ∧ l = RdbLength.ofHeader (.plain n.1) :=
    (Reads.decode (.plain n.1)).mono (fun _ _ h => h) fun _ _ _ h => ⟨.main h.1, h.2⟩
  refine hcontainer.bind_fails fun container => ?_
  have hlist : Reads RdbBufptr.At (DecodeProc.decode {} >>= fun llen => DecodeProc.consume E llen) x.str.bytes []
      fun _ => RdbBufptr.At := by
    refine (Reads.decode x.str.hdr).bind_read fun llen => .of_fact fun hllen => ?_
    subst hllen
    exact (Reads.consume x.str x.not_int).mono (fun _ _ h => h) fun _ _ _ h => h.1.at
  intro s c d rest hs hv hd
  have hret (p : Ptr) : Fails RdbBufptr.At (Proc.ret .RDB_ERR_NOTSUP : DecodeProc Nat) [] .RDB_ERR_NOTSUP :=
    fun _ _ _ _ _ _ _ => rfl
  have hnode := (hlist.bind_fails hret) s c d rest hs.1 (by rwa [List.append_nil]) hd
  have hother : container.len ≠ 2 := by
    rw [hs.2]
    change n.1.val ≠ 2
    rw [n.2]
    decide
  simp only [if_neg hother]
  rwa [Proc.bind_assoc] at hnode

/-- Nodes of which none is plain are packed ones, each in its container. -/
theorem format.QuickPart.all_packed {nodes : List (QuickPart E)} (h : ∀ x ∈ nodes, x.is_plain = false) :
    ∃ ys : List ({ n : StoredLen // n.val = 2 } × QuickNode E RdbListPack.Holds), nodes = ys.map fun y =>
      .packed y.1 y.2 := by
  induction nodes with
  | nil => exact ⟨[], rfl⟩
  | cons x xs ih =>
    obtain ⟨hx, hxs⟩ := List.forall_mem_cons.mp h
    obtain ⟨ys, rfl⟩ := ih hxs
    cases x with
    | packed n x => exact ⟨(n, x) :: ys, rfl⟩
    | plain n x => cases hx

/-- Quicklists of the second form are decoded if all nodes are packed. -/
instance : Passable E (QuickParts E) where
  passable v := ∀ x ∈ v.nodes, x.is_plain = false
  decoded {v} h := by
    obtain ⟨n, nodes, hn⟩ := v
    obtain ⟨ys, rfl⟩ := QuickPart.all_packed h
    have hlist := Decodes.decode_body_run
      (⟨n, .listpacks ys, by rw [hn, QuickList.elems, List.length_map, List.length_map]⟩ : QuickValue E)
    have hbytes : (ys.map fun y => QuickPart.packed y.1 y.2).flatMap QuickPart.bytes =
        (QuickList.listpacks ys).bytes := by
      rw [List.flatMap_map]
      rfl
    have hcalls : (ys.map fun y => QuickPart.packed y.1 y.2).map QuickPart.elems = (QuickList.listpacks ys).elems := by
      rw [List.map_map]
      rfl
    intro s c rest htype hrlen hs hv
    simp only [Encoding.plain, Encoding.calls, hbytes, hcalls] at hv ⊢
    exact hlist htype hrlen hs hv
  refused {v} h s c rest htype hrlen hs hv := by
    push Not at h
    obtain ⟨x, hx, hplain⟩ := h
    have hbody : decode_body E s = decode_quicklist_2 E s := by
      rw [decode_body, Proc.read_bind_run, htype]
      rfl
    have hlen : s.dec.rlen.len = v.nodes.length := by
      rw [hrlen]
      exact v.hn
    have hgood (num : Nat) (x : QuickPart E) (hx : x.is_plain = false) : Reads RdbBufptr.At
        (decode_quicklist_2_node E num)
        x.bytes (node_calls num x.elems) fun _ => RdbBufptr.At := by
      cases x with
      | packed n x => exact (Reads.decode_quicklist_2_node (n, x) num).mono (fun _ _ h => h) fun _ _ _ h => h.1
      | plain n x => cases hx
    have hbad (num : Nat) (x : QuickPart E) (hx : x.is_plain = true) : Fails RdbBufptr.At
        (decode_quicklist_2_node E num)
        x.bytes .RDB_ERR_NOTSUP := by
      cases x with
      | packed n x => cases hx
      | plain n x => exact decode_quicklist_2_plain n x num
    have hnodes := times_fails hgood hbad ⟨x, hx, by simpa using hplain⟩ 0
    have hend := hnodes.bind (fun _ => end_key) { s with dec.out := some s.dec.dest } c _ rest (.main hs) hv rfl
    refine ⟨.RDB_ERR_NOTSUP, ?_⟩
    rw [hbody, decode_quicklist_2, Proc.bind_res (start_key_run s), Proc.read_bind_run]
    simpa only [hlen] using hend

/-- Values of one kind or another. -/
instance {V W : Type} [Encoding E V] [Encoding E W] [Passable E V] [Passable E W] : Passable E (V ⊕ W) where
  passable v := v.elim Passable.passable Passable.passable
  decoded {v} h := by
    cases v with
    | inl v => exact Passable.decoded (v := v) h
    | inr v => exact Passable.decoded (v := v) h
  refused {v} h := by
    cases v with
    | inl v => exact Passable.refused (v := v) h
    | inr v => exact Passable.refused (v := v) h

end rdbparser
