import Rdbparser.Decode.Framed
import Rdbparser.Decode.Short
import Rdbparser.Format.Stored

/-! Records that the end of the buffer cuts off. -/

namespace rdbparser

open format RdbDecode DecodeProc

variable {E : Env}

/-- Only callbacks of the kind `C` go out. -/
def Calls (C : Callback → Bool) (_ : St) (o : List Event) (_ : St) : Prop := ∀ ev ∈ o, C ev.call = true

namespace Calls

variable {α : Type} {C : Callback → Bool}

theorem chains : Proc.Chains (Calls C) where
  refl _ := by simp [Calls]
  trans h h' := by
    intro ev hev
    rcases List.mem_append.mp hev with hev | hev
    · exact h ev hev
    · exact h' ev hev

theorem steps : DecodeSteps E C (Calls C) := Sends.steps_of chains fun h ev hev => (h.2 ev hev).2

theorem hdr_steps (hC : ∀ t, C (.d_start_type t) = true) : HdrSteps E C (Calls C) where
  toReadSteps := steps.toReadSteps
  start_type type s ev hev := by
    obtain rfl := List.mem_singleton.mp hev
    exact hC _
  header s _ _ _ := chains.refl s

theorem decode_record (hC : ∀ t, C (.d_start_type t) = true) (hop : ∀ c, c.of_opcode = true → C c = true)
    (fuel : Nat) : Proc.Follows (Calls C) (ε := RdbErrCode) (do
      RdbDecode.decode_meta_loop E fuel
      RdbDecode.decode_type_key E
      RdbDecode.decode_unzip E) :=
  .bind chains (steps.decode_meta_loop hop fuel) fun _ =>
    .bind chains (hdr_steps hC).decode_type_key fun _ => steps.decode_unzip

end Calls

namespace Short

/-- What follows an opcode. -/
theorem decode_meta_op (m : Meta E) : Short RdbBufptr.On (RdbDecode.decode_meta_op E m.op) m.data := by
  have hplain : ∀ n : StoredLen, Short RdbBufptr.On decode_plain n.bytes := fun n =>
    ((decode (.plain n)).mono fun _ _ h => .main h).left _
  have hstr : ∀ x : StoredStr E, Short RdbBufptr.At (decode_aux_str E) x.bytes := by
    intro x
    refine (decode x.hdr).bind (Reads.decode x.hdr).passes fun l => of_fact fun hl => ?_
    subst hl
    cases hint : x.is_int with
    | true =>
      obtain ⟨i, rfl⟩ := StoredStr.eq_int hint
      exact nil
    | false =>
      rw [if_neg (Reads.is_enc_eq hint)]
      exact (consume x hint).left _
  cases m with
  | module_aux data =>
    intro s c d pre hs hv hcut hd
    exact .of_run (e := .RDB_ERR_NOTSUP) (t := s) (o := []) rfl (by decide)
  | idle i => exact (hplain i).left _
  | freq f => exact (incr rfl).left _
  | aux var val =>
    refine ((hstr var).mono fun _ _ h => .main h).bind ((Reads.decode_aux_str var).passes.mono (fun _ _ h => .main h)
      fun _ _ _ h => h) fun _ => ?_
    exact ((hstr val).left _).mono fun _ _ h => h.1.at
  | dbresize i j =>
    exact (hplain i).bind (Reads.decode_plain_on i).passes fun _ => ((hplain j).left _).mono fun _ _ h => h.1
  | expired_ms ms h => exact (incr (le_bytes_length 8 ms)).left _
  | expired sec h => exact (incr (le_bytes_length 4 sec)).left _
  | dbselect db => exact (hplain db).left _

end Short

namespace RdbDecode

/-- Nothing is left where a record should start. -/
theorem decode_meta_loop_empty {s : St} (h : s.bptr.avail = 0) (fuel : Nat) :
    decode_meta_loop E fuel s = ⟨.ok (), s, []⟩ := by
  cases fuel with
  | zero => rfl
  | succ fuel =>
    rw [decode_meta_loop, Proc.read_bind_run, if_pos h]
    rfl

theorem decode_record_empty {s : St} (h : s.bptr.avail = 0) (fuel : Nat) :
    Errs (decode_meta_loop E fuel >>= fun _ => decode_type_key E) s :=
  .of_bind (decode_meta_loop_empty h fuel) (.of_run (decode_type_key_empty h) (by decide))

/-- The cut is in the opcodes, one of them fails, or all are handed out and the type is there. -/
theorem decode_meta_loop_cut (metas : List (Meta E)) {s : St} {c : Place} {d : Dest} {x : UInt8}
    {pre rest : List UInt8} {fuel : Nat} (hs : s.bptr.On c) (hv : c.Views pre)
    (hcut : Cut pre (metas.flatMap Meta.bytes ++ x :: rest))
    (hout : s.dec.out = some d) (hfuel : pre.length ≤ fuel) :
    (Errs (decode_meta_loop E fuel >>= fun _ => decode_type_key E) s ∧
      ((∀ m ∈ metas, m.fails = none) → pre.length ≤ (metas.flatMap Meta.bytes).length)) ∨
      (∀ m ∈ metas, m.fails = none) ∧ ∃ pre', pre = metas.flatMap Meta.bytes ++ x :: pre' ∧ Cut pre' rest := by
  induction metas generalizing s c pre fuel with
  | nil =>
    rcases hcut.cons with rfl | ⟨pre', rfl, hrest⟩
    · exact .inl ⟨decode_record_empty (hs.avail.trans hv.1) fuel, fun _ => Nat.zero_le _⟩
    · exact .inr ⟨by simp, pre', rfl, hrest⟩
  | cons m metas ih =>
    rw [List.flatMap_cons, List.append_assoc] at hcut
    rcases hcut.cons with rfl | ⟨pre, rfl, hdata⟩
    · exact .inl ⟨decode_record_empty (hs.avail.trans hv.1) fuel, fun _ => Nat.zero_le _⟩
    · have hdata : Cut pre (m.data ++ (metas.flatMap Meta.bytes ++ x :: rest)) := hdata
      obtain ⟨fuel, rfl⟩ : ∃ k, fuel = k + 1 := ⟨fuel - 1, by rw [List.length_cons] at hfuel; omega⟩
      have hturn := Proc.bind_congr_run (decode_meta_loop_succ (E := E) hs hv m.get_rdb_meta_code fuel)
        fun _ => decode_type_key E
      obtain ⟨_, b, o, hskip, hon, ho⟩ := Reads.skip (show [m.code].length = 1 from rfl) s c d pre hs hv hout
      have hv' : (c.adv 1).Views pre := (show c.Views ([m.code] ++ pre) from hv).adv
      have hbytes : ((m :: metas).flatMap Meta.bytes).length =
          m.data.length + (metas.flatMap Meta.bytes).length + 1 := by
        rw [List.flatMap_cons, List.length_append, Meta.bytes, List.length_cons]
        omega
      rcases hdata.append with hdata | ⟨pre, rfl, hmetas⟩
      · -- in what follows the opcode
        refine .inl ⟨?_, fun _ => by
          have := hdata.length_lt
          rw [hbytes, List.length_cons]
          omega⟩
        have herr := Short.decode_meta_op m { s with bptr := b } _ d pre hon hv' hdata hout
        rw [Errs, hturn]
        exact (Errs.of_bind hskip (herr.bind _)).bind _
      · cases hm : m.fails with
        | some e =>
          refine .inl ⟨?_, fun hgood => absurd (hgood m List.mem_cons_self) (by simp [hm])⟩
          have hv : c.Views ([m].flatMap Meta.bytes ++ pre) := by
            rw [List.flatMap_cons, List.flatMap_nil, List.append_nil]
            exact hv
          obtain ⟨t, o, hrun, -⟩ := @decode_meta_loop_fails _ _ _ _ _ _ (fuel + 1) _ hs hv
            (show (Meta.sent [m]).2 = some e by simp only [Meta.sent, hm]) hout (by simp)
          exact .of_run hrun (Meta.fails_ne_ok hm)
        | none =>
          obtain ⟨_, b', o', hop, hon', ho'⟩ := Reads.decode_meta_op m hm { s with bptr := b } _ d pre hon hv' hout
          have hfuel' : pre.length ≤ fuel := by
            rw [List.length_cons, List.length_append] at hfuel
            omega
          have hrest := ih (s := { s with bptr := b' }) hon' hv'.adv hmetas hout hfuel'
          rcases hrest with ⟨herr, hle⟩ | ⟨hgood, pre', rfl, hrest⟩
          · refine .inl ⟨?_, fun hgood => by
              have := hle fun m' hm' => hgood m' (List.mem_cons_of_mem m hm')
              rw [hbytes, List.length_cons, List.length_append]
              omega⟩
            rw [Errs, hturn, Proc.bind_assoc]
            refine Errs.of_bind hskip ?_
            rw [Proc.bind_assoc]
            exact Errs.of_bind hop herr
          · refine .inr ⟨?_, pre', ?_, hrest⟩
            · intro m' hm'
              rcases List.mem_cons.mp hm' with rfl | hm'
              · exact hm
              · exact hgood m' hm'
            · rw [List.flatMap_cons, List.append_assoc]
              rfl

/-- The header of a value or key, cut. -/
theorem decode_hdr_len_cut {s : St} {c : Place} (hs : s.bptr.At c) (hdr : Header) {pre : List UInt8}
    (hv : c.Views pre) (hcut : Cut pre hdr.bytes) : Errs decode_hdr_len s := by
  obtain ⟨e, l, b, hdec, hne⟩ := hs.decode_cut hdr hv hcut
  refine .of_run (e := e) (t := ⟨{ s.dec with rlen := l }, b⟩) (o := []) ?_ hne
  simp only [decode_hdr_len, hdec, if_neg hne]

/-- A key that is cut behind its header is refused, in any form. -/
theorem decode_key_cut {s : St} {c : Place} (x : StoredStr E) {d : Dest} (hs : s.bptr.On c)
    (hrlen : s.dec.rlen = RdbLength.ofHeader x.hdr) {pre : List UInt8} (hv : c.Views pre) (hcut : Cut pre x.data)
    (hout : s.dec.out = some d) : Errs (decode_key E) s := by
  cases hint : x.is_int with
  | true =>
    obtain ⟨i, rfl⟩ := StoredStr.eq_int hint
    exact absurd hcut Cut.not_nil
  | false =>
    have herr := Short.consume x hint s c d pre hs hv hcut hout
    rw [Errs, decode_key, Proc.read_bind_run, hrlen, if_neg (Reads.is_enc_eq hint)]
    exact herr.bind _

/-- The key, which only the records of a file have, and the header of the value. -/
def key_hdr (E : Env) (file : Bool) : DecodeProc Unit := do
  decode_hdr_len
  if file then
    decode_key E
    decode_hdr_len

/-- Behind the type. -/
theorem decode_type_key_eq {s : St} {c : Place} {type_byte : UInt8} {type : RdbType} {rest : List UInt8}
    (htype : get_rdb_type type_byte = type) (hbad : type ≠ .RDB_BAD_TYPE) (hs : s.bptr.On c)
    (hv : c.Views (type_byte :: rest)) :
    ∃ b, b.On (c.adv 1) ∧ decode_type_key E s =
      ⟨(key_hdr E s.dec.is_rdb_file ⟨{ s.dec with type := type }, b⟩).res,
        (key_hdr E s.dec.is_rdb_file ⟨{ s.dec with type := type }, b⟩).st,
        ⟨.data_out, .d_start_type type, c.offset⟩ ::
          (key_hdr E s.dec.is_rdb_file ⟨{ s.dec with type := type }, b⟩).out⟩ := by
  obtain ⟨havail, hbyte⟩ := On_next hs hv
  rw [← hbyte] at htype
  obtain ⟨b, hincr, hon⟩ := hs.incr (n := 1) (by rw [hv.1]; simp)
  have hstart : start_type type ⟨{ s.dec with type := type }, s.bptr⟩ =
      ⟨.ok (), ⟨{ s.dec with type := type }, s.bptr⟩, [⟨.data_out, .d_start_type type, c.offset⟩]⟩ := by
    rw [start_type, Proc.emit_run, hs.offset]
  have hskip : skip 1 ⟨{ s.dec with type := type }, s.bptr⟩ = ⟨.ok (), ⟨{ s.dec with type := type }, b⟩, []⟩ := by
    simp only [skip, Proc.update_run, hincr]
  refine ⟨b, hon, ?_⟩
  rw [decode_type_key, Proc.read_bind_run, if_neg havail]
  simp only [htype, if_neg hbad]
  rw [set_dec, Proc.update_bind_run]
  exact Proc.bind_ok hstart (Proc.bind_ok hskip rfl)

/-- The cut is in the key or the header of the value, or these are read. -/
theorem key_hdr_cut (file : Bool) (key : StoredStr E) (hdr : Header) {s : St} {c : Place} {d : Dest}
    {pre post : List UInt8} (hs : s.bptr.On c) (hv : c.Views pre)
    (hcut : Cut pre ((if file then key.bytes else []) ++ (hdr.bytes ++ post))) (hout : s.dec.out = some d) :
    (Errs (key_hdr E file) s ∧ pre.length < ((if file then key.bytes else []) ++ hdr.bytes).length) ∨
      ∃ pre' k b, pre = (if file then key.bytes else []) ++ (hdr.bytes ++ pre') ∧
      Cut pre' post ∧ b.On (c.adv ((if file then key.bytes else []) ++ hdr.bytes).length) ∧
        key_hdr E file s = ⟨.ok (), ⟨{ s.dec with key := k, rlen := RdbLength.ofHeader hdr }, b⟩, []⟩ := by
  cases file with
  | false =>
    rcases hcut.append with hnil | ⟨pre, rfl, hrest⟩
    · exact absurd hnil Cut.not_nil
    · rcases hrest.append with hhdr | ⟨pre, rfl, hpost⟩
      · exact .inl ⟨(decode_hdr_len_cut (.main hs) hdr hv hhdr).bind _, hhdr.length_lt⟩
      · obtain ⟨b, hrun, hon⟩ := decode_hdr_len_run (.main hs) hdr hv
        exact .inr ⟨pre, s.dec.key, b, rfl, hpost, hon, Proc.bind_quiet hrun⟩
  | true =>
    rw [if_pos rfl, StoredStr.bytes, List.append_assoc] at hcut
    rcases hcut.append with hkhdr | ⟨pre, rfl, hrest⟩
    · refine .inl ⟨(decode_hdr_len_cut (.main hs) key.hdr hv hkhdr).bind _, ?_⟩
      have := hkhdr.length_lt
      simp only [if_true, StoredStr.bytes, List.length_append]
      omega
    · obtain ⟨b₁, hrun₁, hon₁⟩ := decode_hdr_len_run (.main hs) key.hdr hv
      rcases hrest.append with hkey | ⟨pre, rfl, hrest'⟩
      · refine .inl ⟨?_, by
          have := hkey.length_lt
          simp only [if_true, StoredStr.bytes, List.length_append]
          omega⟩
        have herr := decode_key_cut (s := ⟨{ s.dec with rlen := RdbLength.ofHeader key.hdr }, b₁⟩) key hon₁ rfl hv.adv
          hkey hout
        exact .of_bind hrun₁ (herr.bind _)
      · obtain ⟨k, b₂, hrun₂, -, hclosed⟩ := decode_key_run
          (s := ⟨{ s.dec with rlen := RdbLength.ofHeader key.hdr }, b₁⟩) key hon₁ rfl hv.adv
        rcases hrest'.append with hhdr | ⟨pre, rfl, hpost⟩
        · refine .inl ⟨?_, by
            have := hhdr.length_lt
            simp only [if_true, StoredStr.bytes, List.length_append]
            omega⟩
          have herr := decode_hdr_len_cut (s := ⟨{ s.dec with rlen := RdbLength.ofHeader key.hdr, key := k }, b₂⟩)
            hclosed.at hdr hv.adv.adv hhdr
          exact .of_bind hrun₁ (.of_bind hrun₂ herr)
        · obtain ⟨b₃, hrun₃, hon₃⟩ := decode_hdr_len_run
            (s := ⟨{ s.dec with rlen := RdbLength.ofHeader key.hdr, key := k }, b₂⟩) hclosed.at hdr hv.adv.adv
          refine .inr ⟨pre, k, b₃, ?_, hpost, ?_, Proc.bind_ok hrun₁ (Proc.bind_ok hrun₂ hrun₃)⟩
          · rw [if_pos rfl, StoredStr.bytes, List.append_assoc]
          · simpa only [if_true, StoredStr.bytes, List.length_append, Place.adv_adv, Nat.add_assoc] using hon₃

theorem open_head_short (h : Head E) :
    Short RdbBufptr.On
      (if (RdbLength.ofHeader h.hdr).is_lzf then
        decompress E (RdbLength.ofHeader h.hdr) else pure ()) h.blob := by
  cases h with
  | len n => exact Short.nil
  | str x => exact Short.open_str x

/-- The cut is in the key, the header or the blob of the value, or the type and these are read. -/
theorem decode_value_cut (r : StoredRecord E) {file : Bool} {s : St} {c : Place} {d : Dest} {pre : List UInt8}
    (hfile : s.dec.is_rdb_file = file) (hs : s.bptr.On c) (hv : c.Views (r.value.type_byte :: pre))
    (hcut : Cut pre (r.key_in file ++ r.value.data)) (hout : s.dec.out = some d) :
    (Errs (decode_type_key E >>= fun _ => decode_unzip E) s ∧
      pre.length < (r.key_in file ++ (r.value.head.hdr.bytes ++ r.value.head.blob)).length) ∨ ∃ pre' k b c' o,
      pre = r.key_in file ++ (r.value.head.hdr.bytes ++ (r.value.head.blob ++ pre')) ∧
        Cut pre' r.value.plain ∧ c'.Views pre' ∧ b.OpenedHead r.value.head c' ∧
        (decode_type_key E >>= fun _ => decode_unzip E) s = ⟨.ok (), ⟨{ s.dec with
          type := r.value.type, key := k, rlen := RdbLength.ofHeader r.value.head.hdr }, b⟩, o⟩ := by
  subst hfile
  obtain ⟨b₁, hon₁, htype⟩ := decode_type_key_eq (E := E) r.value.get_rdb_type_byte r.value.type_ne_bad hs hv
  have hv₁ : (c.adv 1).Views pre := (show c.Views ([r.value.type_byte] ++ pre) from hv).adv
  rcases key_hdr_cut s.dec.is_rdb_file r.key r.value.head.hdr (s := ⟨{ s.dec with type := r.value.type }, b₁⟩) hon₁
    hv₁ hcut hout with ⟨⟨e, hres, hne⟩, hlt⟩ | ⟨pre, k, b₂, rfl, hrest, hon₂, hkey⟩
  · refine .inl ⟨Errs.bind ⟨e, by rw [htype, hres], hne⟩ _, ?_⟩
    rw [← List.append_assoc, List.length_append]
    exact Nat.lt_of_lt_of_le hlt (Nat.le_add_right _ _)
  · rw [hkey] at htype
    rw [← List.append_assoc] at hv₁
    rcases hrest.append with hblob | ⟨pre, rfl, hplain⟩
    · refine .inl ⟨.of_bind htype ?_, by
        have := hblob.length_lt
        simp only [StoredRecord.key_in, List.length_append]
        omega⟩
      exact open_head_short r.value.head ⟨{ s.dec with
        type := r.value.type, key := k, rlen := RdbLength.ofHeader r.value.head.hdr },
          b₂⟩ _ d pre hon₂ hv₁.adv hblob hout
    · obtain ⟨_, b₃, o, hunzip, hopen, ho⟩ := open_head r.value.head ⟨{ s.dec with
        type := r.value.type, key := k, rlen := RdbLength.ofHeader r.value.head.hdr }, b₂⟩ _ d pre hon₂ hv₁.adv hout
      exact .inr ⟨pre, k, b₃, _, _, rfl, hplain, hv₁.adv.adv, hopen, Proc.bind_ok htype hunzip⟩

/-- `decode_hdr` once the version is known. -/
theorem decode_hdr_known {s : St} {d : Dest} (hout : s.dec.out = some d) (hver : s.dec.ver ≠ 0) :
    decode_hdr E s = ((if s.dec.is_rdb_file then decode_meta_loop E (s.bptr.avail + s.bptr.sav_avail) else pure ())
      >>= fun _ => decode_type_key E >>= fun _ => decode_unzip E) s := by
  have hnone : ¬ s.dec.out = none := by simp [hout]
  rw [decode_hdr, Proc.read_bind_run, if_neg fun h => hnone h.1]
  simp only [if_neg hnone, if_neg hver, Proc.read_bind_run]
  split <;> rfl

/-- The cut is in what `decode_hdr` eats or an opcode fails, or the plain bytes of the value are cut. -/
theorem decode_hdr_cut (r : StoredRecord E) {file : Bool} {s : St} {c : Place} {d : Dest} {pre : List UInt8}
    (hfile : s.dec.is_rdb_file = file) (hout : s.dec.out = some d) (hver : s.dec.ver ≠ 0)
    (hs : s.bptr.On c) (hv : c.Views pre)
    (hcut : Cut pre (r.bytes file)) :
    (Errs (decode_hdr E) s ∧ ((∀ m ∈ r.metas_in file, m.fails = none) → pre.length < (r.front file).length)) ∨
      (∀ m ∈ r.metas_in file, m.fails = none) ∧ ∃ pre' k b c' o,
      pre = r.front file ++ pre' ∧ Cut pre' r.value.plain ∧ c'.Views pre' ∧
        b.OpenedHead r.value.head c' ∧ decode_hdr E s = ⟨.ok (), ⟨{ s.dec with
          type := r.value.type, key := k, rlen := RdbLength.ofHeader r.value.head.hdr }, b⟩, o⟩ := by
  have hbytes : r.bytes file = (r.metas_in file).flatMap Meta.bytes ++
      r.value.type_byte :: (r.key_in file ++ r.value.data) := by
    simp only [StoredRecord.bytes, StoredRecord.front, StoredValue.data, List.append_assoc, List.cons_append]
  have hfront : ∀ pre', (r.metas_in file).flatMap Meta.bytes ++ r.value.type_byte ::
      (r.key_in file ++ (r.value.head.hdr.bytes ++ (r.value.head.blob ++ pre'))) =
        r.front file ++ pre' := fun pre' => by
    simp only [StoredRecord.front, List.append_assoc, List.cons_append]
  rw [hbytes] at hcut
  have hknown := decode_hdr_known (E := E) hout hver
  cases file with
  | false =>
    have hdump : decode_hdr E s = (decode_type_key E >>= fun _ => decode_unzip E) s := by
      rw [hknown, hfile]
      rfl
    rcases hcut.cons with rfl | ⟨pre, rfl, hrest⟩
    · refine .inl ⟨?_, fun _ => Nat.zero_lt_succ _⟩
      rw [Errs, hdump]
      exact (Errs.of_run (decode_type_key_empty (hs.avail.trans hv.1)) (by decide)).bind _
    · rcases decode_value_cut r hfile hs hv hrest hout with
        ⟨herr, hlt⟩ | ⟨pre', k, b, c', o, rfl, hplain, hv', hopen, hrun⟩
      · refine .inl ⟨by rwa [Errs, hdump], fun _ => ?_⟩
        simpa only [StoredRecord.front, StoredRecord.metas_in, if_false, Bool.false_eq_true, List.flatMap_nil,
          List.nil_append, List.length_cons, Nat.add_lt_add_iff_right] using hlt
      · exact .inr ⟨by simp [StoredRecord.metas_in], pre', k, b, c', o, hfront pre', hplain, hv', hopen,
          hdump.trans hrun⟩
  | true =>
    have hloop : decode_hdr E s = ((decode_meta_loop E (s.bptr.avail + s.bptr.sav_avail) >>= fun _ =>
        decode_type_key E) >>= fun _ => decode_unzip E) s := by
      rw [hknown, hfile, Proc.bind_assoc]
      rfl
    have hfuel : pre.length ≤ s.bptr.avail + s.bptr.sav_avail := by
      rw [hs.avail, hv.1]
      omega
    have hfrontlen : (r.front true).length = ((r.metas_in true).flatMap Meta.bytes).length +
        ((r.key_in true ++ (r.value.head.hdr.bytes ++ r.value.head.blob)).length + 1) := by
      rw [StoredRecord.front, List.length_append, List.length_cons]
    rcases decode_meta_loop_cut _ hs hv hcut hout hfuel with ⟨herr, hle⟩ | ⟨hgood, pre, rfl, hvalue⟩
    · refine .inl ⟨?_, fun hgood => ?_⟩
      · rw [Errs, hloop]
        exact herr.bind _
      · have := hle hgood
        omega
    · obtain ⟨b₁, o₁, hmetas, hon₁, -⟩ := decode_meta_loop_run (r.metas_in true) hs hv r.value.get_rdb_meta_byte hgood
        hout (Nat.lt_of_lt_of_le (by
          have hle := metas_length_le (r.metas_in true)
          rw [List.length_append, List.length_cons]
          omega) hfuel)
      rw [Proc.bind_assoc] at hloop
      rcases decode_value_cut r (s := { s with bptr := b₁ }) hfile hon₁ hv.adv hvalue hout with
        ⟨herr, hlt⟩ | ⟨pre', k, b, c', o, rfl, hplain, hv', hopen, hrun⟩
      · refine .inl ⟨?_, fun _ => ?_⟩
        · rw [Errs, hloop]
          exact Errs.of_bind hmetas herr
        · rw [List.length_append, List.length_cons, hfrontlen]
          omega
      · exact .inr ⟨hgood, pre', k, b, c', _, hfront pre', hplain, hv', hopen,
          hloop.trans (Proc.bind_ok hmetas hrun)⟩

/-- Handing out the elements of a list does not move the cursor. -/
theorem list_loop_still (next : RdbListValue → Bool × RdbListValue) (base : Ptr) (cnt fuel num : Nat)
    (lval : RdbListValue) : ∃ n, ∀ s, ∃ o, list_loop next base cnt fuel num lval s = ⟨.ok n, s, o⟩ := by
  induction fuel generalizing num lval with
  | zero => exact ⟨num, fun s => ⟨[], rfl⟩⟩
  | succ fuel ih =>
    have hcall : ∀ s, ∃ o, call (.d_list num cnt (decode_lval base lval).val) s = ⟨.ok (), s, o⟩ :=
      fun s => ⟨_, Proc.emit_run _ s⟩
    unfold list_loop
    by_cases hmore : (next lval).1 = true
    · obtain ⟨n, hrest⟩ := ih (num + 1) (next lval).2
      refine ⟨n, fun s => ?_⟩
      obtain ⟨o, hcall⟩ := hcall s
      obtain ⟨o', hrun⟩ := hrest s
      refine ⟨o ++ o', Proc.bind_ok hcall ?_⟩
      simp only [hmore, if_true, hrun]
    · refine ⟨num, fun s => ?_⟩
      obtain ⟨o, hcall⟩ := hcall s
      refine ⟨o ++ [], Proc.bind_ok hcall ?_⟩
      simp only [hmore]
      rfl

end RdbDecode

namespace Passes

/-- The blob of a node, wherever it is. -/
theorem blob {α : Type} (x : Blob E) {f : RdbLength → Ptr → DecodeProc α}
    (hf : ∀ l p s, Errs (f l p) s ∨ ∃ a o, f l p s = ⟨.ok a, s, o⟩) :
    Passes RdbBufptr.At (DecodeProc.decode {} >>= fun l => DecodeProc.consume E l >>= fun p => f l p) x.str.bytes
      fun _ => RdbBufptr.At := by
  refine (Reads.decode x.str.hdr).passes.bind fun l => of_fact fun hl => ?_
  subst hl
  have h := (Reads.consume x.str x.not_int).passes.bind fun p =>
    (still (hf (RdbLength.ofHeader x.str.hdr) p)).mono (fun _ _ h => h) fun _ _ _ h => h.1.at
  rwa [List.append_nil] at h

/-- A node of a quicklist of the first form is passed if its list can be read, or an error is returned in it: what is
behind the node is not looked at. -/
theorem decode_quicklist_node (x : Blob E) (num : Nat) :
    Passes RdbBufptr.At (RdbDecode.decode_quicklist_node E num) x.str.bytes fun _ => RdbBufptr.At := by
  refine blob x fun l p s => ?_
  cases RdbZipList.init p l.len with
  | none => exact .inl (.of_run (e := .RDB_ERR_TRUNC) (t := s) (o := []) rfl (by decide))
  | some zip =>
    by_cases hfirst : zip.first.1 = true
    · simp only [if_pos hfirst]
      obtain ⟨n, hrun⟩ := RdbDecode.list_loop_still zip.next p 0 zip.zlbytes num zip.first.2
      exact .inr ⟨n, hrun s⟩
    · simp only [if_neg hfirst]
      exact .inr ⟨num, [], rfl⟩

/-- The same for the second form, where the container stands in front of the list. -/
theorem decode_quicklist_2_node (x : StoredLen × Blob E) (num : Nat) :
    Passes RdbBufptr.At (RdbDecode.decode_quicklist_2_node E num) (x.1.bytes ++ x.2.str.bytes)
      fun _ => RdbBufptr.At := by
  refine (Reads.decode (.plain x.1)).passes.bind fun container => ?_
  refine Passes.mono (blob x.2 fun l p s => ?_) (fun _ _ h => .main h.1) fun _ _ _ h => h
  by_cases hpacked : container.len = 2
  · simp only [if_pos hpacked]
    cases RdbListPack.init p l.len with
    | none => exact .inl (.of_run (e := .RDB_ERR_TRUNC) (t := s) (o := []) rfl (by decide))
    | some lp =>
      by_cases hfirst : lp.first.1 = true
      · simp only [if_pos hfirst]
        obtain ⟨n, hrun⟩ := RdbDecode.list_loop_still lp.next p 0 lp.lpbytes num lp.first.2
        exact .inr ⟨n, hrun s⟩
      · simp only [if_neg hfirst]
        exact .inr ⟨num, [], rfl⟩
  · simp only [if_neg hpacked]
    exact .inl (.of_run (e := .RDB_ERR_NOTSUP) (t := s) (o := []) rfl (by decide))

end Passes

namespace Short

theorem blob {α : Type} (x : Blob E) (f : RdbLength → Ptr → DecodeProc α) :
    Short RdbBufptr.At (DecodeProc.decode {} >>= fun l => DecodeProc.consume E l >>= fun p => f l p) x.str.bytes := by
  refine (decode x.str.hdr).bind (Reads.decode x.str.hdr).passes fun l => of_fact fun hl => ?_
  subst hl
  exact (consume x.str x.not_int).left _

theorem decode_quicklist_node (x : Blob E) (num : Nat) :
    Short RdbBufptr.At (RdbDecode.decode_quicklist_node E num) x.str.bytes := blob x _

theorem decode_quicklist_2_node (x : StoredLen × Blob E) (num : Nat) :
    Short RdbBufptr.At (RdbDecode.decode_quicklist_2_node E num) (x.1.bytes ++ x.2.str.bytes) :=
  (decode (.plain x.1)).bind (Reads.decode (.plain x.1)).passes fun _ => (blob x.2 _).mono fun _ _ h => .main h.1

end Short

namespace RdbDecode

/-- The elements of a key are cut. -/
theorem framed_cut {α : Type} {P : RdbBufptr → Place → Prop} {f : St → DecodeProc α} {g : St → α → DecodeProc Unit}
    {bs pre : List UInt8} {s : St} {c : Place} (hf : Short P (f { s with dec.out := some s.dec.dest }) bs)
    (hs : P s.bptr c) (hv : c.Views pre) (hcut : Cut pre bs) :
    Errs (start_key >>= fun _ => Proc.read >>= fun t => f t >>= g t) s := by
  refine .of_bind (start_key_run s) ?_
  rw [Errs, Proc.read_bind_run]
  exact (hf { s with dec.out := some s.dec.dest } c s.dec.dest pre hs hv hcut rfl).bind _

/-- A value that is packed in a string is cut. -/
theorem packed_cut {g : St → Ptr → DecodeProc Unit} {x : StoredStr E} {pre : List UInt8} {s : St} {c : Place}
    (hrlen : s.dec.rlen = RdbLength.ofHeader x.hdr) (hs : s.bptr.Opened x c) (hv : c.Views pre)
    (hcut : Cut pre x.plain) : Errs (start_key >>= fun _ => Proc.read >>= fun t => incr t.dec.rlen.len >>= g t) s := by
  cases x with
  | raw len text hlen =>
    refine framed_cut (P := RdbBufptr.On) (Short.incr ?_) hs hv hcut
    rw [hrlen]
    exact hlen.symm
  | int i => exact absurd hcut Cut.not_nil
  | lzf => exact absurd hcut Cut.not_nil

end RdbDecode

end rdbparser
