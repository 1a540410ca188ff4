import Rdbparser.Decode.Reads

namespace rdbparser.Reads

open format RdbDecode

variable {E : Env}

theorem skip {bs : List UInt8} {n : Nat} (hn : bs.length = n) :
    Reads RdbBufptr.On (DecodeProc.skip n) bs [] fun _ => RdbBufptr.On := by
  intro s c d rest hs hv hd
  subst hn
  obtain ⟨b, hincr, hon⟩ := hs.incr hv.le
  refine ⟨(), b, [], ?_, hon, rfl⟩
  simp only [DecodeProc.skip, Proc.update_run, hincr]

theorem decode_plain_on (l : StoredLen) :
    Reads RdbBufptr.On RdbDecode.decode_plain l.bytes [] fun n b c => b.On c ∧ n = l.val :=
  (decode_plain l).mono (fun _ _ h => .main h) fun _ _ _ h => h

/-- A string is read in whatever form it is stored, and says what was stored. Where it is compressed the cursor is at
the end of its buffer then, and has not gone back to the main one. -/
theorem decode_aux_str (x : StoredStr E) :
    Reads RdbBufptr.At (RdbDecode.decode_aux_str E) x.bytes []
      fun r b c => b.Closed x c ∧ r.val = x.val := by
  refine (decode x.hdr).bind_read fun l => of_fact fun hl => ?_
  subst hl
  cases hint : x.is_int with
  | true =>
    obtain ⟨i, rfl⟩ := StoredStr.eq_int hint
    have hnum : (RdbLength.ofHeader (.int i)).is_enc ≠ 0 := i.form.nbyte_ne
    rw [StoredStr.hdr, if_pos hnum]
    exact value fun b c h => ⟨h, RdbString.set_int_val _ i.bounds.1 i.bounds.2⟩
  | false =>
    rw [if_neg (is_enc_eq hint)]
    intro s c d rest hs hv hd
    obtain ⟨p, b, hcons, hclosed, hholds, -⟩ := consume_run x hint hs hv
    exact ⟨_, b, [], Proc.bind_quiet hcons, ⟨hclosed, (hholds .empty).val⟩, rfl⟩

/-- An AUX field: two strings. -/
theorem decode_aux (var val : StoredStr E) :
    Reads RdbBufptr.On (RdbDecode.decode_meta_op E .RDB_AUX) (var.bytes ++ val.bytes)
      [.d_aux var.val val.val] fun _ => RdbBufptr.Closed val := by
  refine ((decode_aux_str var).mono (fun _ _ h => .main h) fun _ _ _ h => h).bind_read
    fun r => of_fact fun hr => ?_
  refine ((decode_aux_str val).mono (fun _ _ h => h.at) fun _ _ _ h => h).bind_call
    fun r' => of_fact fun hr' => ?_
  rw [hr, hr']
  exact call _

/-- What follows an opcode is handed out by one callback. -/
theorem decode_meta_op (m : Meta E) (hm : m.fails = none) :
    Reads RdbBufptr.On (RdbDecode.decode_meta_op E m.op) m.data m.calls
      fun _ => RdbBufptr.On := by
  cases m with
  | module_aux data => contradiction
  | idle i =>
    refine (decode_plain_on i).bind_call fun n => of_fact fun hn => ?_
    subst hn
    exact call _
  | freq f =>
    refine (incr 1 rfl).bind_call fun p => of_fact fun hp => ?_
    have hget : p.mem 0 = f := (Mem.starts_cons.mp hp).1
    rw [hget]
    exact call _
  | aux var val =>
    have hval : val.is_lzf = false := by
      by_contra h
      simp [Meta.fails, h] at hm
    exact (decode_aux var val).mono (fun _ _ h => h) fun _ _ _ h => h.on hval
  | dbresize i j =>
    refine (decode_plain_on i).bind_read fun n => of_fact fun hn => ?_
    refine (decode_plain_on j).bind_call fun n' => of_fact fun hn' => ?_
    subst hn hn'
    exact call _
  | expired_ms ms hms =>
    refine (incr 8 (le_bytes_length 8 ms)).bind_call fun p => of_fact fun hp => ?_
    have hget : p.mem.take 8 = le_bytes 8 ms := by simpa using hp.take
    rw [hget, le_nat_le_bytes, Nat.mod_eq_of_lt (show ms < 256 ^ 8 from hms)]
    exact call _
  | expired sec hsec =>
    refine (incr 4 (le_bytes_length 4 sec)).bind_call fun p => of_fact fun hp => ?_
    have hget : p.mem.take 4 = le_bytes 4 sec := by simpa using hp.take
    rw [hget, le_nat_le_bytes, Nat.mod_eq_of_lt (show sec < 256 ^ 4 from hsec)]
    exact call _
  | dbselect db =>
    refine (decode_plain_on db).bind_call fun n => of_fact fun hn => ?_
    subst hn
    exact call _

theorem decode_list_elem (cnt num : Nat) (x : StoredStr E) :
    Reads RdbBufptr.At (RdbDecode.decode_list_elem E cnt num) x.bytes [.d_list num cnt x.val]
      fun _ => RdbBufptr.At := by
  refine (decode_rlen .empty x).bind_call fun r => of_fact fun hr => ?_
  rw [hr]
  exact (call _).mono (fun _ _ h => h) fun _ _ _ h => h.at

theorem decode_set_elem (cnt num : Nat) (x : StoredStr E) :
    Reads RdbBufptr.At (RdbDecode.decode_set_elem E cnt num) x.bytes [.d_set num cnt x.val]
      fun _ => RdbBufptr.At := by
  refine (decode_rlen .empty x).bind_call fun r => of_fact fun hr => ?_
  rw [hr]
  exact (call _).mono (fun _ _ h => h) fun _ _ _ h => h.at

/-- A field and its value are read one behind the other, each in any form. -/
theorem decode_hash_elem (cnt num : Nat) (x : StoredStr E × StoredStr E) :
    Reads RdbBufptr.At (RdbDecode.decode_hash_elem E cnt num) (x.1.bytes ++ x.2.bytes)
      [.d_hash num cnt x.1.val x.2.val] fun _ => RdbBufptr.At := by
  refine (decode_rlen .empty x.1).bind_read fun r => of_fact fun hr => ?_
  refine ((decode_rlen .empty x.2).mono (fun _ _ h => h.at) fun _ _ _ h => h).bind_call
    fun r' => of_fact fun hr' => ?_
  rw [hr, hr']
  exact (call _).mono (fun _ _ h => h) fun _ _ _ h => h.at

/-- A counted loop whose body reads one part reads all of them, in order. -/
theorem count_parts {α : Type} {P : RdbBufptr → Place → Prop} {body : Nat → DecodeProc Unit}
    {bytes : α → List UInt8} {calls : Nat → α → List Callback} {xs : List α}
    (hbody : ∀ num, ∀ x ∈ xs, Reads P (body num) (bytes x) (calls num x) fun _ => P) (k : Nat) :
    Reads P (Proc.count body k xs.length) (xs.flatMap bytes)
      (xs.mapIdx fun num x => calls (k + num) x).flatten fun _ => P := by
  induction xs generalizing k with
  | nil => exact value fun b c h => h
  | cons x xs ih =>
    have htail := ih (fun num y hy => hbody num y (List.mem_cons_of_mem x hy)) (k + 1)
    have h := (hbody k x List.mem_cons_self).bind fun _ => htail
    rw [List.flatMap_cons, List.mapIdx_cons, List.flatten_cons]
    simp only [Nat.add_zero, Nat.add_assoc, Nat.add_comm 1] at h ⊢
    exact h

theorem mapIdx_singleton {α : Type} (xs : List α) (f : Nat → α → Callback) :
    (xs.mapIdx fun num x => [f num x]).flatten = xs.mapIdx f := by
  rw [List.mapIdx_eq_zipIdx_map, List.mapIdx_eq_zipIdx_map, ← List.flatMap_def]
  exact List.map_eq_flatMap.symm

/-- A counted loop whose body reads one element. -/
theorem count {α : Type} {P : RdbBufptr → Place → Prop} {body : Nat → DecodeProc Unit}
    {bytes : α → List UInt8} {calls : Nat → α → Callback} {xs : List α}
    (hbody : ∀ num, ∀ x ∈ xs, Reads P (body num) (bytes x) [calls num x] fun _ => P) (k : Nat) :
    Reads P (Proc.count body k xs.length) (xs.flatMap bytes)
      (xs.mapIdx fun num x => calls (k + num) x) fun _ => P := by
  have h := count_parts hbody k
  rwa [mapIdx_singleton] at h

end rdbparser.Reads
