import Rdbparser.Decode.Lists
import Rdbparser.Keys

/-! Sets of integers: which integers are handed out, and of which bytes. -/

namespace rdbparser

open format RdbDecode DecodeProc

/-- The sizes a member may have. -/
def IntSize (nbyte : Nat) : Prop := nbyte = 1 ∨ nbyte = 2 ∨ nbyte = 4 ∨ nbyte = 8

instance (nbyte : Nat) : Decidable (IntSize nbyte) := inferInstanceAs (Decidable (_ ∨ _))

/-- The cursor `n` bytes further on. -/
def St.ahead (s : St) (n : Nat) : St :=
  { s with bptr.buf := s.bptr.buf.add n, bptr.avail := s.bptr.avail - n, bptr.offset := s.bptr.offset + n }

/-- The decoder once the key is started. -/
def St.started (s : St) : St := { s with dec.out := some s.dec.dest }

namespace RdbDecode

theorem incr_ahead {s : St} {n : Nat} (h : n ≤ s.bptr.avail) : incr n s = ⟨.ok s.bptr.buf.ptr, s.ahead n, []⟩ := by
  unfold incr
  rw [RdbBufptr.incr_some h]
  rfl

theorem incr_short {s : St} {n : Nat} (h : s.bptr.avail < n) : incr n s = ⟨.error .RDB_ERR_TRUNC, s, []⟩ := by
  unfold incr
  rw [RdbBufptr.incr_none h]

theorem count_call_run (f : Nat → Callback) {s : St} {d : Dest} (hout : s.dec.out = some d) (k n : Nat) :
    Proc.count (fun num => call (f num)) k n s =
      ⟨.ok (), s, (List.range' k n).map fun num => ⟨d, f num, s.bptr.offset⟩⟩ := by
  induction n generalizing k with
  | zero => rfl
  | succ n ih => exact Proc.bind_ok (call_run hout (f k)) (ih (k + 1))

def start_event (s : St) : Event := ⟨s.dec.dest, .d_start_key s.dec.type s.dec.key.val, s.bptr.offset⟩

/-- The member with the running number `num` of the set at `p`. -/
def intset_call (p : Mem) (nbyte nelem num : Nat) : Callback :=
  .d_set num nelem (RdbString.empty.set_int (intset_val nbyte (p.add (8 + nbyte * num)))).val

/-- A member is read up to its size only. -/
theorem intset_val_congr {nbyte : Nat} (hsize : IntSize nbyte) {p q : Mem} (h : ∀ i < nbyte, p i = q i) :
    intset_val nbyte p = intset_val nbyte q := by
  rw [IntSize] at hsize
  unfold intset_val
  split
  · rw [h 0 Nat.one_pos]
  · rw [Mem.take_congr h]
  · next h₁ h₂ =>
    have h₁ : nbyte ≠ 1 := h₁
    have h₂ : nbyte ≠ 2 := h₂
    rw [Mem.take_congr fun i hi => h i (by omega)]

section intset

variable {s : St} {nbyte nelem : Nat}

theorem decode_set_intset_short (h : s.bptr.avail < 8) :
    decode_set_intset s = ⟨.error .RDB_ERR_TRUNC, s.started, [start_event s]⟩ :=
  Proc.bind_ok (start_key_run s) (Proc.bind_error (incr_short (s := s.started) h))

/-- The members of a set of `nelem` integers of `nbyte` bytes. -/
def intset_members (nbyte nelem : Nat) : DecodeProc Unit :=
  if nbyte ≠ 1 ∧ nbyte ≠ 2 ∧ nbyte ≠ 4 ∧ nbyte ≠ 8 then Proc.ret .RDB_ERR_NOTSUP
  else incr (nbyte * nelem % 2 ^ 32) >>= fun b =>
    Proc.count (fun num => call (.d_set num nelem
      (RdbString.empty.set_int (intset_val nbyte (b.mem.add (nbyte * num)))).val)) 0 nelem >>= fun _ => end_key

theorem decode_set_intset_eq : decode_set_intset = (start_key >>= fun _ => incr 8 >>= fun b =>
    intset_members (le_nat (b.mem.take 4)) (le_nat ((b.mem.add 4).take 4))) := rfl

theorem intset_size : ¬ (nbyte ≠ 1 ∧ nbyte ≠ 2 ∧ nbyte ≠ 4 ∧ nbyte ≠ 8) ↔ IntSize nbyte := by
  rw [IntSize]
  omega

variable (hnbyte : le_nat (s.bptr.buf.ptr.mem.take 4) = nbyte)
    (hnelem : le_nat ((s.bptr.buf.ptr.mem.add 4).take 4) = nelem)
  (h8 : 8 ≤ s.bptr.avail)

include hnbyte hnelem h8

/-- Behind the head of a set. -/
theorem decode_set_intset_head {r : Except RdbErrCode Unit} {t : St} {o : List Event}
    (h : intset_members nbyte nelem (s.started.ahead 8) = ⟨r, t, o⟩) : decode_set_intset s =
      ⟨r, t, start_event s :: o⟩ := by
  rw [decode_set_intset_eq]
  refine Proc.bind_ok (start_key_run s) ((Proc.bind_quiet (incr_ahead (s := s.started) h8)).trans ?_)
  rw [← hnbyte, ← hnelem] at h
  exact h

theorem decode_set_intset_notsup (hsize : ¬ IntSize nbyte) :
    decode_set_intset s = ⟨.error .RDB_ERR_NOTSUP, s.started.ahead 8, [start_event s]⟩ := by
  refine decode_set_intset_head hnbyte hnelem h8 ?_
  rw [intset_members, if_pos (not_not.mp (mt intset_size.mp hsize)), Proc.ret_run]

theorem decode_set_intset_trunc (hsize : IntSize nbyte) (hcut : s.bptr.avail < 8 + nbyte * nelem % 2 ^ 32) :
    decode_set_intset s = ⟨.error .RDB_ERR_TRUNC, s.started.ahead 8, [start_event s]⟩ := by
  have hshort : (s.started.ahead 8).bptr.avail < nbyte * nelem % 2 ^ 32 := show s.bptr.avail - 8 < _ by omega
  refine decode_set_intset_head hnbyte hnelem h8 ?_
  rw [intset_members, if_neg (intset_size.mpr hsize), Proc.bind_error (incr_short hshort)]

/-- A set of integers whose header is taken and whose bytes are all there, in the 32 bits that their number is counted
in: as many callbacks as the header says, and the cursor is moved by that number. -/
theorem decode_set_intset_ok (hsize : IntSize nbyte) (hle : 8 + nbyte * nelem % 2 ^ 32 ≤ s.bptr.avail) :
    decode_set_intset s = ⟨.ok (), s.started.ahead (8 + nbyte * nelem % 2 ^ 32), start_event s ::
      ((List.range nelem).map (fun num => ⟨s.dec.dest, intset_call s.bptr.buf.ptr.mem nbyte nelem num,
        s.bptr.offset + (8 + nbyte * nelem % 2 ^ 32)⟩) ++
      [⟨s.dec.dest, .d_end_key s.dec.type, s.bptr.offset + (8 + nbyte * nelem % 2 ^ 32)⟩])⟩ := by
  have hall : nbyte * nelem % 2 ^ 32 ≤ (s.started.ahead 8).bptr.avail := show _ ≤ s.bptr.avail - 8 by omega
  have hahead : (s.started.ahead 8).ahead (nbyte * nelem % 2 ^ 32) = s.started.ahead (8 + nbyte * nelem % 2 ^ 32) := by
    simp only [St.ahead, Cursor.add_add, Nat.sub_sub, Nat.add_assoc]
  have hmem : ∀ num, (s.started.ahead 8).bptr.buf.ptr.mem.add num = s.bptr.buf.ptr.mem.add (8 + num) := fun num => by
    change (s.bptr.buf.add 8).ptr.mem.add num = _
    rw [Cursor.ptr_mem_add, Mem.add_add]
  refine decode_set_intset_head hnbyte hnelem h8 ?_
  rw [intset_members, if_neg (intset_size.mpr hsize), Proc.bind_quiet (incr_ahead hall), hahead]
  simp only [hmem]
  rw [List.range_eq_range']
  exact Proc.bind_ok (count_call_run _ rfl 0 nelem) (end_key_run rfl)

end intset

end RdbDecode

/-- What is handed out is said by the run. -/
theorem HandsOut.iff {x : DecodeProc Unit} {s : St} {calls : List Callback} (h : HandsOut x s calls)
    (calls' : List Callback) :
    HandsOut x s calls' ↔ calls = calls' := by
  constructor
  · rintro ⟨t', o', hrun', ho'⟩
    obtain ⟨t, o, hrun, ho⟩ := h
    obtain ⟨-, -, rfl⟩ := Run.mk.inj (hrun.symm.trans hrun')
    have hcalls := List.append_cancel_right (List.cons.inj (ho.symm.trans ho')).2
    exact (List.map_injective_iff.mpr fun a b hab => (Prod.mk.inj hab).2) hcalls
  · rintro rfl
    exact h

namespace format

/-- A set of integers of the same size. -/
structure IntMembers where
  nbyte : Nat
  members : List (List UInt8)
  hnbyte : IntSize nbyte
  hmembers : ∀ m ∈ members, m.length = nbyte
  hcount : members.length < 2 ^ 32

namespace IntMembers

variable (x : IntMembers)

def bytes : List UInt8 := le_bytes 4 x.nbyte ++ (le_bytes 4 x.members.length ++ x.members.flatten)

/-- Two's complement over the full width of a member. -/
def val (m : List UInt8) : Int := sext (8 * x.nbyte) (le_nat m)

/-- What is read of a member. -/
def read (m : List UInt8) : Int := sext (8 * min x.nbyte 4) (le_nat (m.take 4))

theorem nbyte_lt : x.nbyte < 256 ^ 4 := by
  have := x.hnbyte
  rw [IntSize] at this
  omega

end IntMembers

end format

/-- Members of the same size lie one behind the other. -/
theorem Mem.Starts.member {p : Mem} {n : Nat} {as : List (List UInt8)} (h : p.Starts as.flatten)
    (hlen : ∀ a ∈ as, a.length = n)
    {i : Nat} (hi : i < as.length) : (p.add (n * i)).Starts as[i] := by
  induction as generalizing p i with
  | nil => exact absurd hi (Nat.not_lt_zero i)
  | cons a as ih =>
    obtain ⟨ha, has⟩ := List.forall_mem_cons.mp hlen
    rw [List.flatten_cons, Mem.starts_append, ha] at h
    cases i with
    | zero =>
      rw [Nat.mul_zero, Mem.add_zero]
      exact h.1
    | succ i =>
      have hnext := ih h.2 has (Nat.lt_of_succ_lt_succ hi)
      rwa [Mem.add_add, Nat.add_comm n, ← Nat.mul_succ] at hnext

namespace format.IntMembers

variable (x : IntMembers) {m : List UInt8}

theorem flatten_length {n : Nat} {as : List (List UInt8)} (h : ∀ a ∈ as, a.length = n) :
    as.flatten.length = n * as.length := by
  induction as with
  | nil => rfl
  | cons a as ih =>
    obtain ⟨ha, has⟩ := List.forall_mem_cons.mp h
    rw [List.flatten_cons, List.length_append, ha, ih has, List.length_cons, Nat.mul_succ, Nat.add_comm]

theorem bytes_length : x.bytes.length = 8 + x.nbyte * x.members.length := by
  rw [bytes, List.length_append, List.length_append, le_bytes_length, le_bytes_length,
    flatten_length x.hmembers, ← Nat.add_assoc]

/-- What the code takes for a member, by the bytes that are stored for it. -/
theorem intset_val_read (hm : m.length = x.nbyte) {p : Mem} (hp : p.Starts m) : intset_val x.nbyte p = x.read m := by
  have htake : p.take (min x.nbyte 4) = m.take 4 := by
    rw [hp.take_le (by omega), ← hm, Nat.min_comm, ← List.take_eq_take_min]
  have hsize := x.hnbyte
  rw [IntSize] at hsize
  rw [read, ← htake]
  unfold intset_val
  split
  · next h =>
    rw [h, Nat.min_eq_left (by decide), Mem.take_succ]
    exact congrArg (sext 8) (Nat.add_zero _).symm
  · next h => rw [h, Nat.min_eq_left (by decide)]
  · next h₁ h₂ =>
    have h₁ : x.nbyte ≠ 1 := h₁
    have h₂ : x.nbyte ≠ 2 := h₂
    rw [Nat.min_eq_right (by omega)]

/-- A member fits 32 bits in all three widths, as those of eight bytes are cut to their low half. -/
theorem read_range (m : List UInt8) : -2 ^ 31 ≤ x.read m ∧ x.read m < 2 ^ 31 := by
  have hrange : ∀ w, 0 < w → w ≤ 32 → -2 ^ 31 ≤ sext w (le_nat (m.take 4)) ∧ sext w (le_nat (m.take 4)) < 2 ^ 31 :=
    fun w hw hle => by
    obtain ⟨v, rfl⟩ : ∃ v, w = v + 1 := ⟨w - 1, by omega⟩
    have hmin := @Int.le_bmod (le_nat (m.take 4)) (2 ^ (v + 1)) (Nat.two_pow_pos _)
    have hmax := @Int.bmod_lt (le_nat (m.take 4)) (2 ^ (v + 1)) (Nat.two_pow_pos _)
    have hpow : 2 ^ v ≤ 2 ^ 31 := Nat.pow_le_pow_right (by decide) (by omega)
    rw [sext]
    rw [Nat.pow_succ] at *
    omega
  have hsize := x.hnbyte
  rw [IntSize] at hsize
  exact hrange _ (by omega) (by omega)

/-- A member of 8 bytes is read from the low half of it. -/
theorem read_eq_val (hm : m.length = x.nbyte) :
    x.read m = x.val m ↔ (x.nbyte = 8 → -2 ^ 31 ≤ x.val m ∧ x.val m < 2 ^ 31) := by
  rw [read, val]
  by_cases h8 : x.nbyte = 8
  · rw [h8] at hm ⊢
    have hlo := le_nat_lt (m.take 4)
    have hhi := le_nat_lt (m.drop 4)
    have hsplit := le_nat_append (m.take 4) (m.drop 4)
    rw [List.length_take_of_le (by omega)] at hlo hsplit
    rw [List.length_drop, hm] at hhi
    rw [List.take_append_drop] at hsplit
    rw [hsplit]
    generalize le_nat (m.take 4) = lo at *
    generalize le_nat (m.drop 4) = hi at *
    simp only [Nat.reduceSub, Nat.reducePow, Nat.reduceMul, Nat.reduceLeDiff, min_eq_right] at *
    rw [sext_eq (w := 32) (by decide) hlo, sext_eq (w := 64) (by decide) (by omega)]
    simp only [Nat.reducePow, forall_const]
    split <;> split <;> omega
  · have hsame : min x.nbyte 4 = x.nbyte := by
      have := x.hnbyte
      rw [IntSize] at this
      omega
    rw [hsame, List.take_of_length_le (by omega)]
    exact iff_of_true rfl fun h => absurd h h8

end format.IntMembers

/-- The members are handed out in order, as they are read. -/
theorem decode_set_intset_members (x : IntMembers) {s : St} (hs : s.bptr.buf.ptr.mem.Starts x.bytes)
    (havail : x.bytes.length ≤ s.bptr.avail) :
    HandsOut decode_set_intset s (x.members.mapIdx fun i m => .d_set i x.members.length (.int (x.read m))) := by
  rw [x.bytes_length] at havail
  rw [IntMembers.bytes, Mem.starts_append, Mem.starts_append, Mem.add_add, le_bytes_length, le_bytes_length] at hs
  obtain ⟨hnbyte, hnelem, hmembers⟩ := hs
  have hnbyte : le_nat (s.bptr.buf.ptr.mem.take 4) = x.nbyte := by
    have htake := hnbyte.take
    rw [le_bytes_length] at htake
    rw [htake, le_nat_le_bytes, Nat.mod_eq_of_lt x.nbyte_lt]
  have hnelem : le_nat ((s.bptr.buf.ptr.mem.add 4).take 4) = x.members.length := by
    have htake := hnelem.take
    rw [le_bytes_length] at htake
    rw [htake, le_nat_le_bytes, Nat.mod_eq_of_lt (show _ < 256 ^ 4 from x.hcount)]
  have hmod := Nat.mod_le (x.nbyte * x.members.length) (2 ^ 32)
  refine ⟨_, _, decode_set_intset_ok hnbyte hnelem (by omega) x.hnbyte (by omega), ?_⟩
  rw [List.map_cons, List.map_append, List.map_map]
  have hcalls : (List.range x.members.length).map (intset_call s.bptr.buf.ptr.mem x.nbyte x.members.length) =
      x.members.mapIdx fun i m => .d_set i x.members.length (.int (x.read m)) := by
    refine List.ext_getElem (by simp) fun i hi _ => ?_
    rw [List.length_map, List.length_range] at hi
    have hmember := Mem.Starts.member hmembers x.hmembers hi
    rw [Mem.add_add] at hmember
    rw [List.getElem_map, List.getElem_range, List.getElem_mapIdx, intset_call,
      x.intset_val_read (x.hmembers _ (List.getElem_mem hi)) hmember]
    obtain ⟨hlo, hhi⟩ := x.read_range x.members[i]
    rw [RdbString.set_int_val _ (by omega) (by omega)]
  rw [← hcalls, List.map_map]
  rfl

/-- Each member is handed out over its full width, unless they have 8 bytes and one of them needs more than the
low half. There may be any number of members that the header can count, in any order, and more bytes behind
them. -/
theorem set_intset_members_iff (x : IntMembers) {s : St} (hs : s.bptr.buf.ptr.mem.Starts x.bytes)
    (havail : x.bytes.length ≤ s.bptr.avail) :
    HandsOut decode_set_intset s (x.members.mapIdx fun i m => .d_set i x.members.length (.int (x.val m))) ↔
      (x.nbyte = 8 → ∀ m ∈ x.members, -2 ^ 31 ≤ x.val m ∧ x.val m < 2 ^ 31) := by
  rw [(decode_set_intset_members x hs havail).iff]
  constructor
  · intro h h8 m hm
    obtain ⟨i, hi, rfl⟩ := List.mem_iff_getElem.mp hm
    have hcall := congrArg (·[i]?) h
    simp only [List.getElem?_mapIdx, List.getElem?_eq_getElem hi, Option.map_some, Option.some.injEq,
      Callback.d_set.injEq,
      RdbVal.int.injEq, true_and] at hcall
    exact (x.read_eq_val (x.hmembers _ hm)).mp hcall h8
  · intro h
    refine List.mapIdx_eq_mapIdx_iff.mpr fun i hi => ?_
    rw [(x.read_eq_val (x.hmembers _ (List.getElem_mem hi))).mpr fun h8 => h h8 _ (List.getElem_mem hi)]

/-- -1 and 5 in 2 bytes. -/
def format.IntMembers.two : IntMembers := ⟨2, [[0xff, 0xff], [0x05, 0x00]], by decide, by decide, by decide⟩

/-- 2^31 in 8 bytes. -/
def format.IntMembers.wide : IntMembers := ⟨8, [[0, 0, 0, 0x80, 0, 0, 0, 0]], by decide, by decide, by decide⟩

theorem format.IntMembers.map_starts (x : IntMembers) (past : Mem) :
    (St.map none x.bytes past).bptr.buf.ptr.mem.Starts x.bytes := by
  rw [St.map_mem]
  exact Mem.ofList_starts x.bytes past

theorem set_intset_members_two : HandsOut decode_set_intset (St.map none IntMembers.two.bytes 0)
    [.d_set 0 2 (.int (-1)), .d_set 1 2 (.int 5)] := by
  have hcalls : ([.d_set 0 2 (.int (-1)), .d_set 1 2 (.int 5)] : List Callback) =
      IntMembers.two.members.mapIdx fun i m =>
        .d_set i IntMembers.two.members.length (.int (IntMembers.two.val m)) := by decide
  rw [hcalls]
  exact (set_intset_members_iff IntMembers.two (IntMembers.two.map_starts 0) (Nat.le_refl _)).mpr (by decide)

/-- 2^31 is handed out as -2^31. -/
theorem set_intset_wide : ¬ ∀ (x : IntMembers) (s : St), s.bptr.buf.ptr.mem.Starts x.bytes →
    x.bytes.length ≤ s.bptr.avail →
    HandsOut decode_set_intset s (x.members.mapIdx fun i m => .d_set i x.members.length (.int (x.val m))) := by
  intro h
  have hsaid := h IntMembers.wide (St.map none IntMembers.wide.bytes 0) (IntMembers.wide.map_starts 0) (Nat.le_refl _)
  have hread := decode_set_intset_members IntMembers.wide (IntMembers.wide.map_starts 0) (Nat.le_refl _)
  exact absurd ((hread.iff _).mp hsaid) (by decide)

/-- The bytes a set says it has. -/
def intset_need (p : Mem) : Nat := 8 + le_nat (p.take 4) * le_nat ((p.add 4).take 4)

/-- A set is taken only if its bytes are there; these are eaten, and nothing else is handed out. No member is
handed out of a set that is refused. -/
structure IntsetSound (s : St) : Prop where
  there : (decode_set_intset s).res = .ok () → intset_need s.bptr.buf.ptr.mem ≤ s.bptr.avail
  eaten : (decode_set_intset s).res = .ok () →
    (decode_set_intset s).st.bptr = (s.ahead (intset_need s.bptr.buf.ptr.mem)).bptr
  own : (decode_set_intset s).res = .ok () → ∀ p : Mem,
    (∀ i < intset_need s.bptr.buf.ptr.mem, p (s.bptr.buf.pos + i) = s.bptr.buf.mem (s.bptr.buf.pos + i)) →
    (decode_set_intset { s with bptr.buf.mem := p }).out = (decode_set_intset s).out
  refused : (decode_set_intset s).res ≠ .ok () →
    ∀ v ∈ (decode_set_intset s).out, ∀ num cnt member, v.call ≠ .d_set num cnt member

section sound

variable {s : St} {nbyte nelem : Nat} (hnbyte : le_nat (s.bptr.buf.ptr.mem.take 4) = nbyte)
  (hnelem : le_nat ((s.bptr.buf.ptr.mem.add 4).take 4) = nelem)

/-- A set that is refused right behind the start of its key is sound: nothing but that is handed out of it. -/
theorem IntsetSound.of_refused {e : RdbErrCode} {t : St} (h : decode_set_intset s = ⟨.error e, t, [start_event s]⟩) :
    IntsetSound s where
  there hok := by
    rw [h] at hok
    exact nomatch hok
  eaten hok := by
    rw [h] at hok
    exact nomatch hok
  own hok := by
    rw [h] at hok
    exact nomatch hok
  refused _ v hv _ _ _ := by
    rw [h, List.mem_singleton] at hv
    rw [hv]
    exact nofun

include hnbyte hnelem

/-- A set whose bytes can be counted in 32 bits and are all there is sound. -/
theorem IntsetSound.of_fits (hsize : IntSize nbyte) (hfits : nbyte * nelem < 2 ^ 32)
    (hle : 8 + nbyte * nelem ≤ s.bptr.avail) :
    IntsetSound s := by
  have hneed : intset_need s.bptr.buf.ptr.mem = 8 + nbyte * nelem := by rw [intset_need, hnbyte, hnelem]
  have hmod : nbyte * nelem % 2 ^ 32 = nbyte * nelem := Nat.mod_eq_of_lt hfits
  have hrun := decode_set_intset_ok hnbyte hnelem (by omega) hsize (by rwa [hmod])
  rw [hmod] at hrun
  refine ⟨fun _ => by rwa [hneed], fun _ => ?_, fun _ p hp => ?_, fun hno => absurd ?_ hno⟩
  · rw [hrun, hneed]
    rfl
  · -- the members that are handed out are of the bytes that are the same
    rw [hneed] at hp
    generalize hq : s.bptr.buf.ptr.mem = q at *
    have hpart : ∀ off k, off + k ≤ 8 + nbyte * nelem → ((p.add s.bptr.buf.pos).add off).take k = (q.add off).take k :=
      fun off k hk => Mem.take_congr (Mem.add_congr fun i hi => (hp i (by omega)).trans (congrFun hq i))
    have hcalls : ∀ num < nelem, intset_call (p.add s.bptr.buf.pos) nbyte nelem num = intset_call q nbyte nelem num :=
      fun num hnum => by
        have hlast := Nat.mul_le_mul_left nbyte (Nat.succ_le_of_lt hnum)
        rw [Nat.mul_succ] at hlast
        have hval : intset_val nbyte ((p.add s.bptr.buf.pos).add (8 + nbyte * num)) =
            intset_val nbyte (q.add (8 + nbyte * num)) :=
          intset_val_congr hsize fun i hi =>
            (hp (8 + nbyte * num + i) (by omega)).trans (congrFun hq (8 + nbyte * num + i))
        rw [intset_call, intset_call, hval]
    have hrun' := @decode_set_intset_ok { s with bptr.buf.mem := p } nbyte nelem
      ((congrArg le_nat (hpart 0 4 (by omega))).trans hnbyte) ((congrArg le_nat (hpart 4 4 (by omega))).trans hnelem)
      (show 8 ≤ s.bptr.avail by omega) hsize (show _ ≤ s.bptr.avail by rwa [hmod])
    rw [hmod] at hrun'
    rw [hrun, hrun']
    refine congrArg (fun members => start_event s :: (members ++ _)) (List.map_congr_left fun num hnum => ?_)
    rw [← hcalls num (List.mem_range.mp hnum)]
    rfl
  · rw [hrun]

/-- A size that does not fit in 32 bits is taken for a smaller one. -/
theorem IntsetSound.not_of_wraps (h8 : 8 ≤ s.bptr.avail) (hsize : IntSize nbyte) (hwraps : 2 ^ 32 ≤ nbyte * nelem)
    (hle : 8 + nbyte * nelem % 2 ^ 32 ≤ s.bptr.avail) : ¬ IntsetSound s := by
  intro h
  have hneed : intset_need s.bptr.buf.ptr.mem = 8 + nbyte * nelem := by rw [intset_need, hnbyte, hnelem]
  have hrun := decode_set_intset_ok hnbyte hnelem h8 hsize hle
  have hok : (decode_set_intset s).res = .ok () := by rw [hrun]
  have hthere := h.there hok
  have heaten := congrArg RdbBufptr.avail (h.eaten hok)
  rw [hrun, hneed] at heaten
  change s.bptr.avail - (8 + nbyte * nelem % 2 ^ 32) = s.bptr.avail - (8 + nbyte * nelem) at heaten
  rw [hneed] at hthere
  omega

end sound

/-- The size of a set is checked against the bytes that are there in 32 bits only: what is handed out was there
and what was not is refused, unless the product of size and count goes over 32 bits and the rest of it is there.
Nothing is assumed of the bytes. -/
theorem set_intset_sound_iff (s : St) : IntsetSound s ↔
    ¬ (8 ≤ s.bptr.avail ∧ IntSize (le_nat (s.bptr.buf.ptr.mem.take 4)) ∧
      2 ^ 32 ≤ le_nat (s.bptr.buf.ptr.mem.take 4) * le_nat ((s.bptr.buf.ptr.mem.add 4).take 4) ∧
      8 + le_nat (s.bptr.buf.ptr.mem.take 4) * le_nat ((s.bptr.buf.ptr.mem.add 4).take 4) % 2 ^ 32 ≤ s.bptr.avail) := by
  constructor
  · rintro h ⟨h8, hsize, hwraps, hle⟩
    exact IntsetSound.not_of_wraps rfl rfl h8 hsize hwraps hle h
  · intro h
    by_cases h8 : 8 ≤ s.bptr.avail
    · by_cases hsize : IntSize (le_nat (s.bptr.buf.ptr.mem.take 4))
      · by_cases hle : 8 + le_nat (s.bptr.buf.ptr.mem.take 4) *
          le_nat ((s.bptr.buf.ptr.mem.add 4).take 4) % 2 ^ 32 ≤ s.bptr.avail
        · have hfits := Nat.not_le.mp fun hwraps => h ⟨h8, hsize, hwraps, hle⟩
          rw [Nat.mod_eq_of_lt hfits] at hle
          exact .of_fits rfl rfl hsize hfits hle
        · exact .of_refused (decode_set_intset_trunc rfl rfl h8 hsize (Nat.not_le.mp hle))
      · exact .of_refused (decode_set_intset_notsup rfl rfl h8 hsize)
    · exact .of_refused (decode_set_intset_short (Nat.not_le.mp h8))

/-- 2^29 members of 8 bytes, of which none is there. -/
def intset_wraps : List UInt8 := le_bytes 4 8 ++ le_bytes 4 (2 ^ 29)

/-- The header says 2^29 members of eight bytes, and the product is 0 in 32 bits: the set is taken, though none of its
bytes is there. -/
theorem set_intset_wraps : ¬ ∀ s : St, IntsetSound s := by
  intro h
  have hmem : (St.map none intset_wraps 0).bptr.buf.ptr.mem.Starts (le_bytes 4 8 ++ le_bytes 4 (2 ^ 29)) := by
    rw [St.map_mem]
    exact Mem.ofList_starts _ _
  rw [Mem.starts_append] at hmem
  refine @IntsetSound.not_of_wraps (St.map none intset_wraps 0) 8 (2 ^ 29) ?_ ?_ (Nat.le_refl 8) (by decide)
    (by decide) (by decide) (h _)
  · have htake := hmem.1.take
    rw [le_bytes_length] at htake
    rw [htake, le_nat_le_bytes]
    rfl
  · have htake := hmem.2.take
    rw [le_bytes_length, le_bytes_length] at htake
    rw [htake, le_nat_le_bytes]
    rfl

end rdbparser
