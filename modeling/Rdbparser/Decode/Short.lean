import Rdbparser.Decode.Zset
import Rdbparser.Length.Cut

/-! What the decoder does where the buffer ends within what it reads. -/

namespace rdbparser

open format RdbDecode

/-- The computation ends with an error code. -/
def Errs {α : Type} (x : DecodeProc α) (s : St) : Prop := ∃ e, (x s).res = .error e ∧ e ≠ .RDB_OK

theorem Errs.bind {α β : Type} {x : DecodeProc α} {s : St} (h : Errs x s) (f : α → DecodeProc β) :
    Errs (x >>= f) s := by
  obtain ⟨e, hres, hne⟩ := h
  exact ⟨e, Proc.bind_res_error hres, hne⟩

theorem Errs.of_run {α : Type} {x : DecodeProc α} {s t : St} {e : RdbErrCode} {o : List Event}
    (h : x s = ⟨.error e, t, o⟩) (hne : e ≠ .RDB_OK) : Errs x s := ⟨e, by rw [h], hne⟩

theorem Errs.of_bind {α β : Type} {x : DecodeProc α} {f : α → DecodeProc β} {s t : St} {a : α} {o : List Event}
    (hx : x s = ⟨.ok a, t, o⟩) (h : Errs (f a) t) : Errs (x >>= f) s := by
  obtain ⟨e, hres, hne⟩ := h
  exact ⟨e, by rw [Proc.bind_res hx, hres], hne⟩

/-- Wherever a cut of the bytes `bs` is all that lies ahead, the step fails. -/
def Short {α : Type} (P : RdbBufptr → Place → Prop) (x : DecodeProc α) (bs : List UInt8) : Prop :=
  ∀ (s : St) (c : Place) (d : Dest) (pre : List UInt8),
    P s.bptr c → c.Views pre → Cut pre bs → s.dec.out = some d → Errs x s

/-- Wherever the bytes `bs` lie ahead, the step fails or goes through them. -/
def Passes {α : Type} (P : RdbBufptr → Place → Prop) (x : DecodeProc α) (bs : List UInt8)
    (Q : α → RdbBufptr → Place → Prop) : Prop :=
  ∀ (s : St) (c : Place) (d : Dest) (rest : List UInt8), P s.bptr c → c.Views (bs ++ rest) → s.dec.out = some d →
    Errs x s ∨ ∃ a b o, x s = ⟨.ok a, { s with bptr := b }, o⟩ ∧ Q a b (c.adv bs.length)

section

variable {α β : Type} {P P' : RdbBufptr → Place → Prop} {bs bs' : List UInt8} {Q : α → RdbBufptr → Place → Prop}
  {R : β → RdbBufptr → Place → Prop}

theorem Reads.passes {x : DecodeProc α} {calls : List Callback} (h : Reads P x bs calls Q) : Passes P x bs Q := by
  intro s c d rest hs hv hd
  obtain ⟨a, b, o, hrun, hq, -⟩ := h s c d rest hs hv hd
  exact .inr ⟨a, b, o, hrun, hq⟩

/-- Two steps in a row fail or go through both of their bytes. -/
theorem Passes.bind {x : DecodeProc α} {f : α → DecodeProc β} (hx : Passes P x bs Q)
    (hf : ∀ a, Passes (Q a) (f a) bs' R) : Passes P (x >>= f) (bs ++ bs') R := by
  intro s c d rest hs hv hd
  rw [List.append_assoc] at hv
  rcases hx s c d _ hs hv hd with herr | ⟨a, b, o, hrun, hq⟩
  · exact .inl (herr.bind f)
  · rcases hf a { s with bptr := b } _ d rest hq hv.adv hd with herr | ⟨a', b', o', hrun', hr⟩
    · exact .inl (.of_bind hrun herr)
    · refine .inr ⟨a', b', o ++ o', Proc.bind_ok hrun hrun', ?_⟩
      rwa [List.length_append, ← Place.adv_adv]

theorem Passes.mono {Q' : α → RdbBufptr → Place → Prop} {x : DecodeProc α} (h : Passes P x bs Q)
    (hP : ∀ b c, P' b c → P b c) (hQ : ∀ a b c, Q a b c → Q' a b c) : Passes P' x bs Q' := by
  intro s c d rest hs hv hd
  rcases h s c d rest (hP _ _ hs) hv hd with herr | ⟨a, b, o, hrun, hq⟩
  · exact .inl herr
  · exact .inr ⟨a, b, o, hrun, hQ _ _ _ hq⟩

theorem Passes.of_fact {x : DecodeProc α} {p : Prop} (h : p → Passes P x bs Q) :
    Passes (fun b c => P b c ∧ p) x bs Q := fun s c d rest hs hv hd => h hs.2 s c d rest hs.1 hv hd

/-- A step that leaves the buffer alone. -/
theorem Passes.still {x : DecodeProc α} (h : ∀ s, Errs x s ∨ ∃ a o, x s = ⟨.ok a, s, o⟩) :
    Passes P x [] fun _ => P := by
  intro s c d rest hs hv hd
  rcases h s with herr | ⟨a, o, hrun⟩
  · exact .inl herr
  · exact .inr ⟨a, s.bptr, o, hrun, hs⟩

theorem Fails.passes {x : DecodeProc α} {e : RdbErrCode} (h : Fails P x bs e) (hne : e ≠ .RDB_OK) :
    Passes P x bs Q := fun s c d rest hs hv hd => .inl ⟨e, h s c d rest hs hv hd, hne⟩

namespace Short

theorem nil {x : DecodeProc α} : Short P x [] := fun _ _ _ _ _ _ hcut _ => absurd hcut Cut.not_nil

theorem mono {x : DecodeProc α} (h : Short P x bs) (hP : ∀ b c, P' b c → P b c) : Short P' x bs :=
  fun s c d pre hs hv hcut hd => h s c d pre (hP _ _ hs) hv hcut hd

theorem of_fact {x : DecodeProc α} {p : Prop} (h : p → Short P x bs) : Short (fun b c => P b c ∧ p) x bs :=
  fun s c d pre hs hv hcut hd => h hs.2 s c d pre hs.1 hv hcut hd

/-- The cut is in what the first of two steps reads. -/
theorem left {x : DecodeProc α} (h : Short P x bs) (f : α → DecodeProc β) : Short P (x >>= f) bs :=
  fun s c d pre hs hv hcut hd => (h s c d pre hs hv hcut hd).bind f

/-- A cut is in the bytes of the first step, or in those of the second with the first passed. -/
theorem bind {x : DecodeProc α} {f : α → DecodeProc β} (hx : Short P x bs) (hx' : Passes P x bs Q)
    (hf : ∀ a, Short (Q a) (f a) bs') : Short P (x >>= f) (bs ++ bs') := by
  intro s c d pre hs hv hcut hd
  rcases hcut.append with hfirst | ⟨pre', rfl, hsecond⟩
  · exact (hx s c d pre hs hv hfirst hd).bind f
  · rcases hx' s c d pre' hs hv hd with herr | ⟨a, b, o, hrun, hq⟩
    · exact herr.bind f
    · exact .of_bind hrun (hf a { s with bptr := b } _ d pre' hq hv.adv hsecond hd)

/-- Bytes that are not all there are not taken. -/
theorem incr {n : Nat} (hn : bs.length = n) : Short RdbBufptr.On (DecodeProc.incr n) bs := by
  intro s c d pre hs hv hcut hd
  have hlt := hcut.length_lt
  have havail : s.bptr.avail < n := by
    rw [hs.avail, hv.1]
    omega
  refine .of_run (e := .RDB_ERR_TRUNC) (t := s) (o := []) ?_ (by decide)
  rw [DecodeProc.incr, RdbBufptr.incr_none havail]

/-- A blob that is not all there is refused before liblzf sees it. -/
theorem decompress {E : Env} {l : RdbLength} {z : List UInt8} (hz : l.zlen = z.length) :
    Short RdbBufptr.On (DecodeProc.decompress E l) z := by
  intro s c d pre hs hv hcut hd
  have hlt := hcut.length_lt
  have havail : s.bptr.avail < l.zlen := by
    rw [hs.avail, hv.1]
    omega
  refine .of_run (e := .RDB_ERR_LZF) (t := s) (o := []) ?_ (by decide)
  simp only [DecodeProc.decompress, RdbBufptr.decompress, RdbBufptr.incr_none havail]

/-- A counted loop. -/
theorem count {γ : Type} {body : Nat → DecodeProc Unit} {bytes : γ → List UInt8} {xs : List γ}
    (hshort : ∀ num, ∀ x ∈ xs, Short P (body num) (bytes x))
    (hpass : ∀ num, ∀ x ∈ xs, Passes P (body num) (bytes x) fun _ => P) (k : Nat) :
    Short P (Proc.count body k xs.length) (xs.flatMap bytes) := by
  induction xs generalizing k with
  | nil => exact nil
  | cons x xs ih =>
    rw [List.flatMap_cons]
    exact (hshort k x List.mem_cons_self).bind (hpass k x List.mem_cons_self) fun _ =>
      ih (fun num y hy => hshort num y (List.mem_cons_of_mem x hy))
        (fun num y hy => hpass num y (List.mem_cons_of_mem x hy)) (k + 1)

/-- A loop is refused in the turn that the cut is in, by induction on the turns. -/
theorem times {γ : Type} {f : β → DecodeProc β} {bytes : γ → List UInt8} {xs : List γ}
    (hshort : ∀ b, ∀ x ∈ xs, Short P (f b) (bytes x))
    (hpass : ∀ b, ∀ x ∈ xs, Passes P (f b) (bytes x) fun _ => P) (b : β) :
    Short P (Proc.times xs.length f b) (xs.flatMap bytes) := by
  induction xs generalizing b with
  | nil => exact nil
  | cons x xs ih =>
    rw [List.flatMap_cons]
    exact (hshort b x List.mem_cons_self).bind (hpass b x List.mem_cons_self) fun b' =>
      ih (fun b y hy => hshort b y (List.mem_cons_of_mem x hy))
        (fun b y hy => hpass b y (List.mem_cons_of_mem x hy)) b'

end Short

end

namespace Short

variable {E : Env}

/-- A length that is cut is refused, whatever its form: what is behind the cut is read as zeros. -/
theorem decode (hdr : Header) : Short RdbBufptr.At (DecodeProc.decode {}) hdr.bytes := by
  intro s c d pre hs hv hcut hd
  obtain ⟨e, l, b, hdec, hne⟩ := hs.decode_cut hdr hv hcut
  refine .of_run (e := e) (t := { s with bptr := b }) (o := []) ?_ hne
  rw [DecodeProc.decode, hdec]
  cases e with
  | RDB_OK => exact absurd rfl hne
  | _ => rfl

/-- The data blob a header announces. -/
theorem consume (x : StoredStr E) (hx : x.is_int = false) :
    Short RdbBufptr.On (DecodeProc.consume E (RdbLength.ofHeader x.hdr)) x.data := by
  intro s c d pre hs hv hcut hd
  have hlt := hcut.length_lt
  have havail : s.bptr.avail = pre.length := hs.avail.trans hv.1
  cases x with
  | raw len text hlen =>
    have hshort : s.bptr.avail < len.val := by
      rw [havail, hlen]
      exact hlt
    refine .of_run (e := .RDB_ERR_TRUNC) (t := s) (o := []) ?_ (by decide)
    simp only [DecodeProc.consume, RdbLength.consume, StoredStr.hdr, RdbLength.ofHeader, ne_eq, not_true_eq_false,
      if_false, Bool.false_eq_true, RdbBufptr.incr_none hshort]
  | int i => contradiction
  | lzf zlen len z text hzlen hlen hlzf =>
    have hshort : s.bptr.avail < zlen.val := by
      have hdata : (StoredStr.lzf zlen len z text hzlen hlen hlzf).data = z := List.append_nil z
      rw [hdata] at hlt
      omega
    refine .of_run (e := .RDB_ERR_LZF) (t := s) (o := []) ?_ (by decide)
    simp only [DecodeProc.consume, RdbLength.consume, StoredStr.hdr, RdbLength.ofHeader, ne_eq, not_true_eq_false,
      if_false, if_true, RdbBufptr.decompress, RdbBufptr.incr_none hshort]

/-- So is a compressed string. -/
theorem open_str (x : StoredStr E) :
    Short RdbBufptr.On
      (if (RdbLength.ofHeader x.hdr).is_lzf then
        DecodeProc.decompress E (RdbLength.ofHeader x.hdr) else Pure.pure ()) x.blob := by
  cases x with
  | raw len text hlen => exact nil
  | int i => exact nil
  | lzf zlen len z text hzlen hlen hlzf => exact decompress hzlen

theorem decode_str (str : RdbString) (x : StoredStr E) :
    Short (RdbBufptr.Opened x) (RdbDecode.decode_str str (RdbLength.ofHeader x.hdr)) x.plain := by
  cases x with
  | raw len text hlen => exact (incr hlen.symm).left _
  | int i => exact nil
  | lzf zlen len z text hzlen hlen hlzf => exact nil

theorem decode_rlen (str : RdbString) (x : StoredStr E) :
    Short RdbBufptr.At (RdbDecode.decode_rlen E str) x.bytes := by
  refine (decode x.hdr).bind (Reads.decode x.hdr).passes fun l => of_fact fun hl => ?_
  subst hl
  have h := (open_str x).bind (Reads.open_str x).passes fun _ => decode_str str x
  rwa [Proc.ite_bind] at h

theorem decode_list_elem (cnt num : Nat) (x : StoredStr E) :
    Short RdbBufptr.At (RdbDecode.decode_list_elem E cnt num) x.bytes := (decode_rlen .empty x).left _

theorem decode_set_elem (cnt num : Nat) (x : StoredStr E) :
    Short RdbBufptr.At (RdbDecode.decode_set_elem E cnt num) x.bytes := (decode_rlen .empty x).left _

theorem decode_hash_elem (cnt num : Nat) (x : StoredStr E × StoredStr E) :
    Short RdbBufptr.At (RdbDecode.decode_hash_elem E cnt num) (x.1.bytes ++ x.2.bytes) :=
  (decode_rlen .empty x.1).bind (Reads.decode_rlen .empty x.1).passes fun _ =>
    ((decode_rlen .empty x.2).left _).mono fun _ _ h => h.1.at

/-- A score that is stored as text is refused wherever it is cut, its length byte included. -/
theorem decode_score_text (x : ScoreText) : Short RdbBufptr.On (decode_score .RDB_ZSET) x.bytes := by
  rw [decode_score, if_neg (by decide)]
  cases x with
  | text s h =>
    refine (incr (show [UInt8.ofNat s.length].length = 1 from rfl)).bind (Reads.incr 1 rfl).passes
      fun p => of_fact fun hp => ?_
    have hlen : (p.mem 0).toNat = s.length := by
      rw [(Mem.starts_cons.mp hp).1, RdbLength.toNat_ofNat_lt (by omega)]
    simp only [hlen]
    split
    · omega
    · omega
    · omega
    · exact (incr rfl).left _
  | nan | inf | neg_inf => exact (incr rfl).left _

theorem decode_score_bits (x : ScoreBits) : Short RdbBufptr.On (decode_score .RDB_ZSET_2) x.bytes := by
  rw [decode_score, if_pos rfl]
  exact (incr (le_bytes_length 8 x.bits)).left _

section

variable {σ : Type} {type : RdbType} {bytes : σ → List UInt8}

/-- A member of a sorted set with its score; behind a compressed one the score is not found in any case. -/
theorem decode_zset_elem (hscore : ∀ x : σ, Short RdbBufptr.On (decode_score type) (bytes x)) (cnt num : Nat)
    (x : StoredStr E × σ) :
    Short RdbBufptr.On (RdbDecode.decode_zset_elem E type cnt num) (x.1.bytes ++ bytes x.2) := by
  refine ((decode_rlen .empty x.1).mono fun _ _ h => .main h).bind ((Reads.decode_rlen .empty x.1).passes.mono
    (fun _ _ h => .main h) fun _ _ _ h => h.1) fun r => ?_
  refine Short.left ?_ _
  cases hx : x.1.is_lzf with
  | false => exact (hscore x.2).mono fun _ _ h => h.on hx
  | true =>
    intro s c d pre hs hv hcut hd
    rw [← List.append_nil pre] at hv
    exact ⟨_, decode_score_fails type (fun _ _ h => h.avail hx) pre s c d [] hs hv hd, by decide⟩

end

end Short

theorem Passes.decode_zset_elem {E : Env} {σ : Type} {type : RdbType} {bytes : σ → List UInt8} {val : σ → RdbVal}
    (hscore : ∀ x : σ, Reads RdbBufptr.On (decode_score type) (bytes x) [] fun r b c => b.On c ∧ r.val = val x)
    (cnt num : Nat) (x : StoredStr E × σ) :
    Passes RdbBufptr.On (RdbDecode.decode_zset_elem E type cnt num) (x.1.bytes ++ bytes x.2) fun _ => RdbBufptr.On := by
  cases hx : x.1.is_lzf with
  | false => exact (Reads.decode_zset_elem hscore cnt num x hx).passes
  | true => exact (decode_zset_elem_fails cnt num x hx).passes (by decide)

end rdbparser
