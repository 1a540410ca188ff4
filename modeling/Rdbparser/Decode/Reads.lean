import Rdbparser.Body
import Rdbparser.Bufptr.Place

namespace rdbparser

/-- A callback with the output it goes to. -/
def Event.sent (e : Event) : Dest × Callback := (e.dest, e.call)

/-- Wherever the bytes `bs` lie ahead of a cursor that meets `P`, the step goes through them, sends
`calls` to the current output and leaves a cursor that meets `Q` behind them. Nothing else of the
decoder changes. -/
def Reads {α : Type} (P : RdbBufptr → Place → Prop) (x : DecodeProc α) (bs : List UInt8)
    (calls : List Callback) (Q : α → RdbBufptr → Place → Prop) : Prop :=
  ∀ (s : St) (c : Place) (d : Dest) (rest : List UInt8),
    P s.bptr c → c.Views (bs ++ rest) → s.dec.out = some d →
      ∃ a b o, x s = ⟨.ok a, { s with bptr := b }, o⟩ ∧ Q a b (c.adv bs.length) ∧
        o.map Event.sent = calls.map (d, ·)

namespace Reads

open format RdbDecode

variable {α β : Type} {P P' : RdbBufptr → Place → Prop} {bs bs' : List UInt8}
  {calls calls' : List Callback}

theorem mono {x : DecodeProc α} {Q Q' : α → RdbBufptr → Place → Prop} (h : Reads P x bs calls Q)
    (hP : ∀ b c, P' b c → P b c) (hQ : ∀ a b c, Q a b c → Q' a b c) : Reads P' x bs calls Q' := by
  intro s c d rest hs hv hd
  obtain ⟨a, b, o, hrun, hq, ho⟩ := h s c d rest (hP _ _ hs) hv hd
  exact ⟨a, b, o, hrun, hQ _ _ _ hq, ho⟩

theorem value {Q : α → RdbBufptr → Place → Prop} {a : α} (h : ∀ b c, P b c → Q a b c) :
    Reads P (pure a) [] [] Q := by
  intro s c d rest hs hv hd
  exact ⟨a, s.bptr, [], rfl, h _ _ hs, rfl⟩

/-- Two steps in a row go through their bytes in a row. -/
theorem bind {x : DecodeProc α} {f : α → DecodeProc β} {Q : α → RdbBufptr → Place → Prop}
    {R : β → RdbBufptr → Place → Prop} (hx : Reads P x bs calls Q)
    (hf : ∀ a, Reads (Q a) (f a) bs' calls' R) :
    Reads P (x >>= f) (bs ++ bs') (calls ++ calls') R := by
  intro s c d rest hs hv hd
  rw [List.append_assoc] at hv
  obtain ⟨a, b, o, hrun, hq, ho⟩ := hx s c d (bs' ++ rest) hs hv hd
  obtain ⟨a', b', o', hrun', hr, ho'⟩ := hf a { s with bptr := b } _ d rest hq hv.adv hd
  refine ⟨a', b', o ++ o', Proc.bind_ok hrun hrun', ?_, ?_⟩
  · rwa [List.length_append, ← Place.adv_adv]
  · rw [List.map_append, List.map_append, ho, ho']

/-- A step that reads and one that only sends or computes. -/
theorem bind_call {x : DecodeProc α} {f : α → DecodeProc β} {Q : α → RdbBufptr → Place → Prop}
    {R : β → RdbBufptr → Place → Prop} (hx : Reads P x bs [] Q)
    (hf : ∀ a, Reads (Q a) (f a) [] calls R) : Reads P (x >>= f) bs calls R := by
  have h := hx.bind hf
  rwa [List.append_nil, List.nil_append] at h

/-- Two steps that only read. -/
theorem bind_read {x : DecodeProc α} {f : α → DecodeProc β} {Q : α → RdbBufptr → Place → Prop}
    {R : β → RdbBufptr → Place → Prop} (hx : Reads P x bs [] Q)
    (hf : ∀ a, Reads (Q a) (f a) bs' calls R) : Reads P (x >>= f) (bs ++ bs') calls R :=
  hx.bind hf

theorem call (k : Callback) : Reads P (DecodeProc.call k) [] [k] fun _ => P := by
  intro s c d rest hs hv hd
  refine ⟨(), s.bptr, [⟨d, k, s.bptr.offset⟩], ?_, hs, rfl⟩
  simp only [DecodeProc.call, Proc.emit_run, hd]

/-- A callback and what follows it. -/
theorem call_bind {f : DecodeProc β} {Q : β → RdbBufptr → Place → Prop} (k : Callback)
    (hf : Reads P f bs calls Q) : Reads P (DecodeProc.call k >>= fun _ => f) bs (k :: calls) Q :=
  (call k).bind fun _ => hf

/-- A fact about the value a step was given can be used by what follows. -/
theorem of_fact {x : DecodeProc α} {p : Prop} {Q : α → RdbBufptr → Place → Prop}
    (h : p → Reads P x bs calls Q) : Reads (fun b c => P b c ∧ p) x bs calls Q := by
  intro s c d rest hs hv hd
  exact h hs.2 s c d rest hs.1 hv hd

theorem incr (n : Nat) (hn : bs.length = n) :
    Reads RdbBufptr.On (DecodeProc.incr n) bs [] fun p b c => b.On c ∧ p.mem.Starts bs := by
  intro s c d rest hs hv hd
  subst hn
  obtain ⟨b, hincr, hon⟩ := hs.incr hv.le
  refine ⟨c.buf.ptr, b, [], ?_, ⟨hon, hv.starts⟩, rfl⟩
  simp only [DecodeProc.incr, hincr]

theorem decode (hdr : Header) : Reads RdbBufptr.At (DecodeProc.decode {}) hdr.bytes []
    fun l b c => b.On c ∧ l = RdbLength.ofHeader hdr := by
  intro s c d rest hs hv hd
  obtain ⟨b, hdec, hon⟩ := hs.decode hdr hv
  refine ⟨_, b, [], ?_, ⟨hon, rfl⟩, rfl⟩
  simp only [DecodeProc.decode, hdec]

/-- A length read into one that is in use. -/
theorem decode_again (l : RdbLength) (n : StoredLen) : Reads RdbBufptr.At (DecodeProc.decode l) n.bytes []
    fun l' b c => b.On c ∧ l' = { l with len := n.val } := by
  intro s c d rest hs hv hd
  have hv' : c.Views ((Header.plain n).bytes ++ rest) := hv
  obtain ⟨b, hdec, hon⟩ := hs.decode_from hv' fun _ => RdbLength.decode_buf_len l n
  refine ⟨_, b, [], ?_, ⟨hon, rfl⟩, rfl⟩
  simp only [DecodeProc.decode, hdec]

theorem decode_plain (l : StoredLen) : Reads RdbBufptr.At RdbDecode.decode_plain l.bytes []
    fun n b c => b.On c ∧ n = l.val := by
  refine (decode (.plain l)).bind_call fun a => of_fact fun ha => ?_
  subst ha
  exact value fun b c h => ⟨h, rfl⟩

theorem decompress {E : Env} {l : RdbLength} {z text : List UInt8} (hz : l.zlen = z.length)
    (htext : l.len = text.length) (hE : E.Expands z text) :
    Reads RdbBufptr.On (DecodeProc.decompress E l) z [] fun _ => RdbBufptr.Unzipped text := by
  intro s c d rest hs hv hd
  obtain ⟨b, hdec, hb⟩ := hs.decompress hv hE
  refine ⟨(), b, [], ?_, hb, rfl⟩
  simp only [DecodeProc.decompress, hz, htext, hdec]

/-- Taking all of a decompressed text leaves its buffer used up; the main one is gone back to by the next length. -/
theorem incr_unzipped {text : List UInt8} {n : Nat} (hn : text.length = n) :
    Reads (RdbBufptr.Unzipped text) (DecodeProc.incr n) [] []
      fun p b c => (b.avail = 0 ∧ b.At c) ∧ p.mem.Starts text := by
  intro s c d rest hs hv hd
  subst hn
  obtain ⟨p, b, hincr, hp, hblk, havail, hat⟩ := hs
  refine ⟨p, b, [], ?_, ⟨⟨havail, hat⟩, hp⟩, rfl⟩
  simp only [DecodeProc.incr, hincr]

end Reads

/-- What `decode_hdr` leaves in the key of a record, from the key it found there: an integer keeps
the string of the key before it. -/
def RdbString.Holds {E : Env} (k k₀ : RdbString) (x : format.StoredStr E) (blk : Block) : Prop :=
  match x with
  | .raw _ text _ => ∃ p, k = k₀.set_str p text.length ∧ p.mem.Starts text ∧ p.blk = blk
  | .int i => k = k₀.set_int i.val
  | .lzf _ _ _ text _ _ _ =>
    ∃ p id, k = k₀.set_str p text.length ∧ p.mem.Starts text ∧ p.blk = .heap id

/-- A string of the decoder that holds what is stored says what it says, in any form. -/
theorem RdbString.Holds.val {E : Env} {k k₀ : RdbString} {x : format.StoredStr E}
    {blk : Block} (h : k.Holds k₀ x blk) : k.val = x.val := by
  cases x with
  | raw len text hlen =>
    obtain ⟨p, rfl, hp, -⟩ := h
    exact set_str_starts k₀ hp rfl
  | int i =>
    obtain rfl := h
    exact set_int_val k₀ i.bounds.1 i.bounds.2
  | lzf zlen len z text hzlen hlen hlzf =>
    obtain ⟨p, id, rfl, hp, -⟩ := h
    exact set_str_starts k₀ hp rfl

/-- Where the cursor is after a string: behind it or, if it is compressed, at the end of the
decompression buffer. -/
def RdbBufptr.Closed {E : Env} (x : format.StoredStr E) (b : RdbBufptr) (c : Place) : Prop :=
  match x with
  | .raw .. | .int _ => b.On c
  | .lzf .. => b.avail = 0 ∧ b.At c

theorem RdbBufptr.Closed.at {E : Env} {x : format.StoredStr E} {b : RdbBufptr} {c : Place}
    (h : b.Closed x c) : b.At c := by
  cases x with
  | raw | int => exact .main h
  | lzf => exact h.2

theorem RdbBufptr.Closed.on {E : Env} {x : format.StoredStr E} {b : RdbBufptr} {c : Place}
    (h : b.Closed x c) (hx : x.is_lzf = false) : b.On c := by
  cases x with
  | raw | int => exact h
  | lzf => contradiction

theorem RdbBufptr.Closed.avail {E : Env} {x : format.StoredStr E} {b : RdbBufptr} {c : Place}
    (h : b.Closed x c) (hx : x.is_lzf = true) : b.avail = 0 := by
  cases x with
  | raw | int => contradiction
  | lzf => exact h.1

/-- Where the cursor is between the header of a string, with the blob decompressed if there is one,
and its text. -/
def RdbBufptr.Opened {E : Env} (x : format.StoredStr E) : RdbBufptr → Place → Prop :=
  match x with
  | .raw .. | .int _ => RdbBufptr.On
  | .lzf _ _ _ text _ _ _ => RdbBufptr.Unzipped text

namespace Reads

open format RdbDecode

theorem is_enc_eq {E : Env} {x : StoredStr E} (hx : x.is_int = false) :
    ¬ (RdbLength.ofHeader x.hdr).is_enc ≠ 0 := by
  cases x with
  | raw | lzf => exact fun h => h rfl
  | int => contradiction

/-- The data blob of a header, if it announces one. -/
theorem consume_run {E : Env} (x : StoredStr E) (hx : x.is_int = false) {s : St} {c : Place}
    (hs : s.bptr.On c) {rest : List UInt8} (hv : c.Views (x.data ++ rest)) :
    ∃ p b, DecodeProc.consume E (RdbLength.ofHeader x.hdr) s = ⟨.ok p, { s with bptr := b }, []⟩ ∧
      b.Closed x (c.adv x.data.length) ∧
      (∀ k₀ : RdbString, (k₀.set_str p (RdbLength.ofHeader x.hdr).len).Holds k₀ x c.buf.blk) ∧
      p.mem.Starts x.text ∧ (RdbLength.ofHeader x.hdr).len = x.text.length := by
  cases x with
  | raw len text hlen =>
    obtain ⟨b, hincr, hon⟩ := hs.incr hv.le
    have hincr : s.bptr.incr len.val = some (c.buf.ptr, b) := hlen ▸ hincr
    refine ⟨c.buf.ptr, b, ?_, hon, fun k₀ => ⟨c.buf.ptr, ?_, hv.starts, rfl⟩, hv.starts, hlen⟩
    · simp only [DecodeProc.consume, RdbLength.consume, StoredStr.hdr, RdbLength.ofHeader, ne_eq,
        not_true_eq_false, if_false, hincr, Bool.false_eq_true]
    · simp only [StoredStr.hdr, RdbLength.ofHeader, hlen]
  | int i => contradiction
  | lzf zlen len z text hzlen hlen hlzf =>
    have hdata : (StoredStr.lzf zlen len z text hzlen hlen hlzf).data = z := List.append_nil z
    rw [hdata] at hv ⊢
    obtain ⟨b₁, hdec, p, b, hincr, hp, ⟨id, hblk⟩, havail, hat⟩ := hs.decompress hv hlzf
    refine ⟨p, b, ?_, ⟨havail, hat⟩, fun k₀ => ⟨p, id, ?_, hp, hblk⟩, hp, hlen⟩
    · simp only [DecodeProc.consume, RdbLength.consume, StoredStr.hdr, RdbLength.ofHeader, ne_eq,
        not_true_eq_false, if_false, if_true, hzlen, hlen, hdec, hincr]
    · simp only [StoredStr.hdr, RdbLength.ofHeader, hlen]

theorem consume {E : Env} (x : StoredStr E) (hx : x.is_int = false) :
    Reads RdbBufptr.On (DecodeProc.consume E (RdbLength.ofHeader x.hdr)) x.data []
      fun p b c => b.Closed x c ∧ p.mem.Starts x.text := by
  intro s c d rest hs hv hd
  obtain ⟨p, b, hcons, hclosed, -, hstarts, -⟩ := consume_run x hx hs hv
  exact ⟨p, b, [], hcons, ⟨hclosed, hstarts⟩, rfl⟩

/-- A string is opened where it is stored, or in a buffer of its own if it is compressed. -/
theorem open_str {E : Env} (x : StoredStr E) :
    Reads RdbBufptr.On
      (if (RdbLength.ofHeader x.hdr).is_lzf then
        DecodeProc.decompress E (RdbLength.ofHeader x.hdr) else Pure.pure ()) x.blob []
      fun _ => RdbBufptr.Opened x := by
  cases x with
  | raw len text hlen => exact value fun b c h => h
  | int i => exact value fun b c h => h
  | lzf zlen len z text hzlen hlen hlzf => exact decompress hzlen hlen hlzf

/-- A string behind its header: raw bytes, an integer, or a compressed one whose buffer is then used up. -/
theorem decode_str {E : Env} (str : RdbString) (x : StoredStr E) :
    Reads (RdbBufptr.Opened x) (RdbDecode.decode_str str (RdbLength.ofHeader x.hdr)) x.plain []
      fun r b c => b.Closed x c ∧ r.val = x.val := by
  cases x with
  | raw len text hlen =>
    refine (incr len.val hlen.symm).bind_call fun p => of_fact fun hp => ?_
    exact value fun b c h => ⟨h, RdbString.set_str_starts str hp hlen⟩
  | int i =>
    have henc : (RdbLength.ofHeader (.int i)).is_enc ≠ 0 := i.form.nbyte_ne
    rw [StoredStr.hdr, RdbDecode.decode_str, if_pos henc]
    refine value fun b c h => ⟨h, ?_⟩
    exact RdbString.set_int_val str i.bounds.1 i.bounds.2
  | lzf zlen len z text hzlen hlen hlzf =>
    refine (incr_unzipped hlen.symm).bind_call fun p => of_fact fun hp => ?_
    exact value fun b c h => ⟨h, RdbString.set_str_starts str hp hlen⟩

/-- Any of the stored forms of a string is read as that string. -/
theorem decode_rlen {E : Env} (str : RdbString) (x : StoredStr E) :
    Reads RdbBufptr.At (RdbDecode.decode_rlen E str) x.bytes []
      fun r b c => b.Closed x c ∧ r.val = x.val := by
  refine (decode x.hdr).bind_read fun l => of_fact fun hl => ?_
  subst hl
  have h := (open_str x).bind_read fun _ => decode_str str x
  rwa [Proc.ite_bind] at h

end Reads

end rdbparser
