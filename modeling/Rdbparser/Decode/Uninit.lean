import Rdbparser.Body
import Rdbparser.Bufptr.Place
import Rdbparser.Length.Extend

/-! What the strings that are read depend on of the memory that is allocated for them. -/

namespace rdbparser

open RdbDecode DecodeProc

/-- The first bytes from two cursors on are the same. -/
def Cursor.Alike (n : Nat) (c d : Cursor) : Prop := ∀ i < n, d.ptr.mem i = c.ptr.mem i

/-- Two buffers that differ only in what lies past their bytes. -/
structure RdbBufptr.Alike (b c : RdbBufptr) : Prop where
  eq : c = { b with buf := c.buf, sav := c.sav }
  buf : Cursor.Alike b.avail b.buf c.buf
  sav : Cursor.Alike b.sav_avail b.sav c.sav

namespace RdbBufptr.Alike

variable {b c : RdbBufptr} (h : b.Alike c)

theorem refl (b : RdbBufptr) : b.Alike b := ⟨rfl, fun _ _ => rfl, fun _ _ => rfl⟩

include h

theorem avail : c.avail = b.avail := (congrArg RdbBufptr.avail h.eq).trans (rfl)

theorem sav_avail : c.sav_avail = b.sav_avail := (congrArg RdbBufptr.sav_avail h.eq).trans (rfl)

theorem mallocs : c.mallocs = b.mallocs := (congrArg RdbBufptr.mallocs h.eq).trans (rfl)

theorem pop : b.pop.Alike c.pop := by
  refine ⟨?_, h.sav, fun i hi => absurd hi (Nat.not_lt_zero i)⟩
  have heq := h.eq
  rw [RdbBufptr.pop]
  rw [heq]
  exact rfl

/-- The bytes that are eaten are the same. -/
theorem incr (n : Nat) : (b.incr n = none ∧ c.incr n = none) ∨ ∃ b' c', b.incr n = some (b.buf.ptr, b') ∧
    c.incr n = some (c.buf.ptr, c') ∧ b'.Alike c' ∧ n ≤ b.avail ∧ b'.avail = b.avail - n := by
  by_cases hn : n ≤ b.avail
  · right
    refine ⟨_, _, RdbBufptr.incr_some hn, RdbBufptr.incr_some (by rw [h.avail]; exact hn),
      ⟨?_, fun i hi => ?_, h.sav⟩, hn, rfl⟩
    · have heq := h.eq
      rw [heq]
    · change i < b.avail - n at hi
      rw [Cursor.ptr_mem_add, Cursor.ptr_mem_add]
      exact h.buf (n + i) (by omega)
  · exact .inl ⟨RdbBufptr.incr_none (by omega), RdbBufptr.incr_none (by rw [h.avail]; omega)⟩

theorem take {n : Nat} (hn : n ≤ b.avail) : c.buf.ptr.mem.take n = b.buf.ptr.mem.take n :=
  Mem.take_congr fun i hi => h.buf i (by omega)

/-- Two buffers that are alike still are when what was allocated for them is released. -/
theorem free_alloced : b.free_alloced.Alike c.free_alloced := by
  have halloc : c.alloced_mem = b.alloced_mem := (congrArg RdbBufptr.alloced_mem h.eq).trans rfl
  have hfreed : RdbBufptr.Alike { b with alloced_mem := [] } { c with alloced_mem := [] } := by
    refine ⟨?_, h.buf, h.sav⟩
    have heq := h.eq
    rw [heq]
  rw [RdbBufptr.free_alloced, RdbBufptr.free_alloced, halloc]
  by_cases hnone : b.alloced_mem = []
  · rw [if_pos hnone, if_pos hnone]
    exact h
  · rw [if_neg hnone, if_neg hnone]
    dsimp only
    by_cases hend : b.avail = 0
    · rw [if_pos hend, if_pos (h.avail.trans hend)]
      exact hfreed.pop
    · rw [if_neg hend, if_neg fun hend' => hend (h.avail.symm.trans hend')]
      exact hfreed

/-- The place behind a blob is saved if it has bytes left. -/
theorem save : (if 0 < b.avail then { b with sav := b.buf, sav_avail := b.avail, sav_offset := b.offset } else b).Alike
    (if 0 < c.avail then { c with sav := c.buf, sav_avail := c.avail, sav_offset := c.offset } else c) := by
  rw [h.avail]
  split
  · refine ⟨?_, h.buf, h.buf⟩
    have heq := h.eq
    rw [heq]
  · exact h

/-- Other memory of the same bytes. -/
theorem moved {n : Nat} {p q : Cursor} (hpq : Cursor.Alike n p q) (id : Nat) :
    RdbBufptr.Alike { b with buf := p, avail := n, offset := 0, alloced_mem := id :: b.alloced_mem }
      { c with buf := q, avail := n, offset := 0, alloced_mem := id :: c.alloced_mem } := by
  refine ⟨?_, hpq, h.sav⟩
  have heq := h.eq
  rw [heq]

theorem counted (n : Nat) : RdbBufptr.Alike { b with mallocs := n } { c with mallocs := n } := by
  refine ⟨?_, h.buf, h.sav⟩
  have heq := h.eq
  rw [heq]

/-- The next bytes are the same, and so is what is behind them. -/
theorem look (n : Nat) : (c.look n).1 = (b.look n).1 ∧ (b.look n).2.Alike (c.look n).2 := by
  have hread : ∀ {b c : RdbBufptr}, b.Alike c → (fun i => if i < n ∧ i < c.avail then c.buf.ptr.mem i else 0) =
      (fun i => if i < n ∧ i < b.avail then b.buf.ptr.mem i else 0 : Mem) := by
    intro b c h
    funext i
    rw [h.avail]
    split
    · next hi => exact h.buf i hi.2
    · exact rfl
  rw [RdbBufptr.look, RdbBufptr.look, h.avail, h.sav_avail]
  split
  · exact ⟨hread h.pop, h.pop⟩
  · exact ⟨hread h, h⟩

/-- A header is the same. -/
theorem decode (l : RdbLength) : (l.decode c).1 = (l.decode b).1 ∧ (l.decode c).2.1 = (l.decode b).2.1 ∧
    (l.decode b).2.2.Alike (l.decode c).2.2 := by
  rw [RdbLength.decode, RdbLength.decode]
  -- what is read of the header, and the buffer it is read from
  obtain ⟨p, q, b₁, c₁, hb, hc, halike, hpq⟩ : ∃ p q b₁ c₁,
      (if MAX_RDB_HDRLEN ≤ b.avail then (b.buf.ptr.mem, b) else b.look MAX_RDB_HDRLEN) = (p, b₁) ∧
      (if MAX_RDB_HDRLEN ≤ c.avail then (c.buf.ptr.mem, c) else c.look MAX_RDB_HDRLEN) = (q, c₁) ∧
      b₁.Alike c₁ ∧ ∀ i < 19, q i = p i := by
    rw [h.avail]
    by_cases hlong : MAX_RDB_HDRLEN ≤ b.avail
    · rw [if_pos hlong, if_pos hlong]
      exact ⟨_, _, _, _, rfl, rfl, h, fun i hi => h.buf i (Nat.lt_of_lt_of_le hi hlong)⟩
    · rw [if_neg hlong, if_neg hlong]
      obtain ⟨hsame, halike⟩ := h.look MAX_RDB_HDRLEN
      exact ⟨_, _, _, _, rfl, rfl, halike, fun i _ => congrFun hsame i⟩
  have hbuf : l.decode_buf q = l.decode_buf p :=
    RdbLength.decode_buf_congr fun i hi => hpq i (Nat.lt_of_lt_of_le hi (RdbLength.span_le l p))
  rw [hb, hc]
  dsimp only
  rw [hbuf]
  generalize l.decode_buf p = r
  obtain ⟨sz, l'⟩ := r
  dsimp only
  by_cases hneg : sz < 0
  · rw [if_pos hneg, if_pos hneg]
    exact ⟨rfl, rfl, halike⟩
  · rw [if_neg hneg, if_neg hneg]
    rcases halike.incr sz.toNat with ⟨hb, hc⟩ | ⟨b', c', hb, hc, halike', -⟩
    · rw [hb, hc]
      exact ⟨rfl, rfl, halike⟩
    · rw [hb, hc]
      exact ⟨rfl, rfl, halike'⟩

end RdbBufptr.Alike

/-- What `decompress` makes of the bytes that are written. -/
def RdbBufptr.expand (b : RdbBufptr) (bytes : List UInt8) (mem : Mem) (len : Nat) : Bool × RdbBufptr :=
  let id := b.mallocs
  let b := { b with mallocs := id + 1 }
  if bytes = [] then (false, b)
  else
    let b := if 0 < b.avail then { b with sav := b.buf, sav_avail := b.avail, sav_offset := b.offset } else b
    (true, { b with buf := ⟨.heap id, Mem.ofList bytes (mem.add bytes.length), 0⟩
                    avail := len, offset := 0, alloced_mem := id :: b.alloced_mem })

theorem RdbBufptr.expand_some (b : RdbBufptr) {bytes : List UInt8} (h : bytes ≠ []) (mem : Mem) (len : Nat) :
    ∃ c, b.expand bytes mem len = (true, c) ∧ c.buf.ptr.mem = Mem.ofList bytes (mem.add bytes.length) ∧
      c.avail = len := by
  rw [expand]
  dsimp only
  rw [if_neg h]
  exact ⟨_, rfl, show Mem.add (Mem.ofList bytes (mem.add bytes.length)) 0 = _ from Mem.add_zero _, rfl⟩

/-- What liblzf writes for the next `zlen` bytes. -/
def RdbBufptr.written (E : Env) (b : RdbBufptr) (zlen len : Nat) : List UInt8 :=
  E.lzf_decompress (b.buf.ptr.mem.take (zlen % 2 ^ 32)) (len % 2 ^ 32)

/-- `decompress` in terms of the bytes that are written: what is behind them is the memory that `malloc` has returned.
-/
theorem RdbBufptr.decompress_eq (E : Env) (b : RdbBufptr) (zlen len : Nat) : b.decompress E zlen len =
    match b.incr zlen with
    | none => some (false, b)
    | some (_, c) =>
      if ¬ E.malloc b.mallocs ((PTR_SIZE + len) % 2 ^ 64) then some (false, { c with mallocs := c.mallocs + 1 })
      else if (PTR_SIZE + len) % 2 ^ 64 < PTR_SIZE then none
      else some (c.expand (b.written E zlen len) (E.uninit c.mallocs) len) := by
  unfold RdbBufptr.decompress
  by_cases hle : zlen ≤ b.avail
  · rw [incr_some hle]
    dsimp only
    split
    · rfl
    · split
      · rfl
      · unfold expand
        dsimp only
        rw [written]
        split <;> rfl
  · rw [incr_none (Nat.lt_of_not_le hle)]

/-- What is expanded is the same, if all of it is written or what is not is. -/
theorem RdbBufptr.Alike.expand {b c : RdbBufptr} (h : b.Alike c) {bytes : List UInt8} {p q : Mem} {len : Nat}
    (hsame : p = q ∨ bytes = [] ∨ bytes.length = len) :
    (c.expand bytes q len).1 = (b.expand bytes p len).1 ∧ (b.expand bytes p len).2.Alike (c.expand bytes q len).2 := by
  have hcount := h.counted (b.mallocs + 1)
  rw [RdbBufptr.expand, RdbBufptr.expand, h.mallocs]
  dsimp only
  by_cases hnone : bytes = []
  · rw [if_pos hnone, if_pos hnone]
    exact ⟨rfl, hcount⟩
  · rw [if_neg hnone, if_neg hnone]
    refine ⟨rfl, hcount.save.moved (fun i hi => ?_) _⟩
    rcases hsame with rfl | hnone' | hlen
    · rfl
    · exact absurd hnone' hnone
    · rw [← hlen] at hi
      simp only [Cursor.ptr, Mem.add_zero, Mem.ofList, List.getD_eq_getElem?_getD, List.getElem?_eq_getElem hi,
        Option.getD_some]

/-- The same liblzf, where the memory that is allocated holds something else. -/
def Env.over (E : Env) (u : Nat → Mem) : Env := { E with uninit := u }

/-- A blob for which memory is found is refused by liblzf or has its declared length, and the size of the memory
has not wrapped. -/
def Expanded (E : Env) (b : RdbBufptr) (zlen len : Nat) : Prop :=
  E.malloc b.mallocs ((RdbBufptr.PTR_SIZE + len) % 2 ^ 64) = true →
    RdbBufptr.PTR_SIZE ≤ (RdbBufptr.PTR_SIZE + len) % 2 ^ 64 ∧
      (b.written E zlen len = [] ∨ (b.written E zlen len).length = len)

/-- Blobs in buffers that are alike are expanded to the same, if all of it is written or what is not is the same. -/
theorem RdbBufptr.Alike.decompress {b c : RdbBufptr} (h : b.Alike c) {E : Env} {u v : Nat → Mem} {zlen len : Nat}
    (hsame : u = v ∨ (zlen ≤ b.avail → Expanded E b zlen len)) :
    (b.decompress (E.over u) zlen len = none ∧ c.decompress (E.over v) zlen len = none) ∨
      ∃ more b' c', b.decompress (E.over u) zlen len = some (more, b') ∧
        c.decompress (E.over v) zlen len = some (more, c') ∧ b'.Alike c' := by
  rw [RdbBufptr.decompress_eq, RdbBufptr.decompress_eq]
  rcases h.incr zlen with ⟨hb, hc⟩ | ⟨b', c', hb, hc, halike, hle, -⟩
  · rw [hb, hc]
    exact .inr ⟨_, _, _, rfl, rfl, h⟩
  · have hwritten : c.written (E.over v) zlen len = b.written (E.over u) zlen len := by
      rw [RdbBufptr.written, h.take (Nat.le_trans (Nat.mod_le zlen (2 ^ 32)) hle)]
      rfl
    have hcount : c'.mallocs = b'.mallocs := halike.mallocs
    rw [hb, hc, h.mallocs, hwritten]
    dsimp only
    rw [hcount]
    by_cases hroom : E.malloc b.mallocs ((RdbBufptr.PTR_SIZE + len) % 2 ^ 64) = true
    · have hfound : ∀ w, ¬ ¬ (E.over w).malloc b.mallocs ((RdbBufptr.PTR_SIZE + len) % 2 ^ 64) = true :=
        fun _ => not_not_intro hroom
      rw [if_neg (hfound u), if_neg (hfound v)]
      by_cases hwrap : (RdbBufptr.PTR_SIZE + len) % 2 ^ 64 < RdbBufptr.PTR_SIZE
      · rw [if_pos hwrap, if_pos hwrap]
        exact .inl ⟨rfl, rfl⟩
      · rw [if_neg hwrap, if_neg hwrap]
        obtain ⟨hmore, hexpand⟩ : (c'.expand (b.written E zlen len) (v b'.mallocs) len).1 =
              (b'.expand (b.written E zlen len) (u b'.mallocs) len).1 ∧
            (b'.expand (b.written E zlen len) (u b'.mallocs) len).2.Alike
              (c'.expand (b.written E zlen len) (v b'.mallocs) len).2 :=
          halike.expand (hsame.imp (fun huv => congrFun huv _) fun hexp => (hexp hle hroom).2)
        exact .inr ⟨_, (b'.expand (b.written E zlen len) (u b'.mallocs) len).2,
          (c'.expand (b.written E zlen len) (v b'.mallocs) len).2, rfl, congrArg some (Prod.ext hmore rfl), hexpand⟩
    · have hnull : ∀ w, ¬ (E.over w).malloc b.mallocs ((RdbBufptr.PTR_SIZE + len) % 2 ^ 64) = true := fun _ => hroom
      rw [if_pos (hnull u), if_pos (hnull v)]
      exact .inr ⟨_, _, _, rfl, rfl, halike.counted _⟩

/-- Nothing undefined is done for such a blob. -/
theorem RdbBufptr.decompress_defined {E : Env} {b : RdbBufptr} {zlen len : Nat}
    (h : zlen ≤ b.avail → Expanded E b zlen len) : b.decompress E zlen len ≠ none := by
  rw [RdbBufptr.decompress_eq]
  by_cases hle : zlen ≤ b.avail
  · rw [incr_some hle]
    dsimp only
    by_cases hroom : E.malloc b.mallocs ((RdbBufptr.PTR_SIZE + len) % 2 ^ 64) = true
    · rw [if_neg (not_not_intro hroom), if_neg (Nat.not_lt.mpr (h hle hroom).1)]
      exact Option.some_ne_none _
    · rw [if_pos hroom]
      exact Option.some_ne_none _
  · rw [incr_none (Nat.lt_of_not_le hle)]
    exact Option.some_ne_none _

namespace RdbLength

/-- A compressed header that is accepted is none of an integer. -/
theorem decode_buf_lzf_enc {p : Mem} (hneg : ¬ (decode_buf {} p).1 < 0) (hlzf : (decode_buf {} p).2.is_lzf = true) :
    (decode_buf {} p).2.is_enc = 0 := by
  rcases decode_buf_cases p with ⟨hdr, hp⟩ | hneg' | ⟨zlen, hp, hb⟩
  · rw [decode_buf_header hdr hp] at hlzf ⊢
    cases hdr with
    | plain | int => cases hlzf
    | lzf => rfl
  · exact absurd hneg' hneg
  · rw [decode_buf_unchecked zlen hp hb]

/-- The header of a compressed blob is not one of an encoded integer. -/
theorem decode_lzf_enc {b b' : RdbBufptr} {l : RdbLength} (h : ({} : RdbLength).decode b = (.RDB_OK, l, b'))
    (hlzf : l.is_lzf = true) : l.is_enc = 0 := by
  rw [decode] at h
  generalize (if MAX_RDB_HDRLEN ≤ b.avail then (b.buf.ptr.mem, b) else b.look MAX_RDB_HDRLEN) = r at h
  obtain ⟨p, b₁⟩ := r
  dsimp only at h
  have henc := @decode_buf_lzf_enc p
  generalize decode_buf {} p = r at h henc
  obtain ⟨sz, l'⟩ := r
  dsimp only at h henc
  split at h
  · cases h
  · next hneg =>
    split at h
    · cases h
    · cases h
      exact henc hneg hlzf

end RdbLength

/-- The same outcome, and buffers that are alike. -/
structure RunAlike {α : Type} (r r' : Run St Event RdbErrCode α) : Prop where
  res : r'.res = r.res
  dec : r'.st.dec = r.st.dec
  bptr : r.st.bptr.Alike r'.st.bptr

namespace RunAlike

variable {α β : Type} {s t : St}

/-- What follows a step that ends alike. -/
theorem bind {x y : DecodeProc α} {f g : α → DecodeProc β} (hx : RunAlike (x s) (y t))
    (hf : ∀ a, (x s).res = .ok a → ∀ u v : St, v.dec = u.dec → u.bptr.Alike v.bptr → u = (x s).st →
      RunAlike (f a u) (g a v)) :
    RunAlike ((x >>= f) s) ((y >>= g) t) := by
  obtain ⟨res, u, o, hxrun⟩ : ∃ res u o, x s = ⟨res, u, o⟩ := ⟨_, _, _, rfl⟩
  obtain ⟨res', v, o', hyrun⟩ : ∃ res' v o', y t = ⟨res', v, o'⟩ := ⟨_, _, _, rfl⟩
  rw [hxrun] at hf
  rw [hxrun, hyrun] at hx
  obtain ⟨hres, hdec, halike⟩ := hx
  obtain rfl : res' = res := hres
  cases res' with
  | error e =>
    rw [Proc.bind_error hxrun, Proc.bind_error hyrun]
    exact ⟨rfl, hdec, halike⟩
  | ok a =>
    obtain ⟨hres, hdec, halike⟩ := hf a rfl u v hdec halike rfl
    rw [Proc.bind_ok hxrun rfl, Proc.bind_ok hyrun rfl]
    exact ⟨hres, hdec, halike⟩

variable (hdec : t.dec = s.dec) (h : s.bptr.Alike t.bptr)

include hdec h

theorem same (r : Except RdbErrCode α) : RunAlike ⟨r, s, []⟩ ⟨r, t, []⟩ := ⟨rfl, hdec, h⟩

/-- A length is read alike from buffers that are alike. -/
theorem decode : RunAlike (DecodeProc.decode {} s) (DecodeProc.decode {} t) := by
  obtain ⟨herr, hlen, halike⟩ := h.decode {}
  unfold DecodeProc.decode
  generalize ({} : RdbLength).decode s.bptr = r at herr hlen halike
  generalize ({} : RdbLength).decode t.bptr = r' at herr hlen halike
  obtain ⟨err, l, b⟩ := r
  obtain ⟨err', l', b'⟩ := r'
  obtain rfl : err' = err := herr
  obtain rfl : l' = l := hlen
  cases err' <;> exact ⟨rfl, hdec, halike⟩

/-- So is a blob opened, if all of it is written or the memory is the same. -/
theorem decompress {E : Env} {u v : Nat → Mem} {l : RdbLength}
    (hsame : u = v ∨ (l.zlen ≤ s.bptr.avail → Expanded E s.bptr l.zlen l.len)) :
    RunAlike (DecodeProc.decompress (E.over u) l s) (DecodeProc.decompress (E.over v) l t) := by
  unfold DecodeProc.decompress
  rcases h.decompress hsame with ⟨hs, ht⟩ | ⟨more, b, c, hs, ht, halike⟩
  · rw [hs, ht]
    exact same hdec h _
  · rw [hs, ht]
    cases more <;> exact ⟨rfl, hdec, halike⟩

/-- A string of bytes that are eaten. -/
theorem eat (n : Nat) : RunAlike ((DecodeProc.incr n >>= fun b => pure [RdbVal.str (b.mem.take n)]) s)
    ((DecodeProc.incr n >>= fun b => pure [RdbVal.str (b.mem.take n)]) t) := by
  rcases h.incr n with ⟨hs, ht⟩ | ⟨b, c, hs, ht, halike, hle, -⟩
  · have hrun : ∀ s : St, s.bptr.incr n = none → DecodeProc.incr n s = ⟨.error .RDB_ERR_TRUNC, s, []⟩ := fun s hs => by
      simp only [DecodeProc.incr, hs]
    rw [Proc.bind_error (hrun s hs), Proc.bind_error (hrun t ht)]
    exact ⟨rfl, hdec, h⟩
  · have hrun : ∀ (s : St) p b, s.bptr.incr n = some (p, b) → DecodeProc.incr n s = ⟨.ok p, { s with bptr := b }, []⟩ :=
      fun s p b hs => by simp only [DecodeProc.incr, hs]
    rw [Proc.bind_quiet (hrun s _ _ hs), Proc.bind_quiet (hrun t _ _ ht), Proc.pure_run, Proc.pure_run, h.take hle]
    exact ⟨rfl, hdec, halike⟩

end RunAlike

/-- The strings that are read, and what may come between them: bytes are eaten otherwise, or buffers released. -/
inductive StrStep
  | decode_rlen
  | consume
  | incr (n : Nat)
  | free_alloced

namespace StrStep

/-- A step with the strings it produces. -/
def run (E : Env) : StrStep → DecodeProc (List RdbVal)
  | decode_rlen => do
    let str ← RdbDecode.decode_rlen E .empty
    pure [str.val]
  | consume => do
    let len ← decode {}
    let b ← DecodeProc.consume E len
    pure [.str (b.mem.take len.len)]
  | incr n => do
    let _ ← DecodeProc.incr n
    pure []
  | free_alloced => do
    Proc.update fun s => { s with bptr := s.bptr.free_alloced }
    pure []

/-- The text a header announces, expanded if it is compressed. -/
def text (E : Env) (l : RdbLength) : DecodeProc (List RdbVal) :=
  (if l.is_lzf then decompress E l else pure ()) >>= fun _ => DecodeProc.incr l.len >>= fun b =>
    pure [.str (b.mem.take l.len)]

/-- The length of a record, with what is read behind it: an integer, or a text that may be compressed. -/
theorem run_decode_rlen (E : Env) : run E decode_rlen = decode {} >>= fun l =>
    if l.is_enc ≠ 0 then (if l.is_lzf then decompress E l else pure ()) >>= fun _ =>
      pure [(RdbString.empty.set_int l.ival).val]
    else text E l := by
  rw [run, RdbDecode.decode_rlen]
  simp only [Proc.bind_assoc, ← Proc.ite_bind]
  refine congrArg (decode {} >>= ·) (funext fun l => ?_)
  by_cases henc : l.is_enc ≠ 0
  · rw [if_pos henc]
    simp only [decode_str, if_pos henc, Proc.pure_bind]
  · rw [if_neg henc, text]
    simp only [decode_str, if_neg henc, Proc.bind_assoc, Proc.pure_bind, RdbString.set_str_val]

/-- `consume` as opening a compressed blob, if it is one, and taking its bytes. -/
theorem consume_eq (E : Env) (l : RdbLength) : DecodeProc.consume E l =
    if l.is_enc ≠ 0 then Proc.ret .RDB_ERR_HDR
    else (if l.is_lzf then decompress E l else pure ()) >>= fun _ => DecodeProc.incr l.len := by
  funext s
  rw [DecodeProc.consume, RdbLength.consume]
  by_cases henc : l.is_enc ≠ 0
  · rw [if_pos henc, if_pos henc]
    rfl
  · rw [if_neg henc, if_neg henc]
    by_cases hlzf : l.is_lzf = true
    · rw [if_pos hlzf, if_pos hlzf]
      rcases hdec : s.bptr.decompress E l.zlen l.len with _ | ⟨_ | _, b⟩
      · have hrun : decompress E l s = ⟨.error .undefined, s, []⟩ := by simp only [decompress, hdec]
        rw [Proc.bind_error hrun]
      · have hrun : decompress E l s = ⟨.error .RDB_ERR_LZF, { s with bptr := b }, []⟩ := by
          simp only [decompress, hdec]
        rw [Proc.bind_error hrun]
      · have hrun : decompress E l s = ⟨.ok (), { s with bptr := b }, []⟩ := by simp only [decompress, hdec]
        rw [Proc.bind_quiet hrun, DecodeProc.incr]
        dsimp only
        cases b.incr l.len <;> rfl
    · rw [if_neg hlzf, if_neg hlzf, Proc.pure_bind, DecodeProc.incr]
      dsimp only
      cases s.bptr.incr l.len <;> rfl

/-- Taking a string is reading its length and then its text. -/
theorem run_consume (E : Env) : run E consume = decode {} >>= fun l =>
  if l.is_enc ≠ 0 then Proc.ret .RDB_ERR_HDR else text E l := by
  rw [run]
  refine congrArg (decode {} >>= ·) (funext fun l => ?_)
  rw [consume_eq]
  by_cases henc : l.is_enc ≠ 0
  · rw [if_pos henc, if_pos henc]
    rfl
  · rw [if_neg henc, if_neg henc, text, Proc.bind_assoc]

/-- A string is read by the step, and a blob that is expanded for it has its declared length. -/
def Exact (E : Env) (x : StrStep) (s : St) : Prop :=
  (x = decode_rlen ∨ x = consume) → ∀ l b, ({} : RdbLength).decode s.bptr = (.RDB_OK, l, b) →
    l.is_lzf = true → l.zlen ≤ b.avail →
    Expanded E b l.zlen l.len

/-- A step ends alike, if what is not written is the same or the step expands all it has to. -/
theorem run_alike {E : Env} {u v : Nat → Mem} (x : StrStep) {s t : St} (hdec : t.dec = s.dec) (h : s.bptr.Alike t.bptr)
    (hsame : u = v ∨ x.Exact E s) : RunAlike (x.run (E.over u) s) (x.run (E.over v) t) := by
  have hopen : (x = decode_rlen ∨ x = consume) → ∀ l, (decode {} s).res = .ok l → ∀ s' t' : St, t'.dec = s'.dec →
      s'.bptr.Alike t'.bptr →
      s' = (decode {} s).st → RunAlike ((if l.is_lzf then decompress (E.over u) l else pure ()) s')
        ((if l.is_lzf then decompress (E.over v) l else pure ()) t') := by
    intro hx l hl s' t' hdec h hs'
    by_cases hlzf : l.is_lzf = true
    · rw [if_pos hlzf, if_pos hlzf]
      refine RunAlike.decompress hdec h (hsame.imp id fun hexact => hexact hx l _ ?_ hlzf)
      rw [hs']
      unfold decode at hl ⊢
      generalize ({} : RdbLength).decode s.bptr = r at hl ⊢
      obtain ⟨err, l', b⟩ := r
      cases err <;> cases hl
      rfl
    · rw [if_neg hlzf, if_neg hlzf]
      exact RunAlike.same hdec h _
  cases x with
  | decode_rlen =>
    rw [run_decode_rlen, run_decode_rlen]
    refine (RunAlike.decode hdec h).bind fun l hl s' t' hdec h hs' => ?_
    have hlzf := hopen (.inl rfl) l hl s' t' hdec h hs'
    split
    · exact hlzf.bind fun _ _ u' v' hdec h _ => RunAlike.same hdec h _
    · exact hlzf.bind fun _ _ u' v' hdec h _ => RunAlike.eat hdec h _
  | consume =>
    rw [run_consume, run_consume]
    refine (RunAlike.decode hdec h).bind fun l hl s' t' hdec h hs' => ?_
    split
    · exact RunAlike.same hdec h _
    · exact (hopen (.inr rfl) l hl s' t' hdec h hs').bind fun _ _ u' v' hdec h _ => RunAlike.eat hdec h _
  | incr n =>
    rcases h.incr n with ⟨hs, ht⟩ | ⟨b, c, hs, ht, halike, -⟩
    · have hrun : ∀ s : St, s.bptr.incr n = none → run (E.over u) (incr n) s = ⟨.error .RDB_ERR_TRUNC, s, []⟩ :=
        fun s hs =>
        Proc.bind_error (by simp only [DecodeProc.incr, hs])
      rw [hrun s hs, show run (E.over v) (incr n) t = _ from hrun t ht]
      exact RunAlike.same hdec h _
    · have hrun : ∀ (s : St) p b, s.bptr.incr n = some (p, b) →
          run (E.over u) (incr n) s = ⟨.ok [], { s with bptr := b }, []⟩ :=
        fun s p b hs => by
          have hincr : DecodeProc.incr n s = ⟨.ok p, { s with bptr := b }, []⟩ := by simp only [DecodeProc.incr, hs]
          exact Proc.bind_quiet hincr
      rw [hrun s _ _ hs, show run (E.over v) (incr n) t = _ from hrun t _ _ ht]
      exact ⟨rfl, hdec, halike⟩
  | free_alloced => exact ⟨rfl, hdec, h.free_alloced⟩

/-- Nothing undefined is done by a sequence if none is by its parts. -/
theorem bind_defined {α β : Type} {x : DecodeProc α} {f : α → DecodeProc β} {s : St}
    (hx : (x s).res ≠ .error .undefined)
    (hf : ∀ a, (x s).res = .ok a → (f a (x s).st).res ≠ .error .undefined) : ((x >>= f) s).res ≠ .error .undefined := by
  rcases Proc.bind_run x f s with ⟨e, t, o, hrun, hbind⟩ | ⟨a, t, o, hrun, hbind⟩
  · rw [hrun] at hx
    rw [hbind]
    exact fun he => hx (by rw [Except.error.inj he])
  · rw [hbind]
    rw [hrun] at hf
    exact hf a rfl

/-- Reading a length does nothing that is undefined. -/
theorem decode_defined (s : St) : (decode {} s).res ≠ .error .undefined := by
  have herr : (({} : RdbLength).decode s.bptr).1 ≠ .undefined := by
    rw [RdbLength.decode]
    split
    dsimp only
    split
    · exact RdbErrCode.noConfusion
    · split <;> exact RdbErrCode.noConfusion
  unfold decode
  generalize ({} : RdbLength).decode s.bptr = r at herr
  obtain ⟨err, l, b⟩ := r
  cases err <;> exact fun h => (by cases h <;> exact herr rfl)

theorem incr_defined (n : Nat) (s : St) : (DecodeProc.incr n s).res ≠ .error .undefined := by
  unfold DecodeProc.incr
  cases s.bptr.incr n <;> exact fun h => by cases h

/-- Nor does opening a blob, if it is no compressed one or its declared length can be allocated for. -/
theorem decompress_defined {E : Env} {l : RdbLength} {s : St}
    (h : l.is_lzf = true → l.zlen ≤ s.bptr.avail → Expanded E s.bptr l.zlen l.len) :
    ((if l.is_lzf then decompress E l else pure ()) s : Run St Event RdbErrCode Unit).res ≠ .error .undefined := by
  by_cases hlzf : l.is_lzf = true
  · rw [if_pos hlzf]
    have hsome := RdbBufptr.decompress_defined (h hlzf)
    unfold decompress
    rcases hdec : s.bptr.decompress E l.zlen l.len with _ | ⟨_ | _, b⟩
    · exact absurd hdec hsome
    · exact fun h => by cases h
    · exact fun h => by cases h
  · rw [if_neg hlzf]
    exact fun h => by cases h

/-- A step that expands all it has to does nothing undefined. -/
theorem run_defined {E : Env} {x : StrStep} {s : St} (hx : x.Exact E s) : (x.run E s).res ≠ .error .undefined := by
  have hopen : (x = decode_rlen ∨ x = consume) → ∀ l, (decode {} s).res = .ok l →
      ((if l.is_lzf then decompress E l else pure ()) (decode {} s).st : Run St Event RdbErrCode Unit).res ≠
        .error .undefined := by
    intro hstr l hl
    refine decompress_defined fun hlzf => hx hstr l _ ?_ hlzf
    unfold decode at hl ⊢
    generalize ({} : RdbLength).decode s.bptr = r at hl ⊢
    obtain ⟨err, l', b⟩ := r
    cases err <;> cases hl
    rfl
  have htext : ∀ (l : RdbLength) (t : St),
      ((if l.is_lzf then decompress E l else pure ()) t : Run St Event RdbErrCode Unit).res ≠ .error .undefined →
        (text E l t).res ≠ .error .undefined := fun l t h =>
    bind_defined h fun _ _ => bind_defined (incr_defined _ _) fun _ _ h => by cases h
  cases x with
  | decode_rlen =>
    rw [run_decode_rlen]
    refine bind_defined (decode_defined s) fun l hl => ?_
    split
    · exact bind_defined (hopen (.inl rfl) l hl) fun _ _ h => by cases h
    · exact htext l _ (hopen (.inl rfl) l hl)
  | consume =>
    rw [run_consume]
    refine bind_defined (decode_defined s) fun l hl => ?_
    split
    · exact fun h => by cases h
    · exact htext l _ (hopen (.inr rfl) l hl)
  | incr n => exact bind_defined (incr_defined n s) fun _ _ h => by cases h
  | free_alloced => exact fun h => by cases h

/-- Two fillings of the memory that is allocated. -/
def filled (b : UInt8) : Nat → Mem := fun _ _ => b

/-- The text of a compressed header that is expanded, with what was in the memory behind what is written. -/
theorem text_run {E : Env} {l : RdbLength} {s : St} (hlzf : l.is_lzf = true) (hle : l.zlen ≤ s.bptr.avail)
    (hroom : E.malloc s.bptr.mallocs ((RdbBufptr.PTR_SIZE + l.len) % 2 ^ 64) = true)
    (hwrap : ¬ (RdbBufptr.PTR_SIZE + l.len) % 2 ^ 64 < RdbBufptr.PTR_SIZE)
    (hsome : s.bptr.written E l.zlen l.len ≠ []) (u : Nat → Mem) :
    ∃ t, text (E.over u) l s = ⟨.ok [.str ((Mem.ofList (s.bptr.written E l.zlen l.len)
      ((u s.bptr.mallocs).add (s.bptr.written E l.zlen l.len).length)).take l.len)], t, []⟩ := by
  obtain ⟨b, hdec, hbuf, havail⟩ : ∃ b : RdbBufptr, s.bptr.decompress (E.over u) l.zlen l.len = some (true, b) ∧
      b.buf.ptr.mem = Mem.ofList (s.bptr.written E l.zlen l.len)
        ((u s.bptr.mallocs).add (s.bptr.written E l.zlen l.len).length) ∧
      b.avail = l.len := by
    obtain ⟨c, hexpand, hbuf, havail⟩ := RdbBufptr.expand_some
      { s.bptr with buf := s.bptr.buf.add l.zlen, avail := s.bptr.avail - l.zlen, offset := s.bptr.offset + l.zlen }
      hsome (u s.bptr.mallocs) l.len
    refine ⟨c, ?_, hbuf, havail⟩
    rw [RdbBufptr.decompress_eq, RdbBufptr.incr_some hle, ← hexpand]
    exact (if_neg (not_not_intro hroom)).trans (if_neg hwrap)
  have hrun : decompress (E.over u) l s = ⟨.ok (), { s with bptr := b }, []⟩ := by simp only [decompress, hdec]
  have hincr : DecodeProc.incr l.len { s with bptr := b } = ⟨.ok b.buf.ptr, { s with bptr :=
      { b with buf := b.buf.add l.len, avail := b.avail - l.len, offset := b.offset + l.len } }, []⟩ := by
    have h := RdbBufptr.incr_some (Nat.le_of_eq havail.symm)
    simp only [DecodeProc.incr, h]
  rw [text, if_pos hlzf, Proc.bind_quiet hrun, Proc.bind_quiet hincr, hbuf]
  exact ⟨_, rfl⟩

/-- The text of a compressed header whose size has wrapped. -/
theorem text_undefined {E : Env} {l : RdbLength} {s : St} (hlzf : l.is_lzf = true) (hle : l.zlen ≤ s.bptr.avail)
    (hroom : E.malloc s.bptr.mallocs ((RdbBufptr.PTR_SIZE + l.len) % 2 ^ 64) = true)
    (hwrap : (RdbBufptr.PTR_SIZE + l.len) % 2 ^ 64 < RdbBufptr.PTR_SIZE) :
    (text E l s).res = .error .undefined := by
  have hdec : s.bptr.decompress E l.zlen l.len = none := by
    rw [RdbBufptr.decompress_eq, RdbBufptr.incr_some hle]
    exact (if_neg (not_not_intro hroom)).trans (if_pos hwrap)
  have hrun : decompress E l s = ⟨.error .undefined, s, []⟩ := by simp only [decompress, hdec]
  rw [text, if_pos hlzf, Proc.bind_error hrun]

/-- A step that expands less than it has to does what is undefined, or makes a string of what was in the memory. -/
theorem run_inexact {E : Env} (hE : ∀ z n, (E.lzf_decompress z n).length ≤ n) (x : StrStep) {s : St}
    (hx : ¬ x.Exact E s) : (x.run E s).res = .error .undefined ∨ ∃ w w' t t', w ≠ w' ∧
      x.run (E.over (filled 0)) s = ⟨.ok [w], t, []⟩ ∧ x.run (E.over (filled 1)) s = ⟨.ok [w'], t', []⟩ := by
  simp only [Exact, Expanded, Classical.not_imp, not_forall] at hx
  obtain ⟨hstr, l, b, hdec, hlzf, hle, hroom, hexp⟩ := hx
  have henc := RdbLength.decode_lzf_enc hdec hlzf
  have hhdr : decode {} s = ⟨.ok l, { s with bptr := b }, []⟩ := by simp only [decode, hdec]
  -- both steps go on by reading the text
  have hrun : ∀ E', x.run E' s = text E' l { s with bptr := b } := by
    intro E'
    rcases hstr with rfl | rfl
    · rw [run_decode_rlen, Proc.bind_quiet hhdr, if_neg (not_not_intro henc)]
    · rw [run_consume, Proc.bind_quiet hhdr, if_neg (not_not_intro henc)]
  by_cases hwrap : (RdbBufptr.PTR_SIZE + l.len) % 2 ^ 64 < RdbBufptr.PTR_SIZE
  · rw [hrun]
    exact .inl (text_undefined (s := { s with bptr := b }) hlzf hle hroom hwrap)
  rw [and_iff_right (Nat.le_of_not_lt hwrap)] at hexp
  obtain ⟨hsome, hlen⟩ := not_or.mp hexp
  obtain ⟨t, h₀⟩ := text_run (E := E) (s := { s with bptr := b }) hlzf hle hroom hwrap hsome (filled 0)
  obtain ⟨t', h₁⟩ := text_run (E := E) (s := { s with bptr := b }) hlzf hle hroom hwrap hsome (filled 1)
  refine .inr ⟨_, _, t, t', fun heq => ?_, (hrun _).trans h₀, (hrun _).trans h₁⟩
  have hshort : (b.written E l.zlen l.len).length ≤ l.len % 2 ^ 32 := hE _ _
  dsimp only at heq
  generalize b.written E l.zlen l.len = bytes at hlen hshort heq
  -- the first byte that is not written
  have hmod := Nat.mod_le l.len (2 ^ 32)
  have hget := congrArg (fun xs : List UInt8 => xs[bytes.length]?) (RdbVal.str.inj heq)
  simp only [Mem.take, List.getElem?_map, List.getElem?_range (show bytes.length < l.len by omega), Option.map_some,
    Option.some.injEq, Mem.ofList, List.getD_eq_getElem?_getD, List.getElem?_eq_none (Nat.le_refl bytes.length),
    Option.getD_none] at hget
  exact absurd hget (by change ¬ (0 : UInt8) = 1; decide)

/-- The strings that the steps produce, up to the first one that fails; none if one does what is undefined. -/
def strings (E : Env) : List StrStep → St → Option (List RdbVal)
  | [], _ => some []
  | x :: xs, s =>
    match x.run E s with
    | ⟨.ok vs, t, _⟩ => (strings E xs t).map (vs ++ ·)
    | ⟨.error .undefined, _, _⟩ => none
    | ⟨.error _, _, _⟩ => some []

/-- Every step that is made is exact. -/
def AllExact (E : Env) : List StrStep → St → Prop
  | [], _ => True
  | x :: xs, s => x.Exact E s ∧ ∀ vs, (x.run E s).res = .ok vs → AllExact E xs (x.run E s).st

theorem strings_ok {E : Env} {x : StrStep} {xs : List StrStep} {s : St} {vs : List RdbVal}
    (h : (x.run E s).res = .ok vs) : strings E (x :: xs) s = (strings E xs (x.run E s).st).map (vs ++ ·) := by
  obtain ⟨res, t, o, hrun⟩ : ∃ res t o, x.run E s = ⟨res, t, o⟩ := ⟨_, _, _, rfl⟩
  rw [hrun] at h
  obtain rfl : res = .ok vs := h
  rw [strings, hrun]

theorem strings_error {E : Env} {x : StrStep} {xs : List StrStep} {s : St} {e : RdbErrCode}
    (h : (x.run E s).res = .error e) : strings E (x :: xs) s = if e = .undefined then none else some [] := by
  obtain ⟨res, t, o, hrun⟩ : ∃ res t o, x.run E s = ⟨res, t, o⟩ := ⟨_, _, _, rfl⟩
  rw [hrun] at h
  obtain rfl : res = .error e := h
  rw [strings, hrun]
  cases e <;> rfl

/-- The strings of a run are the same, if what is not written is the same or all steps are exact. -/
theorem strings_alike {E : Env} {u v : Nat → Mem} (xs : List StrStep) {s t : St} (hdec : t.dec = s.dec)
    (h : s.bptr.Alike t.bptr) (hsame : u = v ∨ AllExact (E.over u) xs s) :
    strings (E.over v) xs t = strings (E.over u) xs s := by
  induction xs generalizing s t with
  | nil => rfl
  | cons x xs ih =>
    obtain ⟨hres, hdec', halike⟩ := run_alike (E := E) x hdec h (hsame.imp id fun hall => hall.1)
    cases hok : (x.run (E.over u) s).res with
    | error e =>
      rw [strings_error hok, strings_error (hres.trans hok)]
    | ok vs =>
      rw [strings_ok hok, strings_ok (hres.trans hok), ih hdec' halike (hsame.imp id fun hall => hall.2 vs hok)]

/-- Nothing undefined is done in a run whose steps are exact. -/
theorem strings_defined {E : Env} (xs : List StrStep) {s : St} (h : AllExact E xs s) :
    ∃ vs, strings E xs s = some vs := by
  induction xs generalizing s with
  | nil => exact ⟨[], rfl⟩
  | cons x xs ih =>
    cases hok : (x.run E s).res with
    | error e =>
      have hdefined : e ≠ .undefined := fun he => run_defined h.1 (by rw [hok, he])
      rw [strings_error hok, if_neg hdefined]
      exact ⟨[], rfl⟩
    | ok vs =>
      obtain ⟨ws, hrest⟩ := ih (h.2 vs hok)
      rw [strings_ok hok, hrest]
      exact ⟨vs ++ ws, rfl⟩

end StrStep

open StrStep

/-- Literal runs expand to no more bytes than are asked for. -/
theorem Env.literal_le (z : List UInt8) (n : Nat) : (Env.literal.lzf_decompress z n).length ≤ n := by
  cases z with
  | nil => exact Nat.zero_le n
  | cons ctrl text =>
    simp only [Env.literal]
    split
    · next h => exact h.2.2
    · exact Nat.zero_le n

/-- A decoder in front of a string. -/
def St.blob (text : List UInt8) : St := ⟨{}, RdbBufptr.init ⟨.input, Mem.ofList text 0, 0⟩ text.length⟩

end rdbparser
