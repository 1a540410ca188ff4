import Rdbparser.Crc.Slice
import Rdbparser.Keys
import Rdbparser.Decode.Sends

namespace rdbparser

open format RdbDecode DecodeProc

variable {E : Env} {filter : Option (RdbVal → Bool)}

/-- A dump of a value: its type, its bytes, the version and the crc of all of these. -/
structure format.Payload where
  type_byte : UInt8
  htype : type_byte ≤ 19
  body : List UInt8
  ver : Nat
  hver : 1 ≤ ver ∧ ver ≤ 255

namespace format.Payload

/-- What the crc is of. -/
def front (p : Payload) : List UInt8 := (p.type_byte :: p.body) ++ [UInt8.ofNat p.ver, 0]

def crc (p : Payload) : BitVec 64 := crc64 p.front

def bytes (p : Payload) : List UInt8 := p.front ++ le_bytes 8 p.crc.toNat

/-- The last byte of the crc. -/
def last (p : Payload) : UInt8 := UInt8.ofNat (p.crc.toNat / 2 ^ 56)

theorem front_length (p : Payload) : p.front.length = p.body.length + 3 := by
  simp [front]

theorem bytes_length (p : Payload) : p.bytes.length = p.body.length + 11 := by
  simp [bytes, front_length]

/-- The first `decode_hdr` finds the version and the crc, which agrees, and goes on with the type and
the value only. -/
def Recognised (E : Env) (p : Payload) (s : St) : Prop :=
  ∃ t c, decode_hdr E s = (decode_type_key E >>= fun _ => decode_unzip E) t ∧
    t.dec.ver = p.ver ∧ t.dec.is_rdb_file = false ∧ t.bptr.On c ∧ c.Views (p.type_byte :: p.body)

/-- A dump in memory. -/
structure In (p : Payload) (mem : Mem) : Prop where
  value : mem.Starts (p.type_byte :: p.body)
  front : mem.take (p.body.length + 3) = p.front
  ver_lo : mem (p.body.length + 1) = UInt8.ofNat p.ver
  ver_hi : mem (p.body.length + 2) = 0
  crc : BitVec.ofNat 64 (le_nat ((mem.add (p.body.length + 3)).take 8)) = p.crc
  last : mem (p.body.length + 10) = p.last
  not_file : mem.take 7 ≠ magic

/-- A payload at the start of a memory is in it: its version and its crc are where the code looks for them. -/
theorem starts_in (p : Payload) {mem : Mem} (h : mem.Starts p.bytes) : p.In mem := by
  obtain ⟨hfront, hcrc⟩ := Mem.starts_append.mp h
  obtain ⟨hvalue, hver⟩ := Mem.starts_append.mp hfront
  obtain ⟨hlo, hver⟩ := Mem.starts_cons.mp hver
  obtain ⟨hhi, -⟩ := Mem.starts_cons.mp hver
  rw [front_length] at hcrc
  refine ⟨hvalue, ?_, hlo, hhi, ?_, ?_, ?_⟩
  · rw [← front_length]
    exact hfront.take
  · have htake := hcrc.take
    rw [le_bytes_length] at htake
    have hlt : p.crc.toNat < 256 ^ 8 := p.crc.isLt
    rw [htake, le_nat_le_bytes, Nat.mod_eq_of_lt hlt, BitVec.ofNat_toNat, BitVec.setWidth_eq]
  · have hlast := hcrc.get (i := 7) (by simp)
    rw [Mem.add_apply, Nat.add_assoc] at hlast
    rw [hlast]
    simp [le_bytes, Payload.last, Nat.div_div_eq_div_mul]
  · intro hmagic
    rw [Mem.take_succ, (Mem.starts_cons.mp hvalue).1, magic, List.cons.injEq] at hmagic
    have htype := p.htype
    rw [hmagic.1] at htype
    exact absurd htype (by decide)

/-- The version in front of the crc. -/
theorem ver_eq (p : Payload) : (UInt8.ofNat p.ver).toNat ||| (0 : UInt8).toNat <<< 8 = p.ver := by
  have h := p.hver.2
  rw [RdbLength.toNat_ofNat_lt (by omega)]
  simp

/-- The bytes left before the crc are what it is of. -/
theorem decode_trailer_found (p : Payload) {s : St} {off : Nat} (hin : p.In s.bptr.buf.ptr.mem)
    (havail : s.bptr.avail = p.body.length + 3 + off) (hoff : 8 ≤ off)
    (hfile : s.dec.is_rdb_file = false)
    (hver : decode_ver { s with dec.crc := 0 } =
      ⟨.ok off, ⟨{ s.dec with ver := p.ver, crc := p.crc }, s.bptr⟩, []⟩) :
    decode_trailer E s = ⟨.ok (), ⟨{ s.dec with ver := p.ver, crc := p.crc },
      { s.bptr with avail := p.body.length + 1 }⟩, []⟩ := by
  have hcalc : ∀ addr, jones_crc64 addr 0 (s.bptr.buf.ptr.mem.take (s.bptr.avail - off)) = p.crc := by
    intro addr
    rw [jones_crc64_eq, show s.bptr.avail - off = p.body.length + 3 by omega, hin.front]
    rfl
  have hsub : sub64 s.bptr.avail (off + 2) = p.body.length + 1 := by
    rw [sub64, if_pos (by omega)]
    omega
  rw [decode_trailer, set_dec, Proc.update_bind_run, Proc.read_bind_run,
    if_neg (show ¬ s.bptr.avail < 10 by omega), Proc.bind_quiet hver, Proc.read_bind_run]
  simp only [hcalc, hfile, ne_eq, not_true_eq_false, false_and, and_false, if_false,
    Bool.false_eq_true, not_false_eq_true, if_true, Proc.update_run, hsub]

/-- What `decode_ver` finds in a dump of `avail` bytes, whether or not it takes the last of them for a
newline. -/
theorem decode_ver_eq (p : Payload) {s : St} (hin : p.In s.bptr.buf.ptr.mem) {avail : Nat}
    (havail : s.bptr.avail = avail) {b₀ b₁ b₂ b₃ : UInt8}
    (h₀ : s.bptr.buf.ptr.mem (sub64 avail 11) = b₀) (h₁ : s.bptr.buf.ptr.mem (avail - 10) = b₁)
    (h₂ : s.bptr.buf.ptr.mem (avail - 9) = b₂) (h₃ : s.bptr.buf.ptr.mem (avail - 1) = b₃) :
    decode_ver s =
      (let ver := b₁.toNat ||| b₂.toNat <<< 8
       let nl := decide (ver ≠ 9 ∧ b₃ = 0x0a)
       let off := if nl then 9 else 8
       ⟨.ok off, ⟨{ s.dec with
         ver := if nl then b₀.toNat ||| b₁.toNat <<< 8 else ver
         crc := BitVec.ofNat 64 (le_nat ((s.bptr.buf.ptr.mem.add (avail - off)).take 8)) },
         s.bptr⟩, []⟩) := by
  rw [decode_ver, Proc.read_bind_run]
  simp only [if_neg hin.not_file, havail, h₀, h₁, h₂, h₃]
  rfl

/-- Without a newline the version and the crc are found, unless the last byte of the crc is taken for
one. -/
theorem decode_ver_plain (p : Payload) {s : St} (hin : p.In s.bptr.buf.ptr.mem)
    (havail : s.bptr.avail = p.body.length + 11) (h : p.ver = 9 ∨ p.last ≠ 0x0a) :
    decode_ver s = ⟨.ok 8, ⟨{ s.dec with ver := p.ver, crc := p.crc }, s.bptr⟩, []⟩ := by
  have hnl : ¬ (p.ver ≠ 9 ∧ p.last = 0x0a) := fun hboth => h.elim hboth.1 fun hlast => hlast hboth.2
  rw [p.decode_ver_eq hin havail rfl hin.ver_lo hin.ver_hi hin.last]
  simp only [p.ver_eq, decide_eq_false hnl, Bool.false_eq_true, if_false]
  rw [show p.body.length + 11 - 8 = p.body.length + 3 by omega, hin.crc]

/-- Behind a newline they are always found: in front of it, the first byte of the crc is no high byte
of version 9. -/
theorem decode_ver_newline (p : Payload) {s : St} (hin : p.In s.bptr.buf.ptr.mem)
    (havail : s.bptr.avail = p.body.length + 12)
    (hlast : s.bptr.buf.ptr.mem (p.body.length + 11) = 0x0a) :
    decode_ver s = ⟨.ok 9, ⟨{ s.dec with ver := p.ver, crc := p.crc }, s.bptr⟩, []⟩ := by
  have hlo : s.bptr.buf.ptr.mem (sub64 (p.body.length + 12) 11) = UInt8.ofNat p.ver := by
    rw [sub64, if_pos (by omega)]
    exact hin.ver_lo
  have hver : ∀ b : UInt8, (0 : UInt8).toNat ||| b.toNat <<< 8 ≠ 9 := by
    intro b
    rw [UInt8.toNat_zero, Nat.zero_or, Nat.shiftLeft_eq]
    omega
  rw [p.decode_ver_eq hin havail hlo hin.ver_hi rfl hlast]
  simp only [ne_eq, hver, not_false_eq_true, and_self, decide_true, if_true, p.ver_eq]
  rw [show p.body.length + 12 - 9 = p.body.length + 3 by omega, hin.crc]

/-- A last byte that is taken for a newline: the version is read one byte too early, which makes it
the high byte of another. -/
theorem decode_ver_misread (p : Payload) {s : St} (hin : p.In s.bptr.buf.ptr.mem)
    (havail : s.bptr.avail = p.body.length + 11) (hver : p.ver ≠ 9) (hlast : p.last = 0x0a) :
    ∃ ver crc, decode_ver s = ⟨.ok 9, ⟨{ s.dec with ver := ver, crc := crc }, s.bptr⟩, []⟩ ∧
      p.ver < ver := by
  rw [p.decode_ver_eq hin havail rfl hin.ver_lo hin.ver_hi hin.last]
  simp only [p.ver_eq, ne_eq, hver, not_false_eq_true, hlast, and_self, decide_true, if_true]
  refine ⟨_, _, rfl, ?_⟩
  have hle : (UInt8.ofNat p.ver).toNat <<< 8 ≤
      (s.bptr.buf.ptr.mem (sub64 (p.body.length + 11) 11)).toNat |||
        (UInt8.ofNat p.ver).toNat <<< 8 := Nat.right_le_or
  have hbounds := p.hver
  rw [RdbLength.toNat_ofNat_lt (by omega), Nat.shiftLeft_eq] at hle ⊢
  omega

/-- A payload of another version than 9 whose crc ends in the byte of a newline is taken for one of a higher version:
what is read for the version is one byte too early. -/
theorem decode_trailer_misread (p : Payload) {s : St} (hin : p.In s.bptr.buf.ptr.mem)
    (havail : s.bptr.avail = p.body.length + 11) (hver : p.ver ≠ 9) (hlast : p.last = 0x0a) :
    p.ver < (decode_trailer E s).st.dec.ver := by
  obtain ⟨ver, crc, hrun, hlt⟩ := p.decode_ver_misread (s := { s with dec.crc := 0 }) hin havail hver hlast
  rw [decode_trailer, set_dec, Proc.update_bind_run, Proc.read_bind_run,
    if_neg (show ¬ s.bptr.avail < 10 by omega), Proc.bind_quiet hrun, Proc.read_bind_run]
  split
  · exact hlt
  · split
    · exact hlt
    · rw [skip, Proc.update_run]
      split <;> exact hlt

end format.Payload

/-- The version stays what it is. -/
def KeepsVer (s : St) (_ : List Event) (t : St) : Prop := t.dec.ver = s.dec.ver

namespace KeepsVer

variable {α : Type} {C : Callback → Bool}

theorem chains : Proc.Chains KeepsVer where
  refl _ := rfl
  trans h h' := h'.trans h

theorem steps : DecodeSteps E C KeepsVer :=
  Sends.steps_of chains fun h => congrArg RdbDecode.ver h.1

theorem hdr_steps : HdrSteps E C KeepsVer where
  toReadSteps := steps.toReadSteps
  start_type _ _ := rfl
  header _ _ _ _ := rfl

/-- The version `decode_hdr` leaves on a fresh decoder is that of the trailer. -/
theorem decode_hdr_fresh_ver {s : St} (hout : s.dec.out = none) (hdata : s.dec.data_out = true)
    (hver : s.dec.ver = 0) : (decode_hdr E s).st.dec.ver =
      (decode_trailer E { s with dec.out := some .data_out }).st.dec.ver := by
  obtain ⟨f, hf, hrun⟩ : ∃ f : Unit → DecodeProc Unit, (∀ u, (f u).Follows KeepsVer) ∧
      decode_hdr E s = (decode_trailer E >>= f) { s with dec.out := some .data_out } := by
    refine ⟨_, fun _ => .read_bind chains fun t => .bind chains (.ite ?_ (.pure chains _)) fun _ =>
      .bind chains (hdr_steps (C := fun _ => false)).decode_type_key fun _ =>
        (steps (C := fun _ => false)).decode_unzip, decode_hdr_fresh hout hdata hver⟩
    exact steps.decode_meta_loop (C := Callback.of_opcode) (fun _ h => h) _
  rw [hrun]
  rcases Proc.bind_run (decode_trailer E) f { s with dec.out := some .data_out } with
    ⟨e, t, o, htrailer, hbind⟩ | ⟨u, t, o, htrailer, hbind⟩
  · rw [hbind, htrailer]
  · rw [hbind, htrailer]
    exact hf u t

end KeepsVer

namespace format.Payload

/-- A payload whose version and crc are found is recognised. -/
theorem recognised_of_found (p : Payload) (off : Nat) {s : St}
    (hdec : s.dec = { data_out := true, filter := filter }) (hsav : s.bptr.sav_avail = 0)
    (hin : p.In s.bptr.buf.ptr.mem) (havail : s.bptr.avail = p.body.length + 3 + off) (hoff : 8 ≤ off)
    (hver : ∀ dec, decode_ver ⟨dec, s.bptr⟩ =
      ⟨.ok off, ⟨{ dec with ver := p.ver, crc := p.crc }, s.bptr⟩, []⟩) :
    p.Recognised E s := by
  obtain ⟨dec, bptr⟩ := s
  obtain rfl := hdec
  have htrailer := p.decode_trailer_found (E := E)
    (s := ⟨{ data_out := true, filter := filter, out := some .data_out }, bptr⟩) hin havail hoff rfl
    (hver _)
  refine ⟨⟨{ data_out := true, filter := filter, out := some .data_out, ver := p.ver, crc := p.crc },
    { bptr with avail := p.body.length + 1 }⟩, _, ?_, rfl, rfl, ⟨rfl, hsav⟩, rfl, hin.value⟩
  rw [decode_hdr_fresh rfl rfl rfl, Proc.bind_quiet htrailer, Proc.read_bind_run, Proc.ite_bind]
  rfl

/-- A payload whose last byte is taken for a newline is not: the version is another. -/
theorem not_recognised (p : Payload) {s : St} (hdec : s.dec = { data_out := true, filter := filter })
    (hin : p.In s.bptr.buf.ptr.mem) (havail : s.bptr.avail = p.body.length + 11) (hver : p.ver ≠ 9)
    (hlast : p.last = 0x0a) : ¬ p.Recognised E s := by
  rintro ⟨t, c, hrun, ht, -⟩
  obtain ⟨dec, bptr⟩ := s
  obtain rfl := hdec
  have hlt := p.decode_trailer_misread (E := E)
    (s := ⟨{ data_out := true, filter := filter, out := some .data_out }, bptr⟩) hin havail hver hlast
  have hrecord : (decode_type_key E >>= fun _ => decode_unzip E).Follows KeepsVer :=
    .bind KeepsVer.chains (KeepsVer.hdr_steps (C := fun _ => false)).decode_type_key fun _ =>
      (KeepsVer.steps (C := fun _ => false)).decode_unzip
  have hst := KeepsVer.decode_hdr_fresh_ver (E := E)
    (s := ⟨{ data_out := true, filter := filter }, bptr⟩) rfl rfl rfl
  rw [hrun] at hst
  have hver' := (hst.symm.trans (hrecord t)).trans ht
  exact absurd hver' (Nat.ne_of_gt hlt)

end format.Payload

/-- A payload is recognised with and without a newline behind it if and only if it has version 9 or its crc does
not end with a byte that could be that newline. It may be of any version and length, and nothing is assumed of
the memory behind it. -/
theorem decode_hdr_payload_iff (p : Payload) (filter : Option (RdbVal → Bool)) (past past' : Mem) :
    p.Recognised E (St.map filter p.bytes past) ∧
        p.Recognised E (St.map filter (p.bytes ++ [0x0a]) past') ↔
      p.ver = 9 ∨ p.last ≠ 0x0a := by
  have hin : p.In (St.map filter p.bytes past).bptr.buf.ptr.mem := by
    rw [St.map_mem]
    exact p.starts_in (Mem.ofList_starts _ _)
  have hstarts := Mem.starts_append.mp (Mem.ofList_starts (p.bytes ++ [0x0a]) past')
  have hin' : p.In (St.map filter (p.bytes ++ [0x0a]) past').bptr.buf.ptr.mem := by
    rw [St.map_mem]
    exact p.starts_in hstarts.1
  have hlen' : (p.bytes ++ [0x0a]).length = p.body.length + 12 := by
    rw [List.length_append, p.bytes_length]
    rfl
  constructor
  · rintro ⟨hplain, -⟩
    by_contra hbad
    obtain ⟨hver, hlast⟩ := not_or.mp hbad
    exact p.not_recognised rfl hin p.bytes_length hver (not_not.mp hlast) hplain
  · intro h
    refine ⟨p.recognised_of_found 8 rfl rfl hin p.bytes_length (by decide) fun dec => ?_,
      p.recognised_of_found 9 rfl rfl hin' hlen' (by decide) fun dec => ?_⟩
    · exact p.decode_ver_plain (s := ⟨dec, _⟩) hin p.bytes_length h
    · refine p.decode_ver_newline (s := ⟨dec, _⟩) hin' hlen' ?_
      have hlast := hstarts.2
      rw [p.bytes_length] at hlast
      rw [St.map_mem]
      exact (Mem.starts_cons.mp hlast).1

/-- The string "$" as a dump of version 7, the crc of which ends with a newline. -/
def format.Payload.dollar : Payload := ⟨0, by decide, [0x01, 0x24], 7, by decide⟩

/-- That dump is not recognised, though its crc is the right one and not 0. -/
theorem payload_not_recognised : ¬ ∀ (E : Env) (p : Payload) (past : Mem), p.crc ≠ 0 →
    p.Recognised E (St.map none p.bytes past) := by
  intro h
  have hlast : Payload.dollar.last = 0x0a := by decide +kernel
  have hcrc : Payload.dollar.crc ≠ 0 := by decide +kernel
  have hin : Payload.dollar.In (St.map none Payload.dollar.bytes 0).bptr.buf.ptr.mem := by
    rw [St.map_mem]
    exact Payload.dollar.starts_in (Mem.ofList_starts _ _)
  exact Payload.dollar.not_recognised rfl hin Payload.dollar.bytes_length (by decide) hlast
    (h Env.literal _ 0 hcrc)

end rdbparser
