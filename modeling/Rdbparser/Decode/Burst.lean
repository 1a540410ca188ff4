import Rdbparser.Crc.Burst
import Rdbparser.Decode.Trailer

namespace rdbparser

open RdbDecode DecodeProc

/-- What the first `decode_hdr` recognises behind a dump: its version and its crc, `off` bytes from the end. -/
structure RdbBufptr.Trailer (b : RdbBufptr) (off ver : Nat) (crc : BitVec 64) : Prop where
  avail : 10 ≤ b.avail
  ver : ∀ dec, decode_ver ⟨dec, b⟩ = ⟨.ok off, ⟨{ dec with ver := ver, crc := crc }, b⟩, []⟩

/-- The bytes at the end of a dump without a newline. -/
theorem RdbBufptr.Trailer.of_end {b : RdbBufptr} {ver : Nat} {crc : BitVec 64} (havail : 10 ≤ b.avail)
    (hmagic : b.buf.ptr.mem.take 7 ≠ magic)
    (hver : (b.buf.ptr.mem (b.avail - 10)).toNat ||| (b.buf.ptr.mem (b.avail - 9)).toNat <<< 8 = ver)
    (hcrc : BitVec.ofNat 64 (le_nat ((b.buf.ptr.mem.add (b.avail - 8)).take 8)) = crc)
    (hlast : ver = 9 ∨ b.buf.ptr.mem (b.avail - 1) ≠ 0x0a) : b.Trailer 8 ver crc := by
  refine ⟨havail, fun dec => ?_⟩
  have hnl : ¬ (ver ≠ 9 ∧ b.buf.ptr.mem (b.avail - 1) = 0x0a) := fun h => hlast.elim h.1 fun hne => hne h.2
  rw [decode_ver, Proc.read_bind_run]
  simp only [if_neg hmagic, hver, decide_eq_false hnl, Bool.false_eq_true, if_false, hcrc]
  rfl

variable {E : Env} {filter : Option (RdbVal → Bool)} {bs bs' : List UInt8} {past past' : Mem} {off ver : Nat}
  {crc : BitVec 64}

/-- A crc that does not match is reported. -/
theorem decode_hdr_crc (h : (St.map filter bs past).bptr.Trailer off ver crc) (hcrc : crc ≠ 0)
    (hne : ∀ next, jones_crc64 next 0 (bs.take (bs.length - off)) ≠ crc) :
    (decode_hdr E (St.map filter bs past)).res = .error .RDB_ERR_CRC := by
  have htake : (St.map filter bs past).bptr.buf.ptr.mem.take (bs.length - off) = bs.take (bs.length - off) := by
    rw [St.map_mem]
    exact (Mem.ofList_starts bs past).take_le (Nat.sub_le _ _)
  obtain ⟨t, htrailer⟩ : ∃ t, decode_trailer E { St.map filter bs past with dec.out := some .data_out } =
      ⟨.error .RDB_ERR_CRC, t, []⟩ := by
    refine ⟨⟨{ (St.map filter bs past).dec with out := some .data_out, ver := ver, crc := crc },
      (St.map filter bs past).bptr⟩, ?_⟩
    rw [decode_trailer, set_dec, Proc.update_bind_run, Proc.read_bind_run,
      if_neg (Nat.not_lt.mpr h.avail), Proc.bind_quiet (h.ver _), Proc.read_bind_run]
    simp only [St.map_avail, htake, ne_eq, hcrc, hne, not_false_eq_true]
    rfl
  rw [decode_hdr_fresh rfl rfl rfl]
  exact congrArg Run.res (Proc.bind_error htrailer)

/-- A change of at most eight bytes changes the crc of any message, and in a dump of which the version and the
crc stay what they are it is reported. The change may be anywhere in front of these; of the dump it is only
asked that it has a crc and passes the check. -/
theorem jones_crc64_corrupted (hburst : Burst bs bs') (hne : bs ≠ bs') :
    (∀ (next next' : Nat) (crc : BitVec 64), jones_crc64 next crc bs ≠ jones_crc64 next' crc bs') ∧
      ∀ (E : Env) (filter : Option (RdbVal → Bool)) (past past' : Mem) (off ver : Nat) (crc : BitVec 64),
        (St.map filter bs past).bptr.Trailer off ver crc → (St.map filter bs' past').bptr.Trailer off ver crc →
          bs.drop (bs.length - off) = bs'.drop (bs.length - off) → crc ≠ 0 →
            (decode_hdr E (St.map filter bs past)).res ≠ .error .RDB_ERR_CRC →
              (decode_hdr E (St.map filter bs' past')).res = .error .RDB_ERR_CRC := by
  refine ⟨fun next next' crc hcrc => hne (jones_crc64_burst hburst next next' hcrc), ?_⟩
  intro E filter past past' off ver crc h h' hend hcrc hpass
  have hmatch : ∃ next, jones_crc64 next 0 (bs.take (bs.length - off)) = crc := by
    by_contra hnone
    exact hpass (decode_hdr_crc h hcrc fun next heq => hnone ⟨next, heq⟩)
  obtain ⟨next, hmatch⟩ := hmatch
  refine decode_hdr_crc h' hcrc fun next' heq => hne ?_
  rw [← hburst.1] at heq
  have hfront := jones_crc64_burst (hburst.take (bs.length - off)) next next' (hmatch.trans heq.symm)
  rw [← List.take_append_drop (bs.length - off) bs, hfront, hend, List.take_append_drop]

/-- The string "a" as a dump of version 9, of which the letter becomes another. -/
theorem jones_crc64_corrupted_letter : (decode_hdr Env.literal (St.map none
    [0x00, 0x01, 0x62, 0x09, 0x00, 0x6f, 0x0c, 0xbe, 0x57, 0xdb, 0xb0, 0x1e, 0x05] 0)).res = .error .RDB_ERR_CRC := by
  have hburst : Burst [0x00, 0x01, 0x61, 0x09, 0x00, 0x6f, 0x0c, 0xbe, 0x57, 0xdb, 0xb0, 0x1e, 0x05]
      [0x00, 0x01, 0x62, 0x09, 0x00, 0x6f, 0x0c, 0xbe, 0x57, 0xdb, 0xb0, 0x1e, 0x05] := by
    refine ⟨rfl, 2, fun j hj => ?_⟩
    match j with
    | 0 | 1 => rfl
    | 2 => omega
    | _ + 3 => rfl
  refine (jones_crc64_corrupted hburst (by decide)).2 Env.literal none 0 0 8 9 0x051eb0db57be0c6f
    (.of_end (by decide) (by decide) (by decide) (by decide +kernel) (.inl rfl))
    (.of_end (by decide) (by decide) (by decide) (by decide +kernel) (.inl rfl)) rfl (by decide) ?_
  have hok : (decode_hdr Env.literal (St.map none
    [0x00, 0x01, 0x61, 0x09, 0x00, 0x6f, 0x0c, 0xbe, 0x57, 0xdb, 0xb0, 0x1e, 0x05] 0)).res = .ok () := by
    decide +kernel
  rw [hok]
  exact nofun

end rdbparser
