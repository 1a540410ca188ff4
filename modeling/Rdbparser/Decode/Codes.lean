import Rdbparser.Decode.Closed
import Rdbparser.Proc.Codes

/-! The codes that the decoders return. -/

namespace rdbparser

open RdbDecode

/-- A code of a part of a record; the name of a group or consumer that cannot be read makes `RDB_OK` one. -/
abbrev PartCode (e : RdbErrCode) : Prop := e ≠ .RDB_OK → e.of_record = true

/-- A code of a step on the buffer. -/
abbrev StepCode (e : RdbErrCode) : Prop :=
  e = .RDB_ERR_TRUNC ∨ e = .RDB_ERR_HDR ∨ e = .RDB_ERR_LZF ∨ e = .undefined

theorem StepCode.record {e : RdbErrCode} (h : StepCode e) : e.of_record = true := by
  rcases h with rfl | rfl | rfl | rfl <;> rfl

namespace StepCode

theorem incr (n : Nat) : (DecodeProc.incr n).Codes StepCode := by
  intro s e h
  unfold DecodeProc.incr at h
  split at h
  · cases h
  · cases h
    exact .inl rfl

/-- A length is refused with one of the codes of a step, whatever is in front. -/
theorem decode (l : RdbLength) : (DecodeProc.decode l).Codes StepCode := by
  intro s e h
  have hcode : (l.decode s.bptr).1 = .RDB_OK ∨ StepCode (l.decode s.bptr).1 := by
    unfold RdbLength.decode
    split
    split
    split
    · exact .inr (.inr (.inl rfl))
    · split
      · exact .inr (.inl rfl)
      · exact .inl rfl
  unfold DecodeProc.decode at h
  split at h
  · cases h
  · next hne hrun =>
    rw [hrun] at hcode
    obtain rfl := Except.error.inj h
    exact hcode.resolve_left hne

/-- The same for the length at the head of a value, which is kept whether or not it is taken. -/
theorem decode_hdr_len : DecodeProc.decode_hdr_len.Codes StepCode := by
  intro s e h
  have hcode := decode {} s
  unfold DecodeProc.decode at hcode
  unfold DecodeProc.decode_hdr_len at h
  obtain ⟨err, l, b, hrun⟩ : ∃ err l b, ({} : RdbLength).decode s.bptr = (err, l, b) := ⟨_, _, _, rfl⟩
  rw [hrun] at hcode h
  dsimp only at h
  split at h
  · cases h
  · next hne =>
    obtain rfl := Except.error.inj h
    refine hcode err ?_
    cases err <;> first | rfl | exact absurd rfl hne

/-- A string is refused with one of these codes too, compressed or not. -/
theorem consume {E : Env} (l : RdbLength) : (DecodeProc.consume E l).Codes StepCode := by
  intro s e h
  unfold DecodeProc.consume RdbLength.consume at h
  split at h
  next hrun =>
  split at hrun
  · cases hrun
    cases h
    exact .inr (.inl rfl)
  · split at hrun
    · cases hrun
      cases h
      exact .inr (.inr (.inr rfl))
    · cases hrun
      cases h
      exact .inr (.inr (.inl rfl))
    · split at hrun
      · cases hrun
        cases h
        exact .inl rfl
      · cases hrun
        cases h

/-- A blob that cannot be opened is refused with the code for that, or ends the run where what is done is undefined.
-/
theorem decompress {E : Env} (l : RdbLength) : (DecodeProc.decompress E l).Codes StepCode := by
  intro s e h
  unfold DecodeProc.decompress at h
  split at h
  · cases h
    exact .inr (.inr (.inr rfl))
  · cases h
  · cases h
    exact .inr (.inr (.inl rfl))

end StepCode

variable {E : Env}

/-- The codes of the steps are the codes of all. -/
theorem codes_closed {B : RdbErrCode → Prop} (hB : ∀ e, StepCode e → B e) :
    DecodeClosed E B fun {α} (x : DecodeProc α) => x.Codes B where
  toClosed := Proc.Codes.closed St.unfilter
  incr n := (StepCode.incr n).mono hB
  decode l := (StepCode.decode l).mono hB
  consume l := (StepCode.consume l).mono hB
  decompress l := (StepCode.decompress l).mono hB
  call _ := .of_ok fun _ => ⟨(), rfl⟩
  start_type _ := .of_ok fun _ => ⟨(), rfl⟩
  decode_hdr_len := StepCode.decode_hdr_len.mono hB

/-- A name that cannot be read is left with the code of success, or with one of a record where its bytes are not
opened. -/
theorem stream_name_codes : (stream_name E).Codes PartCode := by
  have hpart : ∀ e, StepCode e → PartCode e := fun _ h _ => h.record
  have hread : (stream_text E).Codes PartCode := (codes_closed hpart).stream_text
  refine hread.recode fun e he => ?_
  rw [name_code]
  split
  · exact he
  · exact fun hne => absurd rfl hne

theorem decode_body_codes : (decode_body E).Codes fun e => e.of_record = true := by
  have hpart : ∀ e, StepCode e → PartCode e := fun _ h _ => h.record
  have hscope := (codes_closed (E := E) hpart).stream_scope (fun _ h _ => h) stream_name_codes
  exact (codes_closed fun _ => StepCode.record).decode_body (fun _ h => h) (.accept hscope)

end rdbparser
