import Rdbparser.Keys.File

namespace rdbparser

open format RdbDecode DecodeProc

variable {E : Env} {V : Type} [Encoding E V] {filter : Option (RdbVal → Bool)}

/-- The second string of an AUX field is compressed. -/
def format.Meta.aux_lzf : Meta E → Bool
  | .aux _ val => val.is_lzf
  | _ => false

/-- Only module data and a compressed second string make an opcode fail. -/
theorem format.Meta.fails_iff {m : Meta E} (hm : m.op ≠ .RDB_MODULE_AUX) :
    m.fails = none ↔ m.aux_lzf = false := by
  cases m with
  | module_aux data => exact absurd rfl hm
  | aux var val =>
    rw [Meta.fails, Meta.aux_lzf]
    cases val.is_lzf with
    | true => simp
    | false => simp
  | _ => exact ⟨fun _ => rfl, fun _ => rfl⟩

/-- Opcodes of which one fails end with its code. -/
theorem format.Meta.sent_some {ms : List (Meta E)} (h : ¬ ∀ m ∈ ms, m.fails = none) :
    ∃ e, (Meta.sent ms).2 = some e := by
  cases hsent : (Meta.sent ms).2 with
  | none => exact absurd (Meta.sent_none hsent).1 h
  | some e => exact ⟨e, rfl⟩

/-- `decode_hdr` hands out what lies before a record, in order and as it is stored, and then reports
the record: its type, its key and the header of its value. -/
def format.Record.Reported (r : Record E V) (s : St) : Prop :=
  ∃ t o, decode_hdr E s = ⟨.ok (), t, o⟩ ∧
    o.map Event.sent = (r.metas.flatMap Meta.calls).map (.data_out, ·) ++
      [(.data_out, .d_start_type (Encoding.type r.value))] ∧
    t.dec.type = Encoding.type r.value ∧ t.dec.key.val = r.key.val ∧
    t.dec.rlen = RdbLength.ofHeader (Encoding.head r.value).hdr

/-- In front of a record, `decode_hdr` reports it if and only if no opcode fails. -/
theorem format.Record.reported_iff (r : Record E V) {s : St} {c : Place} {rest : List UInt8}
    (hs : s.AtRecord E filter .data_out c) (hv : c.Views (r.front ++ rest)) :
    r.Reported s ↔ ∀ m ∈ r.metas, m.fails = none := by
  obtain ⟨t, hrun, hready, -, hon⟩ := hs
  rw [Record.Reported, hrun]
  constructor
  · rintro ⟨u, o, hu, -⟩
    by_contra hbad
    obtain ⟨e, he⟩ := Meta.sent_some hbad
    rw [Record.front, List.append_assoc] at hv
    obtain ⟨u', o', hfails, -⟩ := decode_hdr_fails hready hon hv he
    rw [hu] at hfails
    cases hfails
  · intro hgood
    obtain ⟨k, b, o, hhdr, ho, hk, -⟩ := decode_hdr_record r hready hon hv hgood
    refine ⟨_, _, hhdr, ?_, rfl, hk.val, rfl⟩
    rw [List.map_append, ho]
    rfl

/-- The bytes of a file up to its first record and what is decompressed of it, and the rest. -/
def format.Record.file (ver : Nat) (r : Record E V) (rest : List UInt8) : List UInt8 :=
  header ver ++ (r.front ++ rest)

/-- The AUX fields of a file are handed out and its first record is reported if and only if the second string of
none of them is compressed; the first may be. There may be any number of them and of the other opcodes, but for
module data, which is not supported. -/
theorem decode_hdr_aux_iff (r : Record E V) {ver : Nat} (hver : 0 < ver ∧ ver < 100)
    (hmodule : ∀ m ∈ r.metas, m.op ≠ .RDB_MODULE_AUX) (filter : Option (RdbVal → Bool))
    (rest : List UInt8) (past : Mem) :
    r.Reported (St.map filter (r.file ver rest) past) ↔
      ∀ var val, Meta.aux var val ∈ r.metas → val.is_lzf = false := by
  have hv : Place.Views ⟨⟨.input, Mem.ofList (r.file ver rest) past, 0⟩, (r.file ver rest).length, 0, 0⟩
      (header ver ++ (r.front ++ rest)) := Place.ofList_views .input (r.file ver rest) past
  have hat := St.start_atRecord (E := E) filter _ hver (by simp [Record.front]) hv
  rw [St.map, r.reported_iff hat hv.adv]
  constructor
  · intro hgood var val hm
    exact (Meta.fails_iff (hmodule _ hm)).mp (hgood _ hm)
  · intro hraw m hm
    apply (Meta.fails_iff (hmodule m hm)).mpr
    cases m with
    | aux var val => exact hraw var val hm
    | _ => rfl

/-- An AUX field "a" with the compressed value "b", and the string "v" under the key "k". -/
def format.Record.aux_compressed : Record Env.literal (Value Env.literal) where
  metas := [.aux (.letter 0x61) (.literal 0x62)]
  key := .letter 0x6b
  value := .string (.letter 0x76)

theorem decode_hdr_aux_compressed :
    Record.aux_compressed.Reported (St.map none (Record.aux_compressed.file 9 [0x76, 0xff]) 0) ↔
      ∀ var val, Meta.aux var val ∈ Record.aux_compressed.metas → val.is_lzf = false :=
  decode_hdr_aux_iff Record.aux_compressed (by decide) (by decide) none [0x76, 0xff] 0

/-- Storing an AUX string compressed does change the result. -/
theorem aux_compressed_not_reported : ¬ ∀ (E : Env) (r : Record E (Value E)) (ver : Nat),
    0 < ver ∧ ver < 100 → (∀ m ∈ r.metas, m.op = .RDB_AUX) →
      ∀ rest past, r.Reported (St.map none (r.file ver rest) past) := by
  intro h
  obtain ⟨t, o, hrun, -⟩ := h _ Record.aux_compressed 9 (by decide) (by decide) [0x76, 0xff] 0
  have herr : (decode_hdr Env.literal
      (St.map none (Record.aux_compressed.file 9 [0x76, 0xff]) 0)).res = .error .RDB_ERR_TRUNC := by
    decide +kernel
  rw [hrun] at herr
  cases herr

end rdbparser
