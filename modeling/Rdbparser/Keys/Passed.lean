import Rdbparser.Decode.Opcodes
import Rdbparser.Decode.Passable

/-! Which records of a file the key loop gets past. -/

namespace rdbparser

open format RdbDecode DecodeProc

variable {E : Env} {V : Type} [Encoding E V] {filter : Option (RdbVal → Bool)}

/-- No opcode in front of the record fails, and its value is one that is decoded. -/
def format.Record.Passed [Passable E V] (r : Record E V) : Prop :=
  (∀ m ∈ r.metas, m.fails = none) ∧ Passable.passable r.value

section

variable [Passable E V] {s : St} {c : Place} {prev : Dest} {rest : List UInt8}

/-- A key that is not passed ends with an error: `decode_hdr` does at an opcode that fails, or `decode_body` does. -/
theorem St.AtRecord.next_key_stops (h : s.AtRecord E filter prev c) (r : Record E V) (hv : c.Views (r.bytes ++ rest))
    (hnot : ¬ r.Passed) : ∃ e, (rdbparser.next_key E s).res = .error e := by
  rw [Record.bytes, List.append_assoc] at hv
  by_cases hgood : ∀ m ∈ r.metas, m.fails = none
  · have hvalue : ¬ Passable.passable r.value := fun hpass => hnot ⟨hgood, hpass⟩
    obtain ⟨t, hrun, hready, -, hon⟩ := h
    obtain ⟨k, b, o, hhdr, -, -, hopen⟩ := decode_hdr_record r hready hon hv hgood
    obtain ⟨e, hbody⟩ := Passable.refused hvalue
      (s := ⟨{ t.dec with type := Encoding.type r.value, key := k,
                          rlen := RdbLength.ofHeader (Encoding.head r.value).hdr }, b⟩) rfl rfl hopen hv.adv
    refine ⟨e, ?_⟩
    rw [rdbparser.next_key, Proc.bind_res (hrun.trans hhdr)]
    exact Proc.bind_res_error hbody
  · obtain ⟨e, hbad⟩ := Meta.sent_some hgood
    rw [Record.front, List.append_assoc] at hv
    obtain ⟨u, o, hkey, -⟩ := h.fails hv hbad
    exact ⟨e, by rw [hkey]⟩

/-- The key loop gets to the end of some records only if it gets past each of them. -/
theorem St.AtRecord.next_keys_passed (records : List (Record E V)) {t : St} {o : List Event}
    (h : s.AtRecord E filter prev c) (hv : c.Views (records.flatMap Record.bytes ++ rest)) (hrest : rest ≠ []) {i : Nat}
    (hrun : Proc.count (fun _ => rdbparser.next_key E) i records.length s = ⟨.ok (), t, o⟩) :
    ∀ r ∈ records, r.Passed := by
  induction records generalizing s c prev i o with
  | nil => exact fun r hr => absurd hr List.not_mem_nil
  | cons r rs ih =>
    rw [List.flatMap_cons, List.append_assoc] at hv
    obtain ⟨⟨⟩, u, o₁, o₂, hkey, hkeys, -⟩ := Proc.bind_ok_run hrun
    have hkey : rdbparser.next_key E s = ⟨.ok (), u, o₁⟩ := hkey
    have hpassed : r.Passed := by
      by_contra hnot
      obtain ⟨e, herr⟩ := h.next_key_stops r hv hnot
      rw [hkey] at herr
      cases herr
    obtain ⟨u', o', hkey', hdone⟩ := h.next_key r (Passable.decoded hpassed.2) hv (by simp [hrest]) hpassed.1
    obtain ⟨-, rfl, -⟩ := Run.mk.inj (hkey.symm.trans hkey')
    exact List.forall_mem_cons.mpr ⟨hpassed, ih hdone.atRecord hv.adv hkeys⟩

end

end rdbparser
