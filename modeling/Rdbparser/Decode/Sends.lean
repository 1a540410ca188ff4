import Rdbparser.Decode.Steps

namespace rdbparser

/-- What goes out is callbacks of the kind `C` on the current output, and the decoder is not changed. -/
def Sends (C : Callback → Bool) (s : St) (o : List Event) (t : St) : Prop :=
  t.dec = s.dec ∧ ∀ e ∈ o, s.dec.out = some e.dest ∧ C e.call = true

namespace Sends

variable {C : Callback → Bool} {α : Type} {E : Env}

/-- Sending to the one output is kept by sequences. -/
theorem chains : Proc.Chains (Sends C) where
  refl s := ⟨rfl, by simp⟩
  trans := by
    rintro s o t o' u ⟨hdec, ho⟩ ⟨hdec', ho'⟩
    refine ⟨hdec'.trans hdec, fun e he => ?_⟩
    rcases List.mem_append.mp he with he | he
    · exact ho e he
    · exact hdec ▸ ho' e he

/-- A step on the buffer. -/
theorem of_bptr {x : DecodeProc α} (h : ∀ s, ∃ b, (x s).st = { s with bptr := b } ∧ (x s).out = []) :
    x.Follows (Sends C) := by
  intro s
  obtain ⟨b, hst, hout⟩ := h s
  rw [hst, hout]
  exact ⟨rfl, by simp⟩

theorem incr (n : Nat) : (DecodeProc.incr n).Follows (Sends C) := by
  refine of_bptr fun s => ?_
  unfold DecodeProc.incr
  split
  · exact ⟨_, rfl, rfl⟩
  · exact ⟨s.bptr, rfl, rfl⟩

theorem skip (n : Nat) : (DecodeProc.skip n).Follows (Sends C) := by
  refine of_bptr fun s => ?_
  rw [DecodeProc.skip, Proc.update_run]
  split
  · exact ⟨_, rfl, rfl⟩
  · exact ⟨s.bptr, rfl, rfl⟩

theorem decode (l : RdbLength) : (DecodeProc.decode l).Follows (Sends C) := by
  refine of_bptr fun s => ?_
  unfold DecodeProc.decode
  split <;> exact ⟨_, rfl, rfl⟩

theorem consume (l : RdbLength) : (DecodeProc.consume E l).Follows (Sends C) :=
  of_bptr fun _ => ⟨_, rfl, rfl⟩

theorem decompress (l : RdbLength) : (DecodeProc.decompress E l).Follows (Sends C) := by
  refine of_bptr fun s => ?_
  unfold DecodeProc.decompress
  split <;> exact ⟨_, rfl, rfl⟩

/-- A call is sent to the output that is chosen, and nowhere if there is none. -/
theorem call {c : Callback} (hc : C c = true) : (DecodeProc.call c).Follows (Sends C) := by
  intro s
  rw [DecodeProc.call, Proc.emit_run]
  refine ⟨rfl, fun e he => ?_⟩
  cases hout : s.dec.out with
  | none => simp [hout] at he
  | some d =>
    rw [hout] at he
    obtain rfl := List.mem_singleton.mp he
    exact ⟨rfl, hc⟩

theorem buf : BufSteps C (Sends C) := ⟨chains, incr, skip, decode, call⟩

theorem steps : DecodeSteps E C (Sends C) := ⟨⟨buf, consume⟩, decompress⟩

/-- What holds of all that sends callbacks holds of the steps. -/
theorem steps_of {T : St → List Event → St → Prop} (hT : Proc.Chains T)
    (h : ∀ {s o t}, Sends C s o t → T s o t) : DecodeSteps E C T where
  chains := hT
  incr n s := h (incr n s)
  skip n s := h (skip n s)
  decode l s := h (decode l s)
  call hc s := h (call hc s)
  consume l s := h (consume l s)
  decompress l s := h (decompress l s)

end Sends

end rdbparser
