import Rdbparser.Decode.Unfilter
import Rdbparser.Main.Redirect

namespace rdbparser

open format RdbDecode DecodeProc

/-- The outputs that the calls have gone to do not matter. -/
theorem redirect_unfilter {v : RdbVal → Dest} {d : Dest} (es : List Event) :
    redirect v d (es.map Event.unfilter) = redirect v d es := by
  induction es generalizing d with
  | nil => rfl
  | cons e es ih =>
    rw [List.map_cons, redirect, redirect]
    exact congrArg _ ih

theorem Input.run_unfilter (E : Env) (filter : Option (RdbVal → Bool)) (i : Input) (fuel : Nat) :
    i.run E none fuel = (i.run E filter fuel).map MainRun.unfilter :=
  main_loop_unfilter E fuel (St.start filter ⟨.input, i.mem, 0⟩ i.off) i

/-- The run with a filter, when there is one without. -/
theorem Input.Delivers.filtered {E : Env} {i : Input} {r₀ : MainRun} (h : i.Delivers E none r₀)
    (filter : Option (RdbVal → Bool)) :
    ∃ r, i.Delivers E filter r ∧ r.unfilter = r₀ ∧ r.events = redirect (verdict filter) .data_out r₀.events := by
  obtain ⟨fuel, h₀⟩ := h
  rw [Input.run_unfilter E filter] at h₀
  obtain ⟨r, hr, rfl⟩ := Option.map_eq_some_iff.mp h₀
  refine ⟨r, ⟨fuel, hr⟩, rfl, ?_⟩
  rw [MainRun.unfilter_events, redirect_unfilter]
  exact (main_loop_redirects hr (.inr ⟨rfl, rfl, rfl⟩)).symm

/-- On any input, the loop ends with a filter if and only if it does without one, and then with the same
success, the same calls and the same bytes left; each call goes to the output that the verdict on its key
selects, and the opcodes before a key to the one of the key before. -/
theorem main_filter (E : Env) (filter : Option (RdbVal → Bool)) (i : Input) (r₀ : MainRun) :
    i.Delivers E none r₀ ↔ ∃ r, i.Delivers E filter r ∧ r.unfilter = r₀ ∧
      r.events = redirect (verdict filter) .data_out r₀.events := by
  constructor
  · intro h
    exact h.filtered filter
  · rintro ⟨r, ⟨fuel, hr⟩, rfl, -⟩
    exact ⟨fuel, by rw [Input.run_unfilter E filter, hr, Option.map_some]⟩

end rdbparser
