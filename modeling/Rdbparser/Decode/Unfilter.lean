import Rdbparser.Decode.Closed
import Rdbparser.Main
import Rdbparser.Proc.Commutes

/-! The filter of a decoder changes the outputs of the callbacks, and nothing else. -/

namespace rdbparser

open RdbDecode

/-- The call on the real output. -/
def Event.unfilter (e : Event) : Event := { e with dest := .data_out }

/-- A computation that does without a filter what it does with one. -/
abbrev Unfilters {α : Type} (x : DecodeProc α) : Prop := x.Commutes St.unfilter Event.unfilter

namespace Unfilters

variable {E : Env}

theorem incr (n : Nat) : Unfilters (DecodeProc.incr n) := by
  intro s
  cases h : s.bptr.incr n with
  | none => simp [DecodeProc.incr, St.unfilter, h]
  | some r => simp [DecodeProc.incr, St.unfilter, h]

theorem decode (l : RdbLength) : Unfilters (DecodeProc.decode l) := by
  intro s
  obtain ⟨err, l', b, h⟩ : ∃ err l' b, l.decode s.bptr = (err, l', b) := ⟨_, _, _, rfl⟩
  cases err <;> simp [DecodeProc.decode, St.unfilter, h]

theorem consume (l : RdbLength) : Unfilters (DecodeProc.consume E l) := fun _ => rfl

theorem decompress (l : RdbLength) : Unfilters (DecodeProc.decompress E l) := by
  intro s
  rcases h : s.bptr.decompress E l.zlen l.len with _ | ⟨ok, b⟩
  · simp [DecodeProc.decompress, St.unfilter, h]
  · cases ok <;> simp [DecodeProc.decompress, St.unfilter, h]

theorem call (c : Callback) : Unfilters (DecodeProc.call c) := by
  apply Proc.Commutes.emit
  intro s
  cases h : s.dec.out with
  | none => simp [St.unfilter, h]
  | some d => simp [St.unfilter, Event.unfilter, h]

theorem decode_hdr_len : Unfilters DecodeProc.decode_hdr_len := by
  intro s
  obtain ⟨err, l, b, h⟩ : ∃ err l b, ({} : RdbLength).decode s.bptr = (err, l, b) := ⟨_, _, _, rfl⟩
  cases err <;> simp [DecodeProc.decode_hdr_len, St.unfilter, h]

/-- All ways of composing computations keep this. -/
theorem closed : DecodeClosed E (fun _ => True) Unfilters where
  toClosed := Proc.Commutes.closed _ _
  incr := incr
  decode := decode
  consume := consume
  decompress := decompress
  call := call
  start_type _ := Proc.Commutes.emit fun _ => rfl
  decode_hdr_len := decode_hdr_len

/-- One turn of the key loop does without the filter what it does with it. -/
theorem next_key : Unfilters (next_key E) := by
  have hname : Unfilters (stream_name E) :=
    (closed (E := E)).recode (fun _ _ => trivial) closed.stream_text
  have hstream : Unfilters (decode_stream E) :=
    Proc.Commutes.accept _ (closed.stream_scope (fun _ _ => trivial) hname)
  have hbody : Unfilters (decode_body E) := closed.decode_body (fun _ _ => trivial) hstream
  have hhdr : Unfilters (decode_hdr E) := closed.decode_hdr fun _ _ => trivial
  exact .bind hhdr fun _ => .bind hbody fun _ => .bind (fun _ => rfl) fun _ _ => rfl

end Unfilters

/-- The run with all callbacks on the real output. -/
def MainRun.unfilter (r : MainRun) : MainRun :=
  ⟨r.keys.map fun k => (k.1.map Event.unfilter, k.2.unfilter), r.last.map Event.unfilter, r.success⟩

theorem MainRun.unfilter_events (r : MainRun) : r.unfilter.events = r.events.map Event.unfilter := by
  simp [MainRun.events, MainRun.unfilter, List.flatMap_map, List.map_flatMap]

/-- The key loop does the same without the filter, call by call and buffer by buffer, on any input and from any state.
-/
theorem main_loop_unfilter (E : Env) (fuel : Nat) (s : St) (i : Input) :
    main_loop E fuel s.unfilter i = (main_loop E fuel s i).map MainRun.unfilter := by
  induction fuel generalizing s i with
  | zero => rfl
  | succ fuel ih =>
    obtain ⟨res, t, o, hkey⟩ : ∃ res t o, next_key E s = ⟨res, t, o⟩ := ⟨_, _, _, rfl⟩
    have hkey' := Unfilters.next_key.run hkey
    rw [main_loop, main_loop, hkey, hkey']
    cases res with
    | error e => rfl
    | ok a =>
      obtain ⟨j, b, hrefill⟩ : ∃ j b, i.refill t.bptr = (j, b) := ⟨_, _, rfl⟩
      have hrefill' : i.refill t.unfilter.bptr = (j, b) := hrefill
      simp only [hrefill, hrefill']
      split
      · rfl
      · have hrest := ih { t with bptr := b } j
        have hsame : ({ t with bptr := b } : St).unfilter = { t.unfilter with bptr := b } := rfl
        rw [hsame] at hrest
        rw [hrest, Option.map_map, Option.map_map]
        rfl

end rdbparser
