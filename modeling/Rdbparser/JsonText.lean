import Rdbparser.JsonString

/-! JSON texts, and what has been written of one so far. -/

namespace JsonText

open JsonString

/-- A value; a number is kept as its text, a string as what stands between its quotes. -/
inductive Json
  | num (text : List UInt8)
  | str (chars : List UInt8)
  | arr (elems : List Json)
  | obj (members : List (List UInt8 × Json))

def Space (t : List UInt8) : Prop := ∀ b ∈ t, b ∈ [0x20, 0x09, 0x0a, 0x0d]

instance (t : List UInt8) : Decidable (Space t) := List.decidableBAll _ t

def Digits (t : List UInt8) : Prop := t ≠ [] ∧ ∀ b ∈ t, 0x30 ≤ b ∧ b ≤ 0x39

/-- Digits that do not start with a zero, unless it is the only one. -/
def Natural (t : List UInt8) : Prop := Digits t ∧ (t.head? = some 0x30 → t = [0x30])

/-- The digits behind a point, or nothing. -/
def Fraction (t : List UInt8) : Prop := t = [] ∨ ∃ ds, Digits ds ∧ t = 0x2e :: ds

/-- A letter e, a sign that may be missing and digits, or nothing. -/
def Exponent (t : List UInt8) : Prop :=
  t = [] ∨ ∃ e sign ds, (e = 0x65 ∨ e = 0x45) ∧ (sign = [] ∨ sign = [0x2b] ∨ sign = [0x2d]) ∧ Digits ds ∧
    t = e :: (sign ++ ds)

def Number (t : List UInt8) : Prop :=
  ∃ sign whole frac exp, (sign = [] ∨ sign = [0x2d]) ∧ Natural whole ∧ Fraction frac ∧ Exponent exp ∧
    t = sign ++ (whole ++ (frac ++ exp))

/-- A string between its quotes. -/
def quoted (s : List UInt8) : List UInt8 := 0x22 :: (s ++ [0x22])

/-- What stands between the members of a list and the next one. -/
def Sep {α : Type} (xs : List α) (t : List UInt8) : Prop :=
  xs = [] ∧ t = [] ∨ xs ≠ [] ∧ ∃ a, Space a ∧ t = 0x2c :: a

mutual

/-- The text of a value. -/
inductive Text : Json → List UInt8 → Prop
  | num {t} (h : Number t) : Text (.num t) t
  | str {s} (h : chars s = true) : Text (.str s) (quoted s)
  | arr {xs t} (h : Elems xs t) : Text (.arr xs) (0x5b :: (t ++ [0x5d]))
  | obj {ms t} (h : Members ms t) : Text (.obj ms) (0x7b :: (t ++ [0x7d]))

/-- What stands in an array. -/
inductive Elems : List Json → List UInt8 → Prop
  | nil {a} (h : Space a) : Elems [] a
  | snoc {xs t sep v u b} (h : Elems xs t) (hsep : Sep xs sep) (hv : Text v u) (hb : Space b) :
    Elems (xs ++ [v]) (t ++ (sep ++ (u ++ b)))

/-- What stands in an object. -/
inductive Members : List (List UInt8 × Json) → List UInt8 → Prop
  | nil {a} (h : Space a) : Members [] a
  | snoc {ms t sep n a b v u c} (h : Members ms t) (hsep : Sep ms sep) (hn : chars n = true) (ha : Space a)
    (hb : Space b) (hv : Text v u) (hc : Space c) :
    Members (ms ++ [(n, v)]) (t ++ (sep ++ (quoted n ++ (a ++ 0x3a :: (b ++ (u ++ c))))))

end

/-- A text that is one value, with space around it. -/
def Whole (v : Json) (t : List UInt8) : Prop := ∃ a u b, Space a ∧ Text v u ∧ Space b ∧ t = a ++ (u ++ b)

section Lexical

variable {s t : List UInt8}

theorem Space.nil : Space [] := fun _ h => absurd h List.not_mem_nil

theorem Space.append (hs : Space s) (ht : Space t) : Space (s ++ t) := by
  intro b hb
  rcases List.mem_append.mp hb with h | h
  · exact hs b h
  · exact ht b h

theorem Number.of_natural (h : Natural t) : Number t :=
  ⟨[], t, [], [], .inl rfl, h, .inl rfl, .inl rfl, by rw [List.nil_append, List.append_nil, List.append_nil]⟩

theorem Number.of_negative (h : Natural t) : Number (0x2d :: t) :=
  ⟨[0x2d], t, [], [], .inr rfl, h, .inl rfl, .inl rfl, by rw [List.append_nil, List.append_nil]; rfl⟩

/-- Space may follow what stands in an array. -/
theorem Elems.space {xs : List Json} (h : Elems xs s) (ht : Space t) : Elems xs (s ++ t) := by
  cases h with
  | nil ha => exact .nil (ha.append ht)
  | snoc h hsep hv hb =>
    simp only [List.append_assoc]
    exact .snoc h hsep hv (hb.append ht)

theorem Members.space {ms : List (List UInt8 × Json)} (h : Members ms s) (ht : Space t) : Members ms (s ++ t) := by
  cases h with
  | nil ha => exact .nil (ha.append ht)
  | snoc h hsep hn ha hb hv hc =>
    simp only [List.append_assoc, List.cons_append]
    exact .snoc h hsep hn ha hb hv (hc.append ht)

end Lexical

/-- A container that is not closed yet and waits for the value of its next member. -/
inductive Frame
  | arr (xs : List Json)
  | obj (ms : List (List UInt8 × Json)) (name : List UInt8)

/-- A text that goes on with a value, in the containers that are open, the innermost one first. -/
def Waiting : List Frame → List UInt8 → Prop
  | [], t => Space t
  | .arr xs :: fs, t => ∃ s u sep, Waiting fs s ∧ Elems xs u ∧ Sep xs sep ∧ t = s ++ 0x5b :: (u ++ sep)
  | .obj ms n :: fs, t => ∃ s u sep a b, Waiting fs s ∧ Members ms u ∧ Sep ms sep ∧ chars n = true ∧ Space a ∧ Space b ∧
      t = s ++ 0x7b :: (u ++ (sep ++ (quoted n ++ (a ++ 0x3a :: b))))

/-- A text in an array that has these elements so far. -/
def InArr (fs : List Frame) (xs : List Json) (t : List UInt8) : Prop :=
  ∃ s u, Waiting fs s ∧ Elems xs u ∧ t = s ++ 0x5b :: u

/-- A text in an object that has these members so far. -/
def InObj (fs : List Frame) (ms : List (List UInt8 × Json)) (t : List UInt8) : Prop :=
  ∃ s u, Waiting fs s ∧ Members ms u ∧ t = s ++ 0x7b :: u

variable {fs : List Frame} {xs ys : List Json} {ms ns : List (List UInt8 × Json)} {v : Json}
  {t u n a b c sep : List UInt8}

theorem Waiting.open_arr (h : Waiting fs t) (ha : Space a) : InArr fs [] (t ++ 0x5b :: a) := ⟨t, a, h, .nil ha, rfl⟩

theorem Waiting.open_obj (h : Waiting fs t) (ha : Space a) : InObj fs [] (t ++ 0x7b :: a) := ⟨t, a, h, .nil ha, rfl⟩

namespace InArr

theorem space (h : InArr fs xs t) (ha : Space a) : InArr fs xs (t ++ a) := by
  obtain ⟨s, w, hs, hw, rfl⟩ := h
  exact ⟨s, w ++ a, hs, hw.space ha, by rw [List.append_assoc, List.cons_append]⟩

theorem elem (h : InArr fs xs t) (hsep : Sep xs sep) (hv : Text v u) : InArr fs (xs ++ [v]) (t ++ (sep ++ u)) := by
  obtain ⟨s, w, hs, hw, rfl⟩ := h
  refine ⟨s, w ++ (sep ++ (u ++ [])), hs, hw.snoc hsep hv .nil, ?_⟩
  rw [List.append_nil, List.append_assoc, List.cons_append]

theorem next (h : InArr fs xs t) (hsep : Sep xs sep) : Waiting (.arr xs :: fs) (t ++ sep) := by
  obtain ⟨s, w, hs, hw, rfl⟩ := h
  exact ⟨s, w, sep, hs, hw, hsep, by rw [List.append_assoc, List.cons_append]⟩

/-- An array in an object. -/
theorem close_member (h : InArr (.obj ms n :: fs) ys t) : InObj fs (ms ++ [(n, .arr ys)]) (t ++ [0x5d]) := by
  obtain ⟨_, w, ⟨s, u, sep, a, b, hs, hu, hsep, hn, ha, hb, rfl⟩, hw, rfl⟩ := h
  refine ⟨s, u ++ (sep ++ (quoted n ++ (a ++ 0x3a :: (b ++ (0x5b :: (w ++ [0x5d]) ++ []))))), hs,
    hu.snoc hsep hn ha hb (.arr hw) .nil, ?_⟩
  simp only [List.append_assoc, List.cons_append, List.append_nil]

end InArr

namespace InObj

theorem space (h : InObj fs ms t) (ha : Space a) : InObj fs ms (t ++ a) := by
  obtain ⟨s, w, hs, hw, rfl⟩ := h
  exact ⟨s, w ++ a, hs, hw.space ha, by rw [List.append_assoc, List.cons_append]⟩

theorem member (h : InObj fs ms t) (hsep : Sep ms sep) (hn : chars n = true) (ha : Space a) (hb : Space b)
    (hv : Text v u) : InObj fs (ms ++ [(n, v)]) (t ++ (sep ++ (quoted n ++ (a ++ 0x3a :: (b ++ u))))) := by
  obtain ⟨s, w, hs, hw, rfl⟩ := h
  refine ⟨s, w ++ (sep ++ (quoted n ++ (a ++ 0x3a :: (b ++ (u ++ []))))), hs, hw.snoc hsep hn ha hb hv .nil, ?_⟩
  rw [List.append_nil, List.append_assoc, List.cons_append]

theorem next (h : InObj fs ms t) (hsep : Sep ms sep) (hn : chars n = true) (ha : Space a) (hb : Space b) :
    Waiting (.obj ms n :: fs) (t ++ (sep ++ (quoted n ++ (a ++ 0x3a :: b)))) := by
  obtain ⟨s, w, hs, hw, rfl⟩ := h
  exact ⟨s, w, sep, a, b, hs, hw, hsep, hn, ha, hb, by rw [List.append_assoc, List.cons_append]⟩

/-- An object in an array. -/
theorem close_elem (h : InObj (.arr xs :: fs) ns t) : InArr fs (xs ++ [.obj ns]) (t ++ [0x7d]) := by
  obtain ⟨_, w, ⟨s, u, sep, hs, hu, hsep, rfl⟩, hw, rfl⟩ := h
  refine ⟨s, u ++ (sep ++ (0x7b :: (w ++ [0x7d]) ++ [])), hs, hu.snoc hsep (.obj hw) .nil, ?_⟩
  simp only [List.append_assoc, List.cons_append, List.append_nil]

/-- An object in an object. -/
theorem close_member (h : InObj (.obj ms n :: fs) ns t) : InObj fs (ms ++ [(n, .obj ns)]) (t ++ [0x7d]) := by
  obtain ⟨_, w, ⟨s, u, sep, a, b, hs, hu, hsep, hn, ha, hb, rfl⟩, hw, rfl⟩ := h
  refine ⟨s, u ++ (sep ++ (quoted n ++ (a ++ 0x3a :: (b ++ (0x7b :: (w ++ [0x7d]) ++ []))))), hs,
    hu.snoc hsep hn ha hb (.obj hw) .nil, ?_⟩
  simp only [List.append_assoc, List.cons_append, List.append_nil]

/-- The object is all there is. -/
theorem close (h : InObj [] ns t) (ha : Space a) : Whole (.obj ns) (t ++ 0x7d :: a) := by
  obtain ⟨s, w, hs, hw, rfl⟩ := h
  refine ⟨s, 0x7b :: (w ++ [0x7d]), a, hs, .obj hw, ha, ?_⟩
  simp only [List.append_assoc, List.cons_append, List.nil_append]

end InObj

/-- A value where one is waited for: the value of a member. -/
theorem Waiting.value (h : Waiting (.obj ms n :: fs) t) (hv : Text v u) : InObj fs (ms ++ [(n, v)]) (t ++ u) := by
  obtain ⟨s, w, sep, a, b, hs, hw, hsep, hn, ha, hb, rfl⟩ := h
  refine ⟨s, w ++ (sep ++ (quoted n ++ (a ++ 0x3a :: (b ++ (u ++ []))))), hs, hw.snoc hsep hn ha hb hv .nil, ?_⟩
  simp only [List.append_assoc, List.cons_append, List.append_nil]

/-- A place in a text that is being written: one where a value is due, or one in a container; `fs` are the containers
around it. -/
inductive Pos
  | due (fs : List Frame)
  | arr (fs : List Frame) (xs : List Json)
  | obj (fs : List Frame) (ms : List (List UInt8 × Json))

namespace Pos

/-- The text has come to this place. -/
def Spells : Pos → List UInt8 → Prop
  | due fs => Waiting fs
  | arr fs xs => InArr fs xs
  | obj fs ms => InObj fs ms

/-- One more element. -/
def elem (v : Json) : Pos → Option Pos
  | arr fs xs => some (arr fs (xs ++ [v]))
  | _ => none

/-- The next element is not written yet. -/
def next_elem : Pos → Option Pos
  | arr fs xs => some (due (.arr xs :: fs))
  | _ => none

/-- One more member. -/
def member (n : List UInt8) (v : Json) : Pos → Option Pos
  | obj fs ms => some (obj fs (ms ++ [(n, v)]))
  | _ => none

/-- The name of the next member, without its value. -/
def next_member (n : List UInt8) : Pos → Option Pos
  | obj fs ms => some (due (.obj ms n :: fs))
  | _ => none

/-- The value that is due. -/
def value (v : Json) : Pos → Option Pos
  | due (.arr xs :: fs) => some (arr fs (xs ++ [v]))
  | due (.obj ms n :: fs) => some (obj fs (ms ++ [(n, v)]))
  | _ => none

def open_arr : Pos → Option Pos
  | due fs => some (arr fs [])
  | _ => none

def open_obj : Pos → Option Pos
  | due fs => some (obj fs [])
  | _ => none

/-- The end of the innermost container. -/
def close : Pos → Option Pos
  | arr fs xs => value (.arr xs) (due fs)
  | obj fs ms => value (.obj ms) (due fs)
  | due _ => none

end Pos

end JsonText
