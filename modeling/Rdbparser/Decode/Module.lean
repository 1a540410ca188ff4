import Rdbparser.Decode.Lists

/-! The text of a module id. -/

namespace rdbparser

namespace RdbDecode

/-- The nine characters of a module id, from the highest bits on. -/
def module_chars (m : Nat) : List UInt8 := (List.range 9).map fun i => char_set.getD (m / 2 ^ (58 - 6 * i) % 64) 0

/-- A module id as text: its characters and its version. -/
def module_text (m : Nat) : List UInt8 := module_chars m ++ 0x2e :: decimal (m % 1024)

/-- What there is of a version in as many bytes as its text has. -/
def version_stored (v : Nat) : List UInt8 := ((0x2e :: decimal v).take 4 ++ [0]).take (0x2e :: decimal v).length

/-- The name of a module is nine letters of six bits, and the version from the ten bits below. -/
theorem module_name_eq (m : Nat) : module_name m = module_chars m ++ version_stored (m % 1024) := by
  have hlow : m &&& 1023 = m % 1024 := Nat.and_two_pow_sub_one_eq_mod m 10
  have hchars : ([9, 8, 7, 6, 5, 4, 3, 2, 1].map fun i => char_set.getD ((m >>> (i * 6 + 4)) &&& 63) 0) =
      module_chars m := by
    have hgroup : ∀ k, (m >>> k) &&& 63 = m / 2 ^ k % 64 := fun k => by
      rw [Nat.and_two_pow_sub_one_eq_mod _ 6, Nat.shiftRight_eq_div_pow]
    simp only [hgroup]
    rfl
  rw [module_name, hlow, hchars]
  rfl

theorem char_set_inj {a b : Nat} (ha : a < 64) (hb : b < 64) (h : char_set.getD a 0 = char_set.getD b 0) : a = b := by
  have hindex : ∀ a < 64, char_set.idxOf (char_set.getD a 0) = a := by decide +kernel
  rw [← hindex a ha, h, hindex b hb]

/-- The characters are those of all bits but the lowest ten. -/
theorem module_chars_inj {m m' : Nat} (hm : m < 2 ^ 64) (hm' : m' < 2 ^ 64) :
    module_chars m = module_chars m' ↔ m / 1024 = m' / 1024 := by
  constructor
  · intro h
    have hgroup : ∀ i < 9, m / 2 ^ (58 - 6 * i) % 64 = m' / 2 ^ (58 - 6 * i) % 64 := fun i hi =>
      char_set_inj (Nat.mod_lt _ (by decide)) (Nat.mod_lt _ (by decide))
        (List.map_inj_left.mp h i (List.mem_range.mpr hi))
    -- the bits from a character on, from the highest one down
    have hbits : ∀ i ≤ 9, m / 2 ^ (64 - 6 * i) = m' / 2 ^ (64 - 6 * i) := by
      intro i hi
      induction i with
      | zero => rw [Nat.div_eq_of_lt hm, Nat.div_eq_of_lt hm']
      | succ i ih =>
        have hpow : 2 ^ (58 - 6 * i) * 64 = 2 ^ (64 - 6 * i) := by
          rw [show 64 - 6 * i = 58 - 6 * i + 6 by omega, Nat.pow_add]
        have hrest := ih (by omega)
        rw [← hpow, ← Nat.div_div_eq_div_mul, ← Nat.div_div_eq_div_mul] at hrest
        have hdigit := hgroup i (by omega)
        rw [show 64 - 6 * (i + 1) = 58 - 6 * i by omega]
        omega
    exact hbits 9 (Nat.le_refl 9)
  · intro h
    refine List.map_congr_left fun i hi => ?_
    have hlt := List.mem_range.mp hi
    have hsplit : ∀ m : Nat, m / 2 ^ (58 - 6 * i) = m / 1024 / 2 ^ (48 - 6 * i) := fun m => by
      rw [Nat.div_div_eq_div_mul, show 1024 = 2 ^ 10 from rfl, ← Nat.pow_add,
        show 10 + (48 - 6 * i) = 58 - 6 * i by omega]
    rw [hsplit m, hsplit m', h]

/-- A version of up to three digits is stored whole. -/
theorem version_stored_short {v : Nat} (h : v < 1000) : version_stored v = 0x2e :: decimal v := by
  have hlen : (decimal v).length ≤ 3 := (decimal_le_iff (by decide)).mpr h
  have hall : (0x2e :: decimal v).take 4 = 0x2e :: decimal v := List.take_of_length_le (by
    rw [List.length_cons]
    omega)
  rw [version_stored, hall, List.take_left]

/-- Of four digits the last is a zero byte. -/
theorem version_stored_long {v : Nat} (hlo : 1000 ≤ v) (hhi : v < 1024) :
    version_stored v = [0x2e, 0x31, 0x30, UInt8.ofNat (0x30 + v / 10 % 10), 0] := by
  have hall : ∀ i < 24, version_stored (1000 + i) =
      [0x2e, 0x31, 0x30, UInt8.ofNat (0x30 + (1000 + i) / 10 % 10), 0] := by
    decide +kernel
  have h := hall (v - 1000) (by omega)
  rwa [Nat.add_sub_cancel' hlo] at h

/-- A version of four digits ends in a zero byte instead of the last of them, as no text of a version does. -/
theorem version_stored_zero {v v' : Nat} (hlo : 1000 ≤ v') (hhi : v' < 1024) :
    version_stored v' ≠ 0x2e :: decimal v := by
  rw [version_stored_long hlo hhi]
  intro heq
  have hdigit := decimal_digit (n := v) (b := 0) (by
    rw [← (List.cons.inj heq).2]
    simp)
  exact absurd hdigit.1 (by decide)

/-- A version is stored whole unless it has four digits, -/
theorem version_stored_iff {v : Nat} (hv : v < 1024) : version_stored v = 0x2e :: decimal v ↔ v < 1000 := by
  constructor
  · intro h
    by_contra hlong
    exact version_stored_zero (Nat.le_of_not_lt hlong) hv h
  · exact version_stored_short

/-- and it can be told from others unless the last of them is what they differ in. -/
theorem version_stored_inj {v v' : Nat} (hv : v < 1024) (hv' : v' < 1024) :
    version_stored v = version_stored v' ↔ v = v' ∨ 1000 ≤ v ∧ 1000 ≤ v' ∧ v / 10 = v' / 10 := by
  by_cases hshort : v < 1000
  · rw [version_stored_short hshort]
    by_cases hshort' : v' < 1000
    · rw [version_stored_short hshort']
      constructor
      · intro h
        exact .inl (decimal_inj (List.cons.inj h).2)
      · rintro (rfl | ⟨hlo, -⟩)
        · rfl
        · omega
    · refine iff_of_false (fun h => version_stored_zero (Nat.le_of_not_lt hshort') hv' h.symm) ?_
      omega
  · by_cases hshort' : v' < 1000
    · rw [version_stored_short hshort']
      refine iff_of_false (version_stored_zero (Nat.le_of_not_lt hshort) hv) ?_
      omega
    · rw [version_stored_long (Nat.le_of_not_lt hshort) hv, version_stored_long (Nat.le_of_not_lt hshort') hv']
      simp only [List.cons.injEq, true_and, and_true, ← UInt8.toNat_inj, UInt8.toNat_ofNat']
      omega

/-- The name of a module is handed out as it is. -/
theorem decode_module_run {s : St} (henc : s.dec.rlen.is_enc = 0) (hlzf : s.dec.rlen.is_lzf = false) :
    HandsOut decode_module s [.d_module (.str (module_name s.dec.rlen.len))] := by
  have hplain : ¬ (s.dec.rlen.is_enc ≠ 0 ∨ s.dec.rlen.is_lzf = true) := by
    rw [henc, hlzf]
    simp
  refine ⟨{ s with dec.out := some s.dec.dest, bptr := module_scan s.bptr.avail s.bptr },
    [⟨s.dec.dest, .d_start_key s.dec.type s.dec.key.val, s.bptr.offset⟩,
      ⟨s.dec.dest, .d_module (.str (module_name s.dec.rlen.len)), s.bptr.offset⟩,
      ⟨s.dec.dest, .d_end_key s.dec.type, s.bptr.offset⟩], ?_, rfl⟩
  rw [decode_module, Proc.read_bind_run, if_neg hplain]
  rfl

end RdbDecode

/-- What is handed out is determined. -/
theorem HandsOut.unique {x : DecodeProc Unit} {s : St} {calls calls' : List Callback} (h : HandsOut x s calls)
    (h' : HandsOut x s calls') : calls = calls' := by
  obtain ⟨t, o, hrun, ho⟩ := h
  obtain ⟨t', o', hrun', ho'⟩ := h'
  obtain ⟨-, -, rfl⟩ := Run.mk.inj (hrun.symm.trans hrun')
  have hcalls := List.append_cancel_right (List.cons.inj (ho.symm.trans ho')).2
  exact List.map_injective_iff.mpr (fun _ _ hc => (Prod.mk.inj hc).2) hcalls

open RdbDecode

/-- A module id is handed out as its text if and only if its version has no more than three digits, and two ids
are handed out as one text if and only if they differ in the last of four. Of the decoders nothing is assumed
but that they have read the ids. -/
theorem decode_module_text_iff (s s' : St) :
    (s.dec.rlen.is_enc = 0 → s.dec.rlen.is_lzf = false →
      (HandsOut decode_module s [.d_module (.str (module_text s.dec.rlen.len))] ↔ s.dec.rlen.len % 1024 < 1000)) ∧
    (s.dec.rlen.is_enc = 0 → s.dec.rlen.is_lzf = false → s.dec.rlen.len < 2 ^ 64 →
      s'.dec.rlen.is_enc = 0 → s'.dec.rlen.is_lzf = false → s'.dec.rlen.len < 2 ^ 64 →
      ((∃ text, HandsOut decode_module s [.d_module (.str text)] ∧ HandsOut decode_module s' [.d_module (.str text)]) ↔
        s.dec.rlen.len = s'.dec.rlen.len ∨ s.dec.rlen.len / 1024 = s'.dec.rlen.len / 1024 ∧
          1000 ≤ s.dec.rlen.len % 1024 ∧
          1000 ≤ s'.dec.rlen.len % 1024 ∧ s.dec.rlen.len % 1024 / 10 = s'.dec.rlen.len % 1024 / 10)) := by
  have hname : ∀ (s : St) (text : List UInt8), s.dec.rlen.is_enc = 0 → s.dec.rlen.is_lzf = false →
      (HandsOut decode_module s [.d_module (.str text)] ↔ module_name s.dec.rlen.len = text) := by
    intro s text henc hlzf
    constructor
    · intro h
      have hcalls := (decode_module_run henc hlzf).unique h
      simp only [List.cons.injEq, and_true, Callback.d_module.injEq, RdbVal.str.injEq] at hcalls
      exact hcalls
    · rintro rfl
      exact decode_module_run henc hlzf
  constructor
  · intro henc hlzf
    rw [hname s _ henc hlzf, module_name_eq, module_text, List.append_cancel_left_eq]
    exact version_stored_iff (Nat.mod_lt _ (by decide))
  · intro henc hlzf hlt henc' hlzf' hlt'
    have hsame : (∃ text, HandsOut decode_module s [.d_module (.str text)] ∧
        HandsOut decode_module s' [.d_module (.str text)]) ↔
        module_name s.dec.rlen.len = module_name s'.dec.rlen.len := by
      simp only [hname s _ henc hlzf, hname s' _ henc' hlzf', exists_eq_left']
      exact eq_comm
    have hlen : ∀ m, (module_chars m).length = 9 := fun m => by rw [module_chars, List.length_map, List.length_range]
    have happend : module_name s.dec.rlen.len = module_name s'.dec.rlen.len ↔
        module_chars s.dec.rlen.len = module_chars s'.dec.rlen.len ∧
          version_stored (s.dec.rlen.len % 1024) = version_stored (s'.dec.rlen.len % 1024) := by
      rw [module_name_eq, module_name_eq]
      constructor
      · intro h
        exact List.append_inj h ((hlen _).trans (hlen _).symm)
      · rintro ⟨hchars, hver⟩
        rw [hchars, hver]
    rw [hsame, happend, module_chars_inj hlt hlt',
      version_stored_inj (Nat.mod_lt _ (by decide)) (Nat.mod_lt _ (by decide))]
    omega

/-- A decoder in front of a module of that id. -/
def St.module (m : Nat) : St := ⟨{ rlen := { len := m } }, RdbBufptr.init ⟨.input, Mem.ofList [0] 0, 0⟩ 1⟩

/-- Version 5, and two ids with the versions 1000 and 1001. -/
theorem decode_module_text_five : HandsOut decode_module (.module 5) [.d_module (.str (module_text 5))] ∧
    ∃ text, HandsOut decode_module (.module 1000) [.d_module (.str text)] ∧
      HandsOut decode_module (.module 1001) [.d_module (.str text)] :=
  ⟨((decode_module_text_iff (.module 5) (.module 5)).1 rfl rfl).mpr (by decide),
    ((decode_module_text_iff (.module 1000) (.module 1001)).2 rfl rfl (by decide) rfl rfl (by decide)).mpr (by decide)⟩

theorem decode_module_cut : ¬ ((∀ s : St, s.dec.rlen.is_enc = 0 → s.dec.rlen.is_lzf = false → s.dec.rlen.len < 2 ^ 64 →
      HandsOut decode_module s [.d_module (.str (module_text s.dec.rlen.len))]) ∧
    ∀ m m' : UInt64, module_name m.toNat = module_name m'.toNat → m = m') := by
  rintro ⟨-, h⟩
  exact absurd (h 1000 1001 (by decide +kernel)) (by decide)

end rdbparser
