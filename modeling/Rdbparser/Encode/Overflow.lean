import Rdbparser.Encode.Found

/-! A list pack of more than 2^32 bytes of integers is not walked to its end. Where the offset of the encoder
starts over, the elements behind it lie at the front of the buffer, and no element ends there. -/

namespace rdbparser.RdbListPackEncode

open format RdbListPack ListPackEnc

/-- The parts that an element is written in. -/
def elem_parts (v : Int) : List (List UInt8) := imm_parts v (imm_form v) ++ [[UInt8.ofNat (imm_code v).length]]

theorem elem_parts_flatten (v : Int) : (elem_parts v).flatten = imm_bytes v := by
  rw [elem_parts, imm_bytes_back, List.flatten_append, List.flatten_singleton, imm_code]

theorem elem_parts_length {v : Int} {bs : List UInt8} (h : bs ∈ elem_parts v) : bs.length < 2 ^ 32 := by
  have hle := (List.sublist_flatten_of_mem h).length_le
  have hsize := imm_code_size v
  rw [elem_parts_flatten, imm_bytes_length] at hle
  split_ifs at hsize <;> omega

/-- What is at the front of the buffer: all of the parts, or those behind the one in which the offset started over. -/
def Stored (p : Mem) (off : Nat) (hdr : List UInt8) (parts : List (List UInt8)) : Prop :=
  off < 2 ^ 32 ∧ (Written p off (hdr ++ parts.flatten) ∨
    ∃ (ps qs : List (List UInt8)) (cut junk : List UInt8), parts = ps ++ cut :: qs ∧ junk.length < cut.length ∧
      Written p off (junk ++ qs.flatten))

section stored

variable {e : RdbListPackEncode} {hdr : List UInt8} {parts : List (List UInt8)}

/-- Bytes that are put down are a part more behind the others, or the part in which the offset has started over. -/
theorem put_stored (h : Stored e.p e.off hdr parts) {bs : List UInt8} (hlen : bs.length < 2 ^ 32) :
    Stored (e.put bs).p (e.put bs).off hdr (parts ++ [bs]) := by
  obtain ⟨hoff, h⟩ := h
  have hput : (e.put bs).off = (e.off + bs.length) % 2 ^ 32 := rfl
  refine ⟨hput ▸ Nat.mod_lt _ (by decide), ?_⟩
  by_cases hroom : e.off + bs.length < 2 ^ 32
  · rcases h with hall | ⟨ps, qs, cut, junk, rfl, hjunk, hbehind⟩
    · left
      have hnext := put_written hall bs (by rwa [← hall.off_eq])
      rwa [List.flatten_append, List.flatten_singleton, ← List.append_assoc]
    · right
      have hnext := put_written hbehind bs (by rwa [← hbehind.off_eq])
      refine ⟨ps, qs ++ [bs], cut, junk, by rw [List.append_assoc, List.cons_append], hjunk, ?_⟩
      rwa [List.flatten_append, List.flatten_singleton, ← List.append_assoc]
  · -- the offset starts over within `bs`
    right
    refine ⟨parts, [], bs, (e.put bs).p.take (e.put bs).off, rfl, ?_, ?_⟩
    · rw [Mem.take_length, hput]
      omega
    · rw [List.flatten_nil, List.append_nil]
      exact .of_room _ _

/-- So are any number of parts. -/
theorem puts_stored (h : Stored e.p e.off hdr parts) (more : List (List UInt8))
    (hlen : ∀ bs ∈ more, bs.length < 2 ^ 32) :
    Stored (more.foldl put e).p (more.foldl put e).off hdr (parts ++ more) := by
  induction more generalizing e parts with
  | nil => rwa [List.append_nil]
  | cons bs more ih =>
    rw [List.append_cons]
    obtain ⟨hbs, hmore⟩ := List.forall_mem_cons.mp hlen
    exact ih (put_stored h hbs) hmore

/-- A size that takes one byte. -/
theorem encode_back_put (hoff : e.off < 2 ^ 32) (hlink : e.link_sz < 128) :
    e.encode_back.p = (e.put [UInt8.ofNat e.link_sz]).p ∧ e.encode_back.off = (e.put [UInt8.ofNat e.link_sz]).off := by
  have hsize : lpback_size e.link_sz = 1 := by
    rw [lpback_size_eq, lpback, if_pos hlink]
    rfl
  have hfirst : sub32 (u32 (e.off + 1)) 1 = e.off := by
    rw [sub32, u32, u32]
    omega
  rw [encode_back, hsize]
  dsimp only [back_loop]
  rw [hfirst]
  exact ⟨rfl, rfl⟩

/-- An integer is put down so too, its back length included. -/
theorem append_immediate_int_stored (h : Stored e.p e.off hdr parts) (v : Int) :
    Stored (e.append_immediate_int v).p (e.append_immediate_int v).off hdr (parts ++ elem_parts v) := by
  have hparts := puts_stored (e := { e with next := int_enc (imm_form v) }) h (imm_parts v (imm_form v)) fun bs hbs =>
    elem_parts_length (v := v) (List.mem_append_left _ hbs)
  have hlink : (imm_code v).length < 128 := by
    rw [imm_code_size]
    split_ifs <;> decide
  rw [append_immediate_int, lpnext_imm_code_eq, encode_immediate_int_parts, ← imm_code_length,
    elem_parts, ← List.append_assoc]
  obtain ⟨hp, hoff⟩ := @encode_back_put
    { (imm_parts v (imm_form v)).foldl put { e with next := int_enc (imm_form v) } with link_sz := (imm_code v).length }
    hparts.1 hlink
  rw [hp, hoff]
  exact put_stored hparts (show 1 < 2 ^ 32 by decide)

/-- And any number of integers. -/
theorem appends_immediate_int_stored (vs : List Int64) (h : Stored e.p e.off hdr parts) :
    Stored (vs.foldl (fun e v => e.append_immediate_int v.toInt) e).p
      (vs.foldl (fun e v => e.append_immediate_int v.toInt) e).off
      hdr (parts ++ vs.flatMap fun v => elem_parts v.toInt) := by
  induction vs generalizing e parts with
  | nil => rwa [List.flatMap_nil, List.append_nil]
  | cons v vs ih =>
    rw [List.flatMap_cons, ← List.append_assoc]
    exact ih (append_immediate_int_stored h v.toInt)

end stored

/-- Where the parts of a list are cut, one of its elements is. -/
theorem flatMap_cut {α β : Type} {f : α → List β} {as : List α} {ps qs : List β} {b : β}
    (h : as.flatMap f = ps ++ b :: qs) :
    ∃ pre a post fs gs, as = pre ++ a :: post ∧ f a = fs ++ b :: gs ∧ qs = gs ++ post.flatMap f := by
  induction as generalizing ps with
  | nil => exact absurd h (by simp)
  | cons a as ih =>
    rw [List.flatMap_cons, List.append_eq_append_iff] at h
    rcases h with ⟨rest, rfl, hrest⟩ | ⟨rest, hfirst, hrest⟩
    · obtain ⟨pre, a', post, fs, gs, rfl, ha', hqs⟩ := ih hrest
      exact ⟨a :: pre, a', post, fs, gs, rfl, ha', hqs⟩
    · cases rest with
      | nil =>
        rw [List.append_nil] at hfirst
        obtain ⟨pre, a', post, fs, gs, rfl, ha', hqs⟩ := @ih [] hrest.symm
        exact ⟨a :: pre, a', post, fs, gs, rfl, ha', hqs⟩
      | cons b' gs =>
        obtain ⟨rfl, rfl⟩ := List.cons.inj hrest
        exact ⟨[], a, as, ps, gs, rfl, hfirst, rfl⟩

section cut

variable {v : Int} {fs gs : List (List UInt8)} {cut junk : List UInt8} (hparts : elem_parts v = fs ++ cut :: gs)
  (hjunk : junk.length < cut.length)

include hparts hjunk

/-- Behind a cut, an element is shorter, -/
theorem cut_length : (junk ++ gs.flatten).length < (imm_bytes v).length := by
  rw [← elem_parts_flatten, hparts, List.flatten_append, List.flatten_cons, List.length_append, List.length_append,
    List.length_append]
  omega

/-- but still ends with its size, -/
theorem cut_last : junk ++ gs.flatten = [] ∨ ∃ bs, junk ++ gs.flatten = bs ++ [UInt8.ofNat (imm_code v).length] := by
  rw [elem_parts] at hparts
  rcases List.eq_nil_or_concat gs with rfl | ⟨gs, last, rfl⟩
  · obtain ⟨-, hcut⟩ := List.append_inj' hparts rfl
    obtain rfl := (List.cons.inj hcut).1
    obtain rfl := List.length_eq_zero_iff.mp (Nat.lt_one_iff.mp hjunk)
    exact .inl rfl
  · rw [List.concat_eq_append, ← List.cons_append, ← List.append_assoc] at hparts
    obtain ⟨-, hlast⟩ := List.append_inj' hparts rfl
    obtain rfl := (List.cons.inj hlast).1
    right
    rw [List.concat_eq_append, List.flatten_append, List.flatten_singleton, ← List.append_assoc]
    exact ⟨_, rfl⟩

/-- and is all its own where it is long. -/
theorem cut_own (hlen : 9 ≤ (junk ++ gs.flatten).length) : ∃ bs, imm_bytes v = bs ++ (junk ++ gs.flatten) := by
  have hshort := cut_length hparts hjunk
  have hsize := imm_code_size v
  rw [imm_bytes_length] at hshort
  have hform : imm_form v = .int64 := by
    rw [imm_code_length, lp_size_eq] at hshort
    cases hform : imm_form v <;> rw [hform] at hshort <;> simp only [int_enc] at hshort <;> first | rfl | omega
  have hwide : elem_parts v = [[0xf4], le_bytes 8 (twos 64 v), [9]] := by
    rw [elem_parts, imm_code, hform]
    rfl
  rw [hwide] at hparts
  rw [List.length_append] at hlen
  rcases fs with _ | ⟨f, _ | ⟨g, fs⟩⟩
  case nil =>
    obtain ⟨rfl, rfl⟩ := List.cons.inj hparts
    obtain rfl := List.length_eq_zero_iff.mp (Nat.lt_one_iff.mp hjunk)
    refine ⟨[0xf4], ?_⟩
    rw [← elem_parts_flatten, hwide]
    rfl
  case cons.nil =>
    obtain ⟨-, hparts⟩ := List.cons.inj hparts
    obtain ⟨rfl, rfl⟩ := List.cons.inj hparts
    rw [le_bytes_length] at hjunk
    change 9 ≤ junk.length + 1 at hlen
    omega
  case cons.cons =>
    have hcount := congrArg List.length hparts
    simp only [List.length_cons, List.length_append, List.length_nil] at hcount
    obtain rfl := List.length_eq_zero_iff.mp (show gs.length = 0 by omega)
    obtain rfl := List.length_eq_zero_iff.mp (show fs.length = 0 by omega)
    obtain ⟨-, hparts⟩ := List.cons.inj hparts
    obtain ⟨-, hparts⟩ := List.cons.inj hparts
    obtain rfl := (List.cons.inj hparts).1
    change junk.length < 1 at hjunk
    change 9 ≤ junk.length + 0 at hlen
    omega

end cut

/-- The walk does not come to the end of what is behind a cut: traced back, it would have found an element that ends at
the front of the buffer. -/
theorem cut_not_found {l : RdbListPack} (hl : l.end_ = l.lpbytes) (hstart : 6 ≤ l.walk.pos l.start)
    {pre post : List Int64} {x : Int64}
    {fs gs : List (List UInt8)} {cut junk : List UInt8} (hparts : elem_parts x.toInt = fs ++ cut :: gs)
    (hjunk : junk.length < cut.length)
    (hheld : Held l.base.mem 0 (junk ++ gs.flatten ++ post.flatMap fun v => imm_bytes v.toInt)) {u : RdbListValue}
    (hpath : l.walk.Path l.start ((pre ++ x :: post).map fun v => .int (twos 64 v.toInt)) u) :
    l.walk.pos u ≠ (junk ++ gs.flatten ++ post.flatMap fun v => imm_bytes v.toInt).length := by
  intro hu
  have hshort := cut_length hparts hjunk
  have hlast := cut_last hparts hjunk
  have hown := cut_own hparts hjunk
  generalize junk ++ gs.flatten = front at *
  have hsize : ∀ q, 6 ≤ q → q + 1 = 0 + front.length → l.base.mem q = UInt8.ofNat (imm_code x.toInt).length :=
    fun q hq hin => by
    rcases hlast with rfl | ⟨bs, rfl⟩
    · exact absurd hin (Nat.succ_ne_zero q ∘ (·.trans (Nat.add_zero 0)))
    · rw [List.length_append, List.length_singleton] at hin
      have hbyte := hheld.left q (by rw [List.length_append, List.length_singleton]; omega) (by omega)
      rw [Nat.zero_add] at hbyte
      rw [hbyte, List.getElem_append_right (by omega)]
      simp
  rw [List.append_cons] at hpath
  obtain ⟨_, hpath', ht'⟩ := path_back hl hstart post hheld (fun q hq hin => by
    rw [hsize q hq hin]
    exact lp_code_back x) hpath (by rw [hu, Nat.zero_add])
  rw [List.map_append, Walk.path_append] at hpath'
  obtain ⟨t, hpre, t', hnext, hfound, rfl⟩ := hpath'
  have hsix := Nat.le_trans hstart (path_le hl (Nat.lt_of_lt_of_le (by decide) hstart) hpre)
  have hpos : 0 < l.walk.pos t := Nat.lt_of_lt_of_le (by decide) hsix
  have hlater : l.walk.pos t < l.walk.pos t' := by
    obtain ⟨hentry, hlen, -⟩ := next_bounds hl hpos hnext
    change _ < t'.entry + t'.entry_len
    rw [hentry]
    exact Nat.lt_add_of_pos_right hlen
  have hge := found_ge x hl hpos hnext hfound (hsize _ (by omega) (by omega)) fun hthree _ => by
    obtain ⟨bs, hbs⟩ := hown (by omega)
    have hbyte := hheld.left (l.walk.pos t) (by omega) (by omega)
    rw [Nat.zero_add] at hbyte
    rw [hbyte, hbs, List.length_append, List.getD_eq_getElem?_getD, List.getElem?_append_right (by omega),
      show bs.length + front.length - 3 - bs.length = l.walk.pos t by omega, List.getElem?_eq_getElem (by omega)]
    rfl
  omega

theorem elems_flatten (vs : List Int64) : (vs.flatMap fun v => elem_parts v.toInt).flatten = vs.flatMap fun v =>
  imm_bytes v.toInt := by
  induction vs with
  | nil => rfl
  | cons v vs ih => rw [List.flatMap_cons, List.flatMap_cons, List.flatten_append, elem_parts_flatten, ih]

/-- The end marker and the header leave the elements. -/
theorem append_end_held {e : RdbListPackEncode} {bs : List UInt8} (h : Written e.p e.off bs) :
    Held e.append_end.p 0 bs := by
  intro i hi hin
  rw [Nat.zero_add] at hin ⊢
  have hoff := h.off_eq
  rw [← h.starts.get hi, append_end, put]
  dsimp only
  simp only [Mem.store, le_bytes_length, List.length_singleton]
  rw [if_neg (by omega), if_neg (by omega), if_neg (by omega)]

/-- If the integers are found, no offset started over. -/
theorem found_fits {out : Mem} {vs : List Int64} {blk : Block} {l : RdbListPack}
    (hinit : RdbListPack.init ⟨blk, (encode_ints out vs).p⟩ (encode_ints out vs).off = some l)
    (hfinds : l.walk.Finds (fun i => i + 1 = (encode_ints out vs).off ∧ (encode_ints out vs).p i = 0xff) l.start
      (vs.map fun v => .int (twos 64 v.toInt))) : 6 + (vs.flatMap fun v => imm_bytes v.toInt).length + 1 < 2 ^ 32 := by
  obtain ⟨hbase, hdata, hl, -, -⟩ := init_some hinit
  have hstart : l.walk.pos l.start = 6 := hdata
  obtain ⟨u, hpath, hu, -⟩ := hfinds.path
  have hsix := path_le hl (hstart ▸ Nat.succ_pos 5) hpath
  obtain ⟨hoff, hstored⟩ := @appends_immediate_int_stored (init out) (out.take 6) [] vs
    ⟨show 6 < 2 ^ 32 by decide, .inl (by rw [List.flatten_nil, List.append_nil]; exact .of_room out 6)⟩
  have hend : (encode_ints out vs).off =
      u32 ((vs.foldl (fun e v => e.append_immediate_int v.toInt) (init out)).off + 1) := rfl
  have hmem : l.base.mem = (vs.foldl (fun e v => e.append_immediate_int v.toInt) (init out)).append_end.p := by
    rw [hbase]
    rfl
  generalize vs.foldl (fun e v => e.append_immediate_int v.toInt) (init out) = e at *
  rw [u32] at hend
  rcases hstored with hall | ⟨ps, qs, cut, junk, hparts, hjunk, hbehind⟩
  · have hlen := hall.off_eq
    rw [List.length_append, Mem.take_length, List.nil_append, elems_flatten] at hlen
    omega
  · obtain ⟨pre, x, post, fs, gs, rfl, hx, rfl⟩ := flatMap_cut hparts
    rw [List.flatten_append, elems_flatten, ← List.append_assoc] at hbehind
    have hheld := append_end_held hbehind
    rw [← hmem] at hheld
    have hlen := hbehind.off_eq
    exact absurd (by omega) (cut_not_found hl (Nat.le_of_eq hstart.symm) hx hjunk hheld hpath)

end rdbparser.RdbListPackEncode
