import Rdbparser.Encode.Items
import Rdbparser.Encode.Mixed
import Rdbparser.Encode.Zip
import Rdbparser.Main.Encodings

/-! Values that are written with the encoders. -/

namespace rdbparser

open format

/-- A length. -/
def RdbLenEncode.len_bytes (n : Nat) : List UInt8 := (init.len_encode_of n).1

/-- A string in memory, of which the size is asked for first. -/
def RdbLenEncode.str_bytes (data : Mem) (sz : Nat) : List UInt8 := (init.str_size sz).2.str_encode data

/-- The strings as a zip list in a string. -/
def RdbZipEncode.list_bytes (out : Mem) (args : List LinkArg) : List UInt8 :=
  RdbLenEncode.str_bytes (encode out args args.length).p (encode out args args.length).off

/-- The elements as a list pack in a string. -/
def RdbListPackEncode.list_bytes (out : Mem) (xs : List LpArg) : List UInt8 :=
  RdbLenEncode.str_bytes (encode_args out xs).p (encode_args out xs).off

/-- The strings fit a zip list. -/
def RdbZipEncode.Fits (args : List LinkArg) : Prop := 10 + entries_size 0 (args.map fun a => a.text.length) + 1 < 2 ^ 32

namespace LpArg

/-- An element as it is found. -/
def elem : LpArg → ListPackElem
  | .str arg => .str arg.text
  | .int val => .int (twos 64 val.toInt)

/-- A string of less than 4096 bytes, or an integer that is not below 0 unless it is below -4096, and that has
the same byte three times if it takes 24 bits: the others are not read as they are written. -/
def InRange : LpArg → Prop
  | .str arg => arg.text.length < 2 ^ 12
  | .int val => (val.toInt < -0x1000 ∨ 0 ≤ val.toInt) ∧
      ((-0x800000 ≤ val.toInt ∧ val.toInt < -0x8000) ∨ (0x7fff < val.toInt ∧ val.toInt ≤ 0x7fffff) →
        twos 24 val.toInt % 0x10101 = 0)

/-- The integers of this range are the ones that are kept. -/
theorem inRange_int (val : Int64) : (LpArg.int val).InRange ↔ RdbListPackEncode.Kept val.toInt := by
  have hcode : RdbListPack.lpnext_imm_code val.toInt = ListPackEnc.LP_24BIT_INT ↔
      (-0x800000 ≤ val.toInt ∧ val.toInt < -0x8000) ∨ (0x7fff < val.toInt ∧ val.toInt ≤ 0x7fffff) := by
    unfold RdbListPack.lpnext_imm_code
    split_ifs <;> simp only [true_iff, false_iff] <;> omega
  rw [InRange, RdbListPackEncode.Kept, hcode, not_and_or, not_le, not_lt]

/-- An element in range that is written in front of the decoder is found, as it was written, and the decoder goes on
behind it. -/
theorem next_bytes {x : LpArg} (hx : x.InRange) {l : RdbListPack} {lval : RdbListValue}
    (hp : (l.base.mem.add (l.walk.pos lval)).Starts x.bytes) (hend : l.walk.pos lval + x.bytes.length < l.end_) :
    ∃ t, l.walk.next lval = (true, t) ∧ l.walk.found t = x.elem ∧ l.walk.pos t = l.walk.pos lval + x.bytes.length := by
  cases x with
  | str arg =>
    have hlt : arg.text.length < 2 ^ 32 := Nat.lt_trans hx (by decide)
    have hread : RdbListPackEncode.str_read arg.text.length = arg.text.length :=
      (RdbListPackEncode.str_read_eq hlt).mpr (.inl hx)
    have hbytes : (LpArg.str arg).bytes = RdbListPackEncode.LpStr.bytes ⟨arg.text, hlt⟩ := by
      rw [LpArg.bytes, LpArg.body, RdbListPackEncode.LpStr.bytes, List.length_append]
    rw [hbytes] at hp hend ⊢
    exact RdbListPackEncode.next_lpstr_read ⟨arg.text, hlt⟩ hread hp (Nat.le_of_lt hend)
  | int val =>
    obtain ⟨t, hnext, hfound, hpos⟩ := RdbListPackEncode.next_imm_bytes val hp (Nat.le_of_lt hend)
    rw [(RdbListPackEncode.imm_read_eq val.toInt).mpr ((inRange_int val).mp hx)] at hfound
    exact ⟨t, hnext, hfound, hpos⟩

end LpArg

/-- The elements fit a list pack, and each of them is in the range it is written for. -/
def RdbListPackEncode.Fits (xs : List LpArg) : Prop :=
  6 + (xs.flatMap LpArg.bytes).length + 1 < 2 ^ 32 ∧ ∀ x ∈ xs, x.InRange

/-- A ziplist that is written holds the texts that it was written from; 65535 and more of them are counted as 65535.
-/
theorem RdbZipEncode.encode_counts (out : Mem) {args : List LinkArg} (h : RdbZipEncode.Fits args) :
    RdbZipList.Counts ((encode out args args.length).p.take (encode out args args.length).off) (min args.length 0xffff)
      (args.map fun a => .str a.text) := by
  obtain ⟨l, -, -, -, helems, hllen, -, hstarts, hoff⟩ := encode_written out args args.length h
  have hcount : l.zllen % 2 ^ 16 = min args.length 0xffff := by
    rw [hllen]
    omega
  rw [hoff, hstarts.take]
  intro b hb
  obtain ⟨xs, hxs, hyields⟩ := of_layout_finds l hb helems
  exact ⟨RdbZipList.of_layout l b, RdbZipList.init_bytes l hb, hcount, xs, hxs, hyields.stops fun _ => trivial⟩

/-- A listpack that is written holds what its elements stand for, in any memory that starts with it. -/
theorem RdbListPackEncode.encode_holds (out : Mem) {xs : List LpArg} (h : RdbListPackEncode.Fits xs) :
    RdbListPack.Holds ((encode_args out xs).p.take (encode_args out xs).off) (xs.map LpArg.elem) := by
  obtain ⟨hfits, hrange⟩ := h
  have hwritten := append_args_written xs (e := init out) (.of_room out 6) (by
    rw [Mem.take_length]
    omega)
  obtain ⟨hstarts, hoff⟩ := append_end_written (Mem.take_length out 6) hwritten hfits
  change (encode_args out xs).off = _ at hoff
  change (encode_args out xs).p.Starts _ at hstarts
  rw [hoff, hstarts.take]
  intro b hb
  obtain ⟨l, hl⟩ : ∃ l, RdbListPack.init b _ = some l := ⟨_, RdbListPack.init_listpack hfits hb⟩
  have hinit := Option.some.inj (hl.symm.trans (RdbListPack.init_listpack hfits hb))
  rw [listpack, Mem.starts_append, Mem.starts_append, Mem.add_add, le_bytes_length, le_bytes_length] at hb
  have hbody : (l.base.mem.add (l.walk.pos l.start)).Starts (xs.flatMap LpArg.bytes ++ [0xff]) := by
    rw [hinit]
    exact hb.2.2
  have hlimit : l.walk.pos l.start + (xs.flatMap LpArg.bytes).length < l.end_ := by
    rw [hinit]
    exact Nat.lt_succ_self _
  have hyields := Walk.yields_of_layout LpArg.InRange _ (fun x s hx hp hend => LpArg.next_bytes hx hp hend)
    (fun s => RdbListPack.next_end) hbody hlimit hrange
  refine ⟨l, hl, _, ?_, hyields.stops fun _ => trivial⟩
  rw [List.map_map]
  rfl

/-- The first and the second of each pair, one after the other. -/
def flat {α : Type} (xs : List (α × α)) : List α := xs.flatMap fun x => [x.1, x.2]

theorem map_flat {α β : Type} (f : α → β) (xs : List (α × α)) :
    (flat xs).map f = flat (xs.map fun x => (f x.1, f x.2)) := by
  rw [flat, flat, List.map_flatMap, List.flatMap_map]
  rfl

theorem flat_length {α : Type} (xs : List (α × α)) : (flat xs).length = 2 * xs.length := by
  induction xs with
  | nil => rfl
  | cons x xs ih =>
    have hcons : (flat (x :: xs)).length = (flat xs).length + 2 := rfl
    rw [hcons, ih, List.length_cons]
    omega

/-- A value as it is written: an item, items behind the number of them, elements in one string, or in nodes of
which there is at least one element in each. -/
inductive EncodedValue
  | string (x : Item)
  | list (xs : List Item)
  | set (xs : List Item)
  | hash (xs : List (Item × Item))
  | list_ziplist (xs : List LinkArg)
  | zset_ziplist (xs : List (LinkArg × LinkArg))
  | hash_ziplist (xs : List (LinkArg × LinkArg))
  | list_quicklist (nodes : List { xs : List LinkArg // xs ≠ [] })
  | hash_listpack (xs : List (LpArg × LpArg))
  | zset_listpack (xs : List (LpArg × LpArg))
  | list_quicklist_2 (nodes : List { xs : List LpArg // xs ≠ [] })

namespace EncodedValue

open RdbLenEncode

def type_byte : EncodedValue → UInt8
  | string _ => 0
  | list _ => 1
  | set _ => 2
  | hash _ => 4
  | list_ziplist _ => 10
  | zset_ziplist _ => 12
  | hash_ziplist _ => 13
  | list_quicklist _ => 14
  | hash_listpack _ => 16
  | zset_listpack _ => 17
  | list_quicklist_2 _ => 18

/-- What is written of it, to memory that holds `out`; the nodes of a quicklist 2 are packed. -/
def bytes (out : Mem) : EncodedValue → List UInt8
  | string x => (x.encode .init).1
  | list xs | set xs => len_bytes xs.length ++ Item.encodes .init xs
  | hash xs => len_bytes xs.length ++ Item.encodes .init (flat xs)
  | list_ziplist xs => RdbZipEncode.list_bytes out xs
  | zset_ziplist xs | hash_ziplist xs => RdbZipEncode.list_bytes out (flat xs)
  | list_quicklist nodes => len_bytes nodes.length ++ nodes.flatMap fun xs => RdbZipEncode.list_bytes out xs.1
  | hash_listpack xs | zset_listpack xs => RdbListPackEncode.list_bytes out (flat xs)
  | list_quicklist_2 nodes =>
    len_bytes nodes.length ++ nodes.flatMap fun xs => len_bytes 2 ++ RdbListPackEncode.list_bytes out xs.1

/-- There is room for the numbers and the lists, what is in list packs is in the range it is written for, and a
quicklist has one node at most: the elements of the later ones are not numbered as they are stored. -/
def Fits : EncodedValue → Prop
  | string _ => True
  | list xs | set xs => xs.length < 2 ^ 64
  | hash xs => xs.length < 2 ^ 64
  | list_ziplist xs => RdbZipEncode.Fits xs
  | zset_ziplist xs | hash_ziplist xs => RdbZipEncode.Fits (flat xs)
  | list_quicklist nodes => nodes.length ≤ 1 ∧ ∀ xs ∈ nodes, RdbZipEncode.Fits xs.1
  | hash_listpack xs | zset_listpack xs => RdbListPackEncode.Fits (flat xs)
  | list_quicklist_2 nodes => nodes.length ≤ 1 ∧ ∀ xs ∈ nodes, RdbListPackEncode.Fits xs.1

/-- One callback for each element or pair, numbered from the first of the value on; zip lists are asked for
their number, which has 16 bits, and list packs and quicklists for none. -/
def calls : EncodedValue → List Callback
  | string x => [.d_string x.val]
  | list xs => xs.mapIdx fun i x => .d_list i xs.length x.val
  | set xs => xs.mapIdx fun i x => .d_set i xs.length x.val
  | hash xs => xs.mapIdx fun i x => .d_hash i xs.length x.1.val x.2.val
  | list_ziplist xs => xs.mapIdx fun i x => .d_list i (min xs.length 0xffff) (.str x.text)
  | zset_ziplist xs => xs.mapIdx fun i x => .d_zset i (min (2 * xs.length) 0xffff / 2) (.str x.1.text) (.str x.2.text)
  | hash_ziplist xs => xs.mapIdx fun i x => .d_hash i (min (2 * xs.length) 0xffff / 2) (.str x.1.text) (.str x.2.text)
  | list_quicklist nodes => (nodes.flatMap Subtype.val).mapIdx fun i x => .d_list i 0 (.str x.text)
  | hash_listpack xs => xs.mapIdx fun i x => .d_hash i 0 x.1.elem.val x.2.elem.val
  | zset_listpack xs => xs.mapIdx fun i x => .d_zset i 0 x.1.elem.val x.2.elem.val
  | list_quicklist_2 nodes => (nodes.flatMap Subtype.val).mapIdx fun i x => .d_list i 0 x.elem.val

end EncodedValue

variable {E : Env}

theorem Item.stored_val (x : Item) : (x.stored E).val = x.val := by
  cases x with
  | str s h => rfl
  | int i lo hi => exact congrArg RdbVal.int (StoredInt.shortest_val i lo hi)

theorem RdbLenEncode.len_bytes_eq {n : Nat} (h : n < 2 ^ 64) : len_bytes n = (StoredLen.shortest n h).bytes := by
  have hform := (len_encode_form (StoredLen.shortest n h)).1
  rw [← str_code_eq, StoredLen.shortest_val] at hform
  exact hform

/-- A length as it is stored. -/
theorem RdbLenEncode.stored_len {n : Nat} (h : n < 2 ^ 64) : ∃ l : StoredLen, l.val = n ∧ l.bytes = len_bytes n :=
  ⟨.shortest n h, StoredLen.shortest_val n h, (len_bytes_eq h).symm⟩

/-- A string in memory, as it is stored. -/
def format.Blob.written (E : Env) (data : Mem) (sz : Nat) (h : sz < 2 ^ 64) : Blob E :=
  ⟨.raw (.shortest sz h) (data.take sz) ((StoredLen.shortest_val sz h).trans (Mem.take_length data sz).symm), rfl⟩

theorem format.Blob.written_bytes (data : Mem) {sz : Nat} (h : sz < 2 ^ 64) :
    (Blob.written E data sz h).str.bytes = RdbLenEncode.str_bytes data sz := by
  have hlen := RdbLenEncode.len_bytes_eq h
  change (StoredLen.shortest sz h).bytes ++ data.take sz = RdbLenEncode.len_bytes sz ++ data.take sz
  rw [hlen]

/-- A zip list as it is stored. -/
theorem RdbZipEncode.stored_list (out : Mem) {args : List LinkArg} (h : RdbZipEncode.Fits args) :
    ∃ b : Blob E, b.str.bytes = list_bytes out args ∧
      RdbZipList.Counts b.str.text (min args.length 0xffff) (args.map fun a => .str a.text) := by
  obtain ⟨l, -, -, -, -, -, hsize, -, hoff⟩ := encode_written out args args.length h
  have hlt : (encode out args args.length).off < 2 ^ 64 := by
    rw [hoff, hsize]
    exact Nat.lt_trans h (by decide)
  exact ⟨.written E _ _ hlt, Blob.written_bytes _ hlt, encode_counts out h⟩

/-- A list pack as it is stored. -/
theorem RdbListPackEncode.stored_list (out : Mem) {xs : List LpArg} (h : RdbListPackEncode.Fits xs) :
    ∃ b : Blob E, b.str.bytes = list_bytes out xs ∧ RdbListPack.Holds b.str.text (xs.map LpArg.elem) := by
  have hlt : (encode_args out xs).off < 2 ^ 64 := Nat.lt_trans (Nat.mod_lt _ (by decide)) (by decide : 2 ^ 32 < 2 ^ 64)
  exact ⟨.written E _ _ hlt, Blob.written_bytes _ hlt, encode_holds out h⟩

/-- Parts that are stored one by one are stored one after the other. -/
theorem exists_parts {α β γ : Type} {bytes : α → List UInt8} {stored : β → List UInt8} {elems : α → γ} {found : β → γ}
    {xs : List α} (h : ∀ x ∈ xs, ∃ y, stored y = bytes x ∧ found y = elems x) :
    ∃ ys : List β, ys.flatMap stored = xs.flatMap bytes ∧ ys.map found = xs.map elems := by
  induction xs with
  | nil => exact ⟨[], rfl, rfl⟩
  | cons x xs ih =>
    rw [List.forall_mem_cons] at h
    obtain ⟨y, hbytes, helems⟩ := h.1
    obtain ⟨ys, hall, hfound⟩ := ih h.2
    exact ⟨y :: ys, by rw [List.flatMap_cons, List.flatMap_cons, hbytes, hall],
      by rw [List.map_cons, List.map_cons, helems, hfound]⟩

/-- The elements of all nodes, each taken by itself or all together. -/
theorem flatMap_map_val {α β : Type} {p : List α → Prop} (f : α → β) (nodes : List { xs : List α // p xs }) :
    nodes.flatMap (fun xs => xs.1.map f) = (nodes.flatMap Subtype.val).map f := (List.map_flatMap).symm

namespace EncodedValue

/-- A value that is stored as it is written, and handed out the same. -/
def StoredAs (out : Mem) (x : EncodedValue) {V : Type} [Encoding E V] (v : V) : Prop :=
  Encoding.type_byte v = x.type_byte ∧ Encoding.data v = x.bytes out ∧ Encoding.calls v = x.calls

theorem stored_items (xs : List Item) : (xs.map (Item.stored E)).flatMap StoredStr.bytes = Item.encodes .init xs := by
  rw [Item.encodes_eq E, List.flatMap_map]

theorem stored_ziplist (E : Env) (out : Mem) {xs : List (LinkArg × LinkArg)} (h : RdbZipEncode.Fits (flat xs)) :
    ∃ b : Blob E, b.str.bytes = RdbZipEncode.list_bytes out (flat xs) ∧
      RdbZipList.Counts b.str.text (min (2 * xs.length) 0xffff)
        (paired (xs.map fun x => (.str x.1.text, .str x.2.text))) := by
  obtain ⟨b, hbytes, hcounts⟩ := RdbZipEncode.stored_list (E := E) out h
  rw [flat_length, map_flat] at hcounts
  exact ⟨b, hbytes, hcounts⟩

theorem stored_listpack (E : Env) (out : Mem) {xs : List (LpArg × LpArg)} (h : RdbListPackEncode.Fits (flat xs)) :
    ∃ b : Blob E, b.str.bytes = RdbListPackEncode.list_bytes out (flat xs) ∧
      RdbListPack.Holds b.str.text (paired (xs.map fun x => (x.1.elem, x.2.elem))) := by
  obtain ⟨b, hbytes, hholds⟩ := RdbListPackEncode.stored_list (E := E) out h
  rw [map_flat] at hholds
  exact ⟨b, hbytes, hholds⟩

/-- What is written is stored as a value of the same elements. -/
theorem exists_stored (E : Env) (out : Mem) (x : EncodedValue) (h : x.Fits) : ∃ v : ExactValue E, x.StoredAs out v := by
  cases x with
  | string x =>
    refine ⟨.inl (.string (x.stored E)), rfl, ?_, ?_⟩
    · exact (x.encode_eq E .init).symm
    · exact congrArg (fun v => [Callback.d_string v]) x.stored_val
  | list xs =>
    obtain ⟨n, hval, hbytes⟩ := RdbLenEncode.stored_len h
    refine ⟨.inl (.list n (xs.map (Item.stored E)) (hval.trans (List.length_map _).symm)), rfl, ?_, ?_⟩
    · change n.bytes ++ (xs.map (Item.stored E)).flatMap StoredStr.bytes = _
      rw [hbytes, stored_items]
      rfl
    · change (xs.map (Item.stored E)).mapIdx (fun i x => Callback.d_list i n.val x.val) = _
      rw [mapIdx_map, hval]
      simp only [Item.stored_val]
      rfl
  | set xs =>
    obtain ⟨n, hval, hbytes⟩ := RdbLenEncode.stored_len h
    refine ⟨.inl (.set n (xs.map (Item.stored E)) (hval.trans (List.length_map _).symm)), rfl, ?_, ?_⟩
    · change n.bytes ++ (xs.map (Item.stored E)).flatMap StoredStr.bytes = _
      rw [hbytes, stored_items]
      rfl
    · change (xs.map (Item.stored E)).mapIdx (fun i x => Callback.d_set i n.val x.val) = _
      rw [mapIdx_map, hval]
      simp only [Item.stored_val]
      rfl
  | hash xs =>
    obtain ⟨n, hval, hbytes⟩ := RdbLenEncode.stored_len h
    have hpairs : (xs.map fun x => (x.1.stored E, x.2.stored E)).flatMap (fun x => x.1.bytes ++ x.2.bytes) =
        ((flat xs).map (Item.stored E)).flatMap StoredStr.bytes := by
      rw [map_flat, flat, List.flatMap_assoc]
      simp only [List.flatMap_cons, List.flatMap_nil, List.append_nil]
    refine ⟨.inl (.hash n (xs.map fun x => (x.1.stored E, x.2.stored E)) (hval.trans (List.length_map _).symm)),
      rfl, ?_, ?_⟩
    · change n.bytes ++ (xs.map fun x => (x.1.stored E, x.2.stored E)).flatMap (fun x => x.1.bytes ++ x.2.bytes) = _
      rw [hbytes, hpairs, stored_items]
      rfl
    · change (xs.map fun x => (x.1.stored E, x.2.stored E)).mapIdx
        (fun i x => Callback.d_hash i n.val x.1.val x.2.val) = _
      rw [mapIdx_map, hval]
      simp only [Item.stored_val]
      rfl
  | list_ziplist xs =>
    obtain ⟨b, hbytes, hcounts⟩ := RdbZipEncode.stored_list (E := E) out h
    refine ⟨.inr (.inr (.inl (.list_ziplist b _ _ hcounts))), rfl, ?_, ?_⟩
    · exact hbytes
    · exact mapIdx_map _ _ _
  | zset_ziplist xs =>
    obtain ⟨b, hbytes, hcounts⟩ := stored_ziplist E out h
    exact ⟨.inr (.inr (.inl (.zset_ziplist b _ _ hcounts))), rfl, hbytes, mapIdx_map _ _ _⟩
  | hash_ziplist xs =>
    obtain ⟨b, hbytes, hcounts⟩ := stored_ziplist E out h
    exact ⟨.inr (.inr (.inl (.hash_ziplist b _ _ hcounts))), rfl, hbytes, mapIdx_map _ _ _⟩
  | hash_listpack xs =>
    obtain ⟨b, hbytes, hholds⟩ := stored_listpack E out h
    exact ⟨.inr (.inr (.inl (.hash_listpack b _ hholds))), rfl, hbytes, mapIdx_map _ _ _⟩
  | zset_listpack xs =>
    obtain ⟨b, hbytes, hholds⟩ := stored_listpack E out h
    exact ⟨.inr (.inr (.inl (.zset_listpack b _ hholds))), rfl, hbytes, mapIdx_map _ _ _⟩
  | list_quicklist nodes =>
    obtain ⟨hsingle, hnodes⟩ := h
    have hparts : ∀ xs ∈ nodes, ∃ y : QuickNode E RdbZipList.Holds,
        y.blob.str.bytes = RdbZipEncode.list_bytes out xs.1 ∧
        y.elems = xs.1.map fun x => .str x.text := by
      intro xs hxs
      obtain ⟨b, hbytes, hcounts⟩ := RdbZipEncode.stored_list (E := E) out (hnodes xs hxs)
      exact ⟨⟨b, _, by simpa using xs.2, hcounts.holds⟩, hbytes, rfl⟩
    obtain ⟨ys, hbytes, helems⟩ := exists_parts hparts
    obtain ⟨n, hval, hlen⟩ := RdbLenEncode.stored_len (Nat.lt_of_le_of_lt hsingle (by decide : 1 < 2 ^ 64))
    have hcount : (QuickList.ziplists ys).elems.length = nodes.length := by
      rw [QuickList.elems, helems, List.length_map]
    refine ⟨.inr (.inr (.inr (.inl ⟨⟨n, .ziplists ys, hval.trans hcount.symm⟩, hcount.trans_le hsingle⟩))), rfl, ?_, ?_⟩
    · change n.bytes ++ ys.flatMap (fun y => y.blob.str.bytes) = _
      rw [hbytes, hlen]
      rfl
    · change (ys.map QuickNode.elems).flatten.mapIdx (fun k x => Callback.d_list k 0 x.val) = _
      rw [helems, ← List.flatMap_def, flatMap_map_val, mapIdx_map]
      rfl
  | list_quicklist_2 nodes =>
    obtain ⟨hsingle, hnodes⟩ := h
    obtain ⟨two, htwo, hpacked⟩ := RdbLenEncode.stored_len (show 2 < 2 ^ 64 by decide)
    have hparts : ∀ xs ∈ nodes, ∃ y : { n : StoredLen // n.val = 2 } × QuickNode E RdbListPack.Holds,
        y.1.1.bytes ++ y.2.blob.str.bytes = RdbLenEncode.len_bytes 2 ++ RdbListPackEncode.list_bytes out xs.1 ∧
          y.2.elems = xs.1.map LpArg.elem := by
      intro xs hxs
      obtain ⟨b, hbytes, hholds⟩ := RdbListPackEncode.stored_list (E := E) out (hnodes xs hxs)
      refine ⟨⟨⟨two, htwo⟩, ⟨b, _, by simpa using xs.2, hholds⟩⟩, ?_, rfl⟩
      rw [← hpacked, ← hbytes]
    obtain ⟨ys, hbytes, helems⟩ := exists_parts hparts
    obtain ⟨n, hval, hlen⟩ := RdbLenEncode.stored_len (Nat.lt_of_le_of_lt hsingle (by decide : 1 < 2 ^ 64))
    have hcount : (QuickList.listpacks ys).elems.length = nodes.length := by
      rw [QuickList.elems, helems, List.length_map]
    refine ⟨.inr (.inr (.inr (.inl ⟨⟨n, .listpacks ys, hval.trans hcount.symm⟩, hcount.trans_le hsingle⟩))), rfl,
      ?_, ?_⟩
    · change n.bytes ++ ys.flatMap (fun y => y.1.1.bytes ++ y.2.blob.str.bytes) = _
      rw [hbytes, hlen]
      rfl
    · change (ys.map fun y => y.2.elems).flatten.mapIdx (fun k x => Callback.d_list k 0 x.val) = _
      rw [helems, ← List.flatMap_def, flatMap_map_val, mapIdx_map]
      rfl

end EncodedValue

end rdbparser
