import Rdbparser.Restore.Record
import Rdbparser.Decode.Trailer

namespace rdbparser

open format RdbDecode DecodeProc

variable {E : Env} {V : Type} [Encoding E V]

theorem type_byte_le (v : V) : Encoding.type_byte v ≤ 19 := by
  have hbad := Encoding.type_ne_bad v
  rw [← Encoding.get_rdb_type_byte v] at hbad
  change (Encoding.type_byte v).toNat ≤ 19
  unfold get_rdb_type at hbad
  split at hbad <;> first | omega | exact absurd rfl hbad

/-- A dump as it is written, which has version 9. -/
def payload (v : V) (data : List UInt8) : Payload :=
  ⟨Encoding.type_byte v, type_byte_le v, data, 9, by decide⟩

theorem dump_eq (v : V) (data : List UInt8) : dump (Encoding.type_byte v) data = (payload v data).bytes := by
  rw [Payload.bytes, Payload.crc, Payload.front, dump]
  simp only [List.append_assoc, List.cons_append]
  rfl

/-- The version and the crc at the end of a dump are found, and agree with its bytes. -/
theorem decode_trailer_dump {s : St} {v : V} {data : List UInt8} (hfile : s.dec.is_rdb_file = false)
    (havail : s.bptr.avail = data.length + 11)
    (hbuf : s.bptr.buf.ptr.mem.Starts (dump (Encoding.type_byte v) data)) :
    ∃ crc, decode_trailer E s =
      ⟨.ok (), ⟨{ s.dec with ver := 9, crc := crc }, { s.bptr with avail := data.length + 1 }⟩, []⟩ := by
  have hin : (payload v data).In s.bptr.buf.ptr.mem := (payload v data).starts_in (dump_eq v data ▸ hbuf)
  exact ⟨_, (payload v data).decode_trailer_found hin havail (Nat.le_refl 8) hfile
    ((payload v data).decode_ver_plain (s := { s with dec.crc := 0 }) hin havail (.inl rfl))⟩

/-- `decode_hdr` on what is left of a dump: there are no opcodes and no key. -/
theorem decode_type_key_dump {s : St} {c : Place} (v : V) (hs : s.bptr.On c)
    (hfile : s.dec.is_rdb_file = false) {rest : List UInt8}
    (hv : c.Views (Encoding.type_byte v :: ((Encoding.head v).hdr.bytes ++ rest))) :
    ∃ b, decode_type_key E s = ⟨.ok (), ⟨{ s.dec with
        type := Encoding.type v, rlen := RdbLength.ofHeader (Encoding.head v).hdr }, b⟩,
        [⟨.data_out, .d_start_type (Encoding.type v), c.offset⟩]⟩ ∧
      b.On (c.adv (1 + (Encoding.head v).hdr.bytes.length)) := by
  obtain ⟨havail, hbyte⟩ := On_next hs hv
  have htype := Encoding.get_rdb_type_byte v
  rw [← hbyte] at htype
  obtain ⟨b₁, hincr, hon₁⟩ := hs.incr (n := 1) (by rw [hv.1]; simp)
  obtain ⟨b₂, hlen₂, hon₂⟩ := decode_hdr_len_run (s := ⟨{ s.dec with type := Encoding.type v }, b₁⟩)
    (.main hon₁) (Encoding.head v).hdr (Place.Views.adv (show c.Views ([Encoding.type_byte v] ++ _) from hv))
  refine ⟨b₂, ?_, by simpa only [Place.adv_adv] using hon₂⟩
  have hstart : start_type (Encoding.type v) ⟨{ s.dec with type := Encoding.type v }, s.bptr⟩ =
      ⟨.ok (), ⟨{ s.dec with type := Encoding.type v }, s.bptr⟩,
        [⟨.data_out, .d_start_type (Encoding.type v), c.offset⟩]⟩ := by
    rw [start_type, Proc.emit_run, hs.offset]
  have hskip : skip 1 ⟨{ s.dec with type := Encoding.type v }, s.bptr⟩ =
      ⟨.ok (), ⟨{ s.dec with type := Encoding.type v }, b₁⟩, []⟩ := by
    simp only [skip, Proc.update_run, hincr]
  have hdump : ¬ s.dec.is_rdb_file = true := by simp [hfile]
  rw [decode_type_key, Proc.read_bind_run, if_neg havail]
  simp only [htype, if_neg (Encoding.type_ne_bad v), if_neg hdump]
  rw [set_dec, Proc.update_bind_run]
  exact Proc.bind_ok hstart (Proc.bind_ok hskip (Proc.bind_ok hlen₂ rfl))

/-- A dump of a value is decoded to its callbacks, without a key. -/
theorem next_key_dump [Decodes E V] (v : V) (past : Mem) :
    ∃ t o, next_key E (St.start none ⟨.input,
        Mem.ofList (dump (Encoding.type_byte v) (Encoding.data v)) past, 0⟩
        (dump (Encoding.type_byte v) (Encoding.data v)).length) = ⟨.ok (), t, o⟩ ∧
      o.map Event.sent = (.data_out, .d_start_type (Encoding.type v)) ::
        (.data_out, .d_start_key (Encoding.type v) .nil) ::
          ((Encoding.calls v).map (.data_out, ·) ++ [(.data_out, .d_end_key (Encoding.type v))]) := by
  generalize hbytes : dump (Encoding.type_byte v) (Encoding.data v) = bytes
  have hlen := dump_length (Encoding.type_byte v) (Encoding.data v)
  have hmem : (⟨.input, Mem.ofList bytes past, 0⟩ : Cursor).ptr.mem.Starts
      (dump (Encoding.type_byte v) (Encoding.data v)) := by
    rw [hbytes, Cursor.ptr, Mem.add_zero]
    exact Mem.ofList_starts bytes past
  rw [hbytes] at hlen
  -- the trailer, which takes the version and the crc off
  obtain ⟨crc, htrailer⟩ := decode_trailer_dump (E := E) (v := v)
    (s := ⟨{ data_out := true, out := some .data_out },
      RdbBufptr.init ⟨.input, Mem.ofList bytes past, 0⟩ bytes.length⟩) rfl hlen hmem
  have hviews : Place.Views ⟨⟨.input, Mem.ofList bytes past, 0⟩, (Encoding.data v).length + 1, 0, 0⟩
      (Encoding.type_byte v :: ((Encoding.head v).hdr.bytes ++
        ((Encoding.head v).blob ++ Encoding.plain v))) :=
    ⟨rfl, ((payload v (Encoding.data v)).starts_in (dump_eq v (Encoding.data v) ▸ hmem)).value⟩
  -- the type and the header of the value, and its blob
  obtain ⟨b₁, htype, hon₁⟩ := decode_type_key_dump (E := E) v
    (s := ⟨{ data_out := true, out := some .data_out, ver := 9, crc := crc },
      RdbBufptr.init ⟨.input, Mem.ofList bytes past, 0⟩ ((Encoding.data v).length + 1)⟩)
    ⟨rfl, rfl⟩ rfl hviews
  have hv₁ := Place.Views.adv
    (show Place.Views _ ((Encoding.type_byte v :: (Encoding.head v).hdr.bytes) ++ _) from hviews)
  rw [List.length_cons, Nat.add_comm (Encoding.head v).hdr.bytes.length] at hv₁
  obtain ⟨_, b₂, o₂, hunzip, hopen, ho₂⟩ := open_head (Encoding.head v)
    ⟨{ data_out := true, out := some .data_out, ver := 9, crc := crc, type := Encoding.type v
       rlen := RdbLength.ofHeader (Encoding.head v).hdr }, b₁⟩ _ .data_out _ hon₁ hv₁ rfl
  obtain rfl : o₂ = [] := by simpa using ho₂
  obtain ⟨b₃, o₃, hbody, -, ho₃⟩ := Decodes.decode_body_run v
    (s := ⟨{ data_out := true, out := some .data_out, ver := 9, crc := crc, type := Encoding.type v
             rlen := RdbLength.ofHeader (Encoding.head v).hdr }, b₂⟩)
    rfl rfl hopen (show Place.Views _ (Encoding.plain v ++ []) by rw [List.append_nil]; exact hv₁.adv)
  have hhdr : decode_hdr E (St.start none ⟨.input, Mem.ofList bytes past, 0⟩ bytes.length) =
      ⟨.ok (), ⟨{ data_out := true, out := some .data_out, ver := 9, crc := crc
                  type := Encoding.type v, rlen := RdbLength.ofHeader (Encoding.head v).hdr }, b₂⟩,
        [⟨.data_out, .d_start_type (Encoding.type v), 0⟩]⟩ := by
    rw [decode_hdr_fresh rfl rfl rfl]
    exact (Proc.bind_quiet htrailer).trans (Proc.bind_ok htype hunzip)
  refine ⟨_, _, Proc.bind_ok hhdr (Proc.bind_ok hbody rfl), ?_⟩
  rw [List.map_append, List.map_append, ho₃]
  simp only [List.map_nil, List.append_nil]
  rfl

end rdbparser
