import Rdbparser.Types

namespace rdbparser

/-- The code outside the repository: liblzf and the C library's allocator. -/
structure Env where
  /-- The bytes `lzf_decompress` writes for an input and an output size; none when it returns 0. -/
  lzf_decompress : List UInt8 → Nat → List UInt8
  /-- Whether the `n`-th `malloc` finds a block of a size; it is NULL if not. -/
  malloc : Nat → Nat → Bool
  /-- What the memory returned by the `n`-th `malloc` holds before it is written. -/
  uninit : Nat → Mem
  /-- The address of a block, of which only the alignment matters. -/
  addr : Block → Nat

/-- A place in a block of memory; unlike a `Ptr` it also allows going back to what lies before. -/
structure Cursor where
  blk : Block
  mem : Mem
  pos : Nat

namespace Cursor

def null : Cursor := ⟨.null, fun _ => 0, 0⟩

def add (c : Cursor) (n : Nat) : Cursor := { c with pos := c.pos + n }

/-- `&c[i]`, to be read forwards. -/
def ptr (c : Cursor) : Ptr := ⟨c.blk, c.mem.add c.pos⟩

@[simp] theorem add_zero (c : Cursor) : c.add 0 = c := rfl

@[simp] theorem add_add (c : Cursor) (m n : Nat) : (c.add m).add n = c.add (m + n) := by
  simp [add, Nat.add_assoc]

@[simp] theorem ptr_blk (c : Cursor) : c.ptr.blk = c.blk := rfl

theorem ptr_mem_add (c : Cursor) (n : Nat) : (c.add n).ptr.mem = c.ptr.mem.add n := by
  simp [ptr, add]

end Cursor

/-- An index into a stream of rdb atoms. The decompression buffers in use are listed by their
allocation number, which `mallocs` counts. -/
structure RdbBufptr where
  buf : Cursor
  avail : Nat
  offset : Nat
  start_offset : Nat
  alloced_mem : List Nat
  sav : Cursor
  sav_avail : Nat
  sav_offset : Nat
  mallocs : Nat

namespace RdbBufptr

def init (b : Cursor) (sz : Nat) : RdbBufptr :=
  { buf := b, avail := sz, offset := 0, start_offset := 0, alloced_mem := [], sav := .null
    sav_avail := 0, sav_offset := 0, mallocs := 0 }

/-- Advance `buf`; `none` when fewer than `amt` bytes are left. -/
def incr (b : RdbBufptr) (amt : Nat) : Option (Ptr × RdbBufptr) :=
  if b.avail < amt then none
  else some (b.buf.ptr,
    { b with buf := b.buf.add amt, avail := b.avail - amt, offset := b.offset + amt })

/-- sizeof( void * ) -/
def PTR_SIZE : Nat := 8

/-- `lzf_decompress` from `zlen` to `len` bytes. `none` stands for what is undefined: a store into a block
that is too small for the pointer in front of the bytes, as its size has wrapped. -/
def decompress (E : Env) (b : RdbBufptr) (zlen len : Nat) : Option (Bool × RdbBufptr) :=
  match b.incr zlen with
  | none => some (false, b)
  | some (z, b) =>
    let id := b.mallocs
    let sz := (PTR_SIZE + len) % 2 ^ 64
    let b := { b with mallocs := id + 1 }
    if ¬ E.malloc id sz then some (false, b)
    else if sz < PTR_SIZE then none
    else
      -- liblzf takes its two sizes as 32 bit integers
      let bytes := E.lzf_decompress (z.mem.take (zlen % 2 ^ 32)) (len % 2 ^ 32)
      if bytes = [] then some (false, b)
      else
        -- push the unconsumed mem after len
        let b := if 0 < b.avail then
          { b with sav := b.buf, sav_avail := b.avail, sav_offset := b.offset } else b
        some (true, { b with buf := ⟨.heap id, Mem.ofList bytes ((E.uninit id).add bytes.length), 0⟩
                             avail := len, offset := 0, alloced_mem := id :: b.alloced_mem })

/-- What `decompress` may return: it is refused with too few bytes left, refused behind them, or the cursor is in
new memory and the place behind the blob saved if bytes are left there. -/
inductive Decompressed (b : RdbBufptr) (zlen len : Nat) : Bool → RdbBufptr → Prop
  | short : Decompressed b zlen len false b
  | refused {z : Ptr} {c : RdbBufptr} (hincr : b.incr zlen = some (z, c)) :
      Decompressed b zlen len false { c with mallocs := c.mallocs + 1 }
  | opened {z : Ptr} {c : RdbBufptr} (hincr : b.incr zlen = some (z, c)) (mem : Mem) :
      Decompressed b zlen len true
        { (if 0 < c.avail then { c with sav := c.buf, sav_avail := c.avail, sav_offset := c.offset } else c) with
          buf := ⟨.heap c.mallocs, mem, 0⟩, avail := len, offset := 0, alloced_mem := c.mallocs :: c.alloced_mem
          mallocs := c.mallocs + 1 }

/-- What `decompress` returns is one of its three outcomes. Nothing is assumed of `lzf_decompress`, of `malloc` or of
the two lengths. -/
theorem decompressed {E : Env} {b c : RdbBufptr} {zlen len : Nat} {more : Bool}
    (h : b.decompress E zlen len = some (more, c)) : b.Decompressed zlen len more c := by
  unfold decompress at h
  cases hincr : b.incr zlen with
  | none =>
    rw [hincr] at h
    cases h
    exact .short
  | some r =>
    obtain ⟨z, b₁⟩ := r
    rw [hincr] at h
    dsimp only at h
    split at h
    · cases h
      exact .refused hincr
    · split at h
      · cases h
      · split at h
        · cases h
          exact .refused hincr
        · next hsome =>
          have hopened := @Decompressed.opened b zlen len z b₁ hincr
            (Mem.ofList (E.lzf_decompress (z.mem.take (zlen % 2 ^ 32)) (len % 2 ^ 32))
              ((E.uninit b₁.mallocs).add (E.lzf_decompress (z.mem.take (zlen % 2 ^ 32)) (len % 2 ^ 32)).length))
          by_cases hleft : 0 < b₁.avail
          · rw [if_pos hleft] at hopened
            rw [if_pos hleft] at h
            cases h
            exact hopened
          · rw [if_neg hleft] at hopened
            rw [if_neg hleft] at h
            cases h
            exact hopened

/-- Take the cursor back to where `decompress` left the buffer. -/
def pop (b : RdbBufptr) : RdbBufptr :=
  { b with buf := b.sav, avail := b.sav_avail, offset := b.sav_offset, sav := .null
           sav_avail := 0, sav_offset := 0 }

def free_alloced (b : RdbBufptr) : RdbBufptr :=
  if b.alloced_mem = [] then b
  else
    let b := { b with alloced_mem := [] }
    if b.avail = 0 then b.pop else b

/-- The next `n` bytes, with zeros past the end; pops back to the main buffer first. -/
def look (b : RdbBufptr) (n : Nat) : Mem × RdbBufptr :=
  let b := if b.avail = 0 ∧ 0 < b.sav_avail then b.pop else b
  (fun i => if i < n ∧ i < b.avail then b.buf.ptr.mem i else 0, b)

end RdbBufptr

end rdbparser
