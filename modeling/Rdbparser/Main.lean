import Rdbparser.Keys

namespace rdbparser

/-- The buffer for stdin input; a mapped file is one that holds all there is. `mem` also says what
lies past the bytes read, and the bytes an enlarged buffer has before they are written. -/
structure Input where
  mem : Mem
  off : Nat
  size : Nat
  eof : Bool
  stdin : List UInt8

namespace Input

/-- `fread` of the rest of the buffer: all the bytes asked for, unless stdin ends before. -/
def fread (i : Input) : Nat × Input :=
  let bytes := i.stdin.take (i.size - i.off)
  (bytes.length, { i with
    mem := Mem.ofList (i.mem.take i.off ++ bytes) (i.mem.add (i.off + bytes.length))
    stdin := i.stdin.drop (i.size - i.off) })

/-- `fill_buf_stdin`; each turn that goes on has read a byte, so those left bound the turns. An
allocation is assumed to succeed. -/
def fill : Nat → Input → Input
  | 0, i => i
  | fuel + 1, i =>
    match i.fread with
    | (n, i) =>
      if n = 0 then { i with eof := true }
      else
        let i := { i with off := i.off + n }
        if i.off = i.size then
          -- if not an rdb file, is a dump, read it all
          if i.eof ∧ i.mem.take 7 ≠ RdbDecode.magic then fill fuel { i with size := i.size * 2 }
          else { i with eof := false }
        else fill fuel i

def fill_buf_stdin (i : Input) : Input := fill (i.stdin.length + 1) i

/-- A buffer of `size` bytes before the first read; it may hold anything. -/
def stdin_buf (mem : Mem) (size : Nat) (file : List UInt8) : Input :=
  fill_buf_stdin { mem := mem, off := 0, size := size, eof := true, stdin := file }

/-- A mapped file. -/
def map (file : List UInt8) (past : Mem) (size : Nat) : Input :=
  { mem := Mem.ofList file past, off := file.length, size := size, eof := true, stdin := [] }

/-- Fill more buffer from stdin. -/
def refill (i : Input) (b : RdbBufptr) : Input × RdbBufptr :=
  if ¬ i.eof ∧ i.size / 2 < b.offset then
    -- what is left is moved to the start of the buffer
    let i := fill_buf_stdin { i with
      mem := Mem.ofList (b.buf.ptr.mem.take b.avail) (i.mem.add b.avail), off := b.avail }
    (i, { b with
      buf := ⟨.input, i.mem, 0⟩, start_offset := b.start_offset + b.offset, offset := 0
      avail := i.off, sav := if b.sav.blk = .input then { b.sav with mem := i.mem } else b.sav })
  else (i, b)

end Input

/-- What the key loop delivers: for every key its events and the state an output finds after it, then
the events of the call that ends the loop, and what `d_finish` is told. -/
structure MainRun where
  keys : List (List Event × St)
  last : List Event
  success : Bool

namespace MainRun

def events (r : MainRun) : List Event := r.keys.flatMap Prod.fst ++ r.last

/-- The callbacks in the order they are delivered, with their outputs. -/
def trace (r : MainRun) : List (Dest × Callback) := r.events.map Event.sent

def cons (o : List Event) (t : St) (r : MainRun) : MainRun := { r with keys := (o, t) :: r.keys }

end MainRun

/-- Loop through the keys, for at most `fuel` of them: the loop need not end on an input that
expands to keys without an end. -/
def main_loop (E : Env) : Nat → St → Input → Option MainRun
  | 0, _, _ => none
  | fuel + 1, s, i =>
    match next_key E s with
    | ⟨.error e, _, o⟩ => some ⟨[], o, decide (e = .RDB_EOF_MARK)⟩
    | ⟨.ok (), t, o⟩ =>
      match i.refill t.bptr with
      | (i, b) =>
        if b.avail = 0 then some ⟨[(o, t)], [], true⟩ -- no data left
        else (main_loop E fuel { t with bptr := b } i).map (.cons o t)

/-- The loop on the bytes in a buffer. -/
def Input.run (E : Env) (filter : Option (RdbVal → Bool)) (i : Input) (fuel : Nat) :
    Option MainRun :=
  main_loop E fuel (St.start filter ⟨.input, i.mem, 0⟩ i.off) i

/-- The loop ends, and delivers `r`. -/
def Input.Delivers (E : Env) (filter : Option (RdbVal → Bool)) (i : Input) (r : MainRun) : Prop :=
  ∃ fuel, i.run E filter fuel = some r

end rdbparser
