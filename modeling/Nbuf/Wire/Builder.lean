import Nbuf.Lib.Run
import Nbuf.Wire.Writer

set_option autoImplicit false

/-! # The builder (`lib/pool.c`)

A builder keeps every object in a buffer of its own, so that it can always grow. A pointer holds
the id of its target, and `nbuf_serialize` lays the objects out and turns ids into distances.

The pool is modelled as the list of the buffers it points to. The growth of its block of
pointers and the `malloc` of a buffer structure never fail here; the allocations of the objects
may. Addresses occur in one place: each object keeps the address of its pool.
-/

namespace Nbuf

open Align Run

/-! ## Objects of a pool -/

/-- `NBUF_ROUNDUP(sizeof (struct objmeta), NBUF_ALIGN)`: the bytes before the object of a
buffer. -/
def metaSize : Nat := 16

/-- `meta->pool`, which `getpool` reads as well -/
def metaPool (b : Buffer) : Option Nat := do
  assertC (8 ≤ b.extent)
  pure (b.mem.load 0 8)

/-- `meta->offset` -/
def metaOffset (b : Buffer) : Option Nat := do
  assertC (12 ≤ b.extent)
  pure (b.mem.load 8 4)

/-- `meta->id` -/
def metaId (b : Buffer) : Option Nat := do
  assertC (16 ≤ b.extent)
  pure (b.mem.load 12 4)

/-- `getobj` -/
def getobj (b : Buffer) : Option Obj := objInit b Obj.null metaSize

/-- A pool at the address `addr`. -/
structure Pool where
  addr : Nat
  bufs : List Buffer
  addr_lt : addr < 2 ^ 64

/-- `buffercount` -/
def Pool.buffercount (p : Pool) : Nat := p.bufs.length

/-- `getbuffer` -/
def Pool.getbuffer (p : Pool) (i : Nat) : Option Buffer := p.bufs[i]?

/-- The bytes of the buffer `i` after an operation on it. -/
def Pool.setBuf (p : Pool) (i : Nat) (b : Buffer) : Pool := { p with bufs := p.bufs.set i b }

/-- `nbuf_init_builder`, whose `size` is only a hint. -/
def initBuilder (addr : Nat) (h : addr < 2 ^ 64) : Pool := ⟨addr, [], h⟩

/-! ## Operations -/

/-- `create`: the new buffer and the handle in it. Ids are `uint32_t`; a run with more objects
than that stops here. -/
def Pool.create (a : Realloc) (p : Pool) (nelem ssize psize : Nat) : Option (Pool × Obj) := do
  let (ok, b) ← reserve a ⟨fun _ => 0, 0, 0⟩ metaSize
  if ok = false then pure (p, Obj.null)
  else do
    let (b, o) ← Nbuf.create a { b with len := b.len + metaSize } nelem ssize psize
    assertC (16 ≤ b.extent)
    let id := p.buffercount % 2 ^ 32
    assertC (id = p.buffercount)
    let b := { b with mem := (b.mem.store 0 8 p.addr).store 12 4 id }
    pure ({ p with bufs := p.bufs ++ [b] }, o)

/-- `get_ptr` on a handle `r` into buffer `i`, with the buffer of the result. -/
def Pool.getPtr (p : Pool) (i : Nat) (r : Obj) (x : Nat) : Option (Nat × Obj) := do
  let b ← p.getbuffer i
  let addr ← metaPool b
  assertC (addr = p.addr)
  if x ≥ r.psize then pure (i, Obj.null)
  else do
    let j ← readIntSafe b (r.slot x) 4
    if j = 0 then pure (i, Obj.null)
    else do
      assertC (0 < j ∧ j < p.buffercount)
      let bj ← p.getbuffer j.toNat
      let o ← getobj bj
      pure (j.toNat, o)

/-- `put_ptr` on a handle `r` into buffer `i`, for a target in buffer `t`. -/
def Pool.putPtr (p : Pool) (i : Nat) (r : Obj) (x t : Nat) : Option Pool := do
  let b ← p.getbuffer i
  let bt ← p.getbuffer t
  let addr ← metaPool b
  let addrt ← metaPool bt
  assertC (addr = addrt)
  let id ← metaId bt
  assertC (id < p.buffercount)
  let b ← writeIntSafe b (r.slot x) 4 id
  pure (p.setBuf i b)

/-- `nbuf_put_str` on a builder, with the handle of the string. -/
def Pool.putStr (a : Realloc) (p : Pool) (i : Nat) (r : Obj) (x : Nat) (s : List UInt8)
    (len : Nat) : Option (Pool × Obj) := do
  let len ← strLength s len
  let (p, rr) ← p.create a (len + 1) 1 0
  if rr.nelem = 0 then pure (p, rr)
  else do
    assertC (rr.nelem = sizeT (len + 1))
    let t := p.buffercount - 1
    let b ← p.getbuffer t
    let b ← fillStr b rr s len
    let p ← (p.setBuf t b).putPtr i r x t
    pure (p, rr)

/-! ## Serialization -/

/-- The first pass on object `i`, at the cursor: its offset in words is kept in its `objmeta`. -/
def placeObj (s : Pool × Nat) (i : Nat) : Option (Pool × Nat) := do
  let b ← s.1.getbuffer i
  let o ← getobj b
  assertC (12 ≤ b.extent)
  let b := { b with mem := b.mem.store 8 4 (s.2 / 4) }
  pure (s.1.setBuf i b, nbufRoundup (sizeT (s.2 + 8 + o.totalsz)) 8)

/-- The state of the second pass: the output, the cursor in it and the position in the buffer of
the object that is copied. -/
structure Ser where
  out : Buffer
  cursor : Nat
  src : Nat

/-- `memcpy` from the source to the cursor; both go ahead. -/
def Ser.copy (s : Ser) (b : Buffer) (n : Nat) : Option Ser := do
  assertC (s.src + n ≤ b.extent)
  assertC (s.cursor + n ≤ s.out.extent)
  pure ⟨{ s.out with mem := s.out.mem.copy s.cursor b.mem s.src n }, s.cursor + n, s.src + n⟩

/-- The word for a pointer of object `i` to object `id`: the distance in words from the slot, which
is at the cursor. -/
def Pool.relTo (p : Pool) (i cursor id : Nat) : Option Nat :=
  if id ≠ 0 then do
    assertC (id > i ∧ id < p.buffercount)
    let bt ← p.getbuffer id
    let offset ← metaOffset bt
    pure (szSub offset (cursor / 4))
  else pure 0

/-- One pointer of object `i`. -/
def Ser.copyPtr (p : Pool) (i : Nat) (b : Buffer) (s : Ser) : Option Ser := do
  let id ← (readIntUnsafe b s.src 4).map toU64
  let rel ← p.relTo i s.cursor id
  let out ← writeIntUnsafe s.out s.cursor 4 rel
  pure ⟨out, s.cursor + 4, s.src + 4⟩

/-- One element of object `i`. -/
def Ser.copyElem (p : Pool) (i : Nat) (b : Buffer) (o : Obj) (s : Ser) : Option Ser := do
  let s ← s.copy b o.ssize
  run (fun s _ => s.copyPtr p i b) s (List.range o.psize)

/-- The bytes behind the header of object `i`: an object without pointers is copied as a whole. -/
def Ser.copyBody (p : Pool) (i : Nat) (b : Buffer) (o : Obj) (s : Ser) : Option Ser :=
  if o.psize = 0 then s.copy b o.totalsz
  else run (fun s _ => s.copyElem p i b o) s (List.range o.nelem)

/-- `while (cursor % NBUF_ALIGN) output[cursor++] = 0`: at most seven rounds. -/
def Ser.pad (s : Ser) : Nat → Option Ser
  | 0 => none
  | fuel + 1 =>
      if s.cursor % 8 = 0 then some s
      else do
        let out ← memsetC s.out s.cursor 0 1
        Ser.pad ⟨out, s.cursor + 1, s.src⟩ fuel

/-- The second pass on object `i`. -/
def Ser.copyObj (p : Pool) (s : Ser) (i : Nat) : Option Ser := do
  let b ← p.getbuffer i
  let o ← getobj b
  let offset ← metaOffset b
  assertC (s.cursor = offset * 4)
  let s ← Ser.copy { s with src := szSub o.base 8 } b 8
  let s ← s.copyBody p i b o
  s.pad 8

/-- `nbuf_serialize`: the buffer that takes the place of the pool, or the inner `none` for the
`return false` when there is no memory for it. -/
def Pool.serialize (a : Realloc) (p : Pool) : Option (Option Buffer) := do
  let (p, size) ← run placeObj (p, 0) (List.range p.buffercount)
  match a size with
  | none => pure none
  | some m => do
      let s ← run (Ser.copyObj p) ⟨⟨m, size, size⟩, 0, 0⟩ (List.range p.buffercount)
      pure (some { s.out with len := s.cursor, cap := s.cursor })

end Nbuf
