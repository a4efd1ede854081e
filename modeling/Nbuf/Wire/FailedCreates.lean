import Nbuf.Wire.CreateOpen
import Nbuf.Wire.FailedWrites
import Nbuf.Wire.Reserve
import Nbuf.Wire.Serialize

set_option autoImplicit false

/-! # Creations of a builder that get no memory (`lib/pool.c`)

`create` asks for memory four times: for one more pointer in the block of the pool, for the record
of the new buffer, for the `objmeta` and, in `_nbuf_create`, for the object itself. After the first
three refusals the pool is as before. The fourth one goes unnoticed, and a buffer without an object
is entered in the pool.

Here the builder has its memory: the block of pointers that `Wire/Builder.lean` keeps as a list,
and the buffer records at the addresses that `malloc` gave them.
-/

namespace Nbuf

open Align Run ByteMem

/-! ## The allocations of one call -/

/-- The answers of the allocator during one `create`. No object in memory is larger than
`PTRDIFF_MAX` bytes. -/
structure Allocs where
  pool : Realloc
  record : Option Nat
  obj : Realloc
  pool_max : ∀ n, 2 ^ 63 ≤ n → pool n = none

/-- A call of `create`: its arguments and what the allocator answers. -/
structure CreateReq where
  allocs : Allocs
  nelem : Nat
  ssize : Nat
  psize : Nat
  nelem_lt : nelem < 2 ^ 32
  ssize_lt : ssize < 2 ^ 16
  psize_lt : psize < 2 ^ 16

/-- The request with given counts. -/
def CreateReq.ofCounts (allocs : Allocs) (nelem ssize psize : Nat)
    (h : Shape.fits nelem ssize psize = true) : CreateReq where
  allocs := allocs
  nelem := nelem
  ssize := ssize
  psize := psize
  nelem_lt := (Shape.ofCounts nelem ssize psize h).nelem_lt
  ssize_lt := (Shape.ofCounts nelem ssize psize h).ssize_lt
  psize_lt := (Shape.ofCounts nelem ssize psize h).psize_lt

/-- The bytes of the object, its header included and rounded up. -/
def CreateReq.size (c : CreateReq) : Nat := roundUp (8 + elemBytes c.nelem c.ssize c.psize) 8

/-! ## The builder -/

/-- A builder at the address `addr`: the block of pointers of the pool, and the records of the
buffers by their addresses. -/
structure Builder where
  addr : Nat
  block : Buffer
  recs : Nat → Option Buffer

/-- `buffercount` -/
def Builder.buffercount (bd : Builder) : Nat := szSub (bd.block.len / 8) 1

/-- `getbuffer` -/
def Builder.getbuffer (bd : Builder) (i : Nat) : Option Buffer := do
  assertC (sizeT ((i + 1) * 8) < bd.block.len)
  bd.recs (bd.block.mem.load (sizeT ((i + 1) * 8)) 8)

/-- `putbuffer` -/
def Builder.putbuffer (bd : Builder) (i rec : Nat) : Option Builder := do
  assertC (sizeT ((i + 1) * 8) < bd.block.len)
  pure { bd with
    block := { bd.block with mem := bd.block.mem.store (sizeT ((i + 1) * 8)) 8 rec } }

/-- The `objmeta` of a buffer, filled in. -/
def Buffer.putMeta (b : Buffer) (addr id : Nat) : Buffer :=
  { b with mem := (b.mem.store 0 8 addr).store 12 4 id }

/-- What `create` does in the new buffer; the inner `none` is its `free(b)`. The object is created
before the `objmeta` is written, since that may move the block. -/
def newObj (a : Realloc) (addr id nelem ssize psize : Nat) : Option (Option (Buffer × Obj)) := do
  let (ok, b) ← reserve a ⟨fun _ => 0, 0, 0⟩ metaSize
  if ok = false then pure none
  else do
    let (b, o) ← Nbuf.create a { b with len := b.len + metaSize } nelem ssize psize
    assertC (16 ≤ b.extent)
    pure (some (b.putMeta addr id, o))

/-- The end of `create`: the new buffer is entered in the pool. -/
def Builder.enter (bd : Builder) (rec id : Nat) : Option (Buffer × Obj) → Option (Builder × Obj)
  | none => pure (bd, Obj.null)
  | some (b, o) => do
      let block := { bd.block with len := sizeT (bd.block.len + 8) }
      let bd ← Builder.putbuffer ⟨bd.addr, block, Function.update bd.recs rec (some b)⟩ id rec
      pure (bd, o)

/-- `create` in `lib/pool.c` -/
def Builder.create (bd : Builder) (c : CreateReq) : Option (Builder × Obj) := do
  let (ok, block) ← reserve c.allocs.pool bd.block 8
  let bd := { bd with block := block }
  if ok = false then pure (bd, Obj.null)
  else
    match c.allocs.record with
    | none => pure (bd, Obj.null)
    | some rec => do
        -- `meta->id` is a `uint32_t`
        let id := bd.buffercount % 2 ^ 32
        let new ← newObj c.allocs.obj bd.addr id c.nelem c.ssize c.psize
        bd.enter rec id new

/-- What every call of a builder relies on: the block starts with the pointer to the pool itself,
and every other pointer in it is a live record. -/
structure Builder.Good (bd : Builder) : Prop where
  aligned : 8 ∣ bd.block.len
  pos : 8 ≤ bd.block.len
  len_le_cap : bd.block.len ≤ bd.block.cap
  cap_lt : bd.block.cap < 2 ^ 63
  self : bd.block.mem.load 0 8 = bd.addr
  live : ∀ i, i < bd.buffercount → (bd.getbuffer i).isSome

/-- `malloc` returns an address that no live record has. -/
def CreateReq.Fresh (bd : Builder) (c : CreateReq) : Prop :=
  ∀ rec, c.allocs.record = some rec → rec < 2 ^ 64 ∧ bd.recs rec = none

/-! ## The law -/

/-- The buffer holds a new object with the handle `o` behind its `objmeta`. -/
structure NewObj (addr id : Nat) (c : CreateReq) (b : Buffer) (o : Obj) : Prop where
  pool_eq : metaPool b = some addr
  id_eq : metaId b = some id
  header : b.mem.load metaSize 8 = hdrWord c.nelem c.ssize c.psize
  room : metaSize + 8 + elemBytes c.nelem c.ssize c.psize ≤ b.len
  zero : ∀ p, metaSize + 8 ≤ p → p < b.len → b.mem p = 0
  getobj_eq : getobj b = some o

/-- The registered buffers are what they were. -/
def Builder.Keeps (bd bd' : Builder) : Prop :=
  ∀ i, i < bd.buffercount → bd'.getbuffer i = bd.getbuffer i

/-- **All or nothing**: `create` returns, and it leaves the pool as it was or registers one fully
initialised object. -/
def AllOrNothing (bd : Builder) (c : CreateReq) : Prop :=
  ∃ bd' o, bd.create c = some (bd', o) ∧ bd.Keeps bd' ∧
    (bd'.block.len = bd.block.len ∨ bd'.buffercount = bd.buffercount + 1 ∧
      ∃ b, bd'.getbuffer bd.buffercount = some b ∧ NewObj bd.addr bd.buffercount c b o)

/-- Growing the pool by one pointer does not fail. -/
def PoolGrows (a : Realloc) (block : Buffer) : Prop :=
  block.len + 8 ≤ block.cap ∨ (a (2 * block.cap)).isSome

/-- The object fits where it is put: there is memory for its data, and neither its layout nor the
number of objects is out of range. The `objmeta` and an object of at most 48 bytes need one block
of 64 bytes, which is then there already. -/
structure CreateReq.Fits (bd : Builder) (c : CreateReq) : Prop where
  data : c.size ≤ 48 ∨ (c.allocs.obj (2 ^ Nat.clog 2 (metaSize + c.size))).isSome
  aligned : c.psize = 0 ∨ 4 ∣ c.ssize
  bits : c.ssize = 0 → c.psize = 0 → c.nelem < 2 ^ 32 - 7
  count_lt : bd.buffercount < 2 ^ 32

/-- One of the first three allocations fails, or the object fits. -/
def CreateReq.Spared (bd : Builder) (c : CreateReq) : Prop :=
  PoolGrows c.allocs.pool bd.block → c.allocs.record.isSome → (c.allocs.obj 64).isSome → c.Fits bd

/-! ## The block of the pool -/

section

variable {bd : Builder}

theorem Builder.Good.addr_lt (h : bd.Good) : bd.addr < 2 ^ 64 := by
  rw [← h.self]
  exact load_lt _ _ _

theorem Builder.Good.count (h : bd.Good) : bd.block.len = 8 * (bd.buffercount + 1) := by
  have hpos := h.pos
  have hcap := h.len_le_cap
  have hcap' := h.cap_lt
  obtain ⟨n, hn⟩ := h.aligned
  rw [Builder.buffercount, hn, Nat.mul_div_cancel_left n (by decide), szSub_of_le (by omega) (by omega)]
  omega

theorem Builder.getbuffer_of_lt (h : bd.block.len < 2 ^ 64) {i : Nat} (hi : (i + 1) * 8 < bd.block.len) :
    bd.getbuffer i = bd.recs (bd.block.mem.load ((i + 1) * 8) 8) := by
  rw [Builder.getbuffer, sizeT_of_lt (by omega), assertC_pos hi]
  rfl

theorem Builder.putbuffer_of_lt (h : bd.block.len < 2 ^ 64) {i rec : Nat}
    (hi : (i + 1) * 8 < bd.block.len) :
    bd.putbuffer i rec = some { bd with
      block := { bd.block with mem := bd.block.mem.store ((i + 1) * 8) 8 rec } } := by
  rw [Builder.putbuffer, sizeT_of_lt (by omega), assertC_pos hi]
  rfl

/-- **Growing the pool** by one pointer. -/
theorem Builder.Good.reserve (h : bd.Good) {a : Realloc} (hmax : ∀ n, 2 ^ 63 ≤ n → a n = none) :
    (¬ PoolGrows a bd.block ∧ Nbuf.reserve a bd.block 8 = some (false, bd.block)) ∨
    PoolGrows a bd.block ∧ ∃ block, Nbuf.reserve a bd.block 8 = some (true, block) ∧
      block.len = bd.block.len ∧ block.len + 8 ≤ block.cap ∧ block.cap < 2 ^ 63 ∧
      ∀ p, p < bd.block.len → block.mem p = bd.block.mem p := by
  have hpos := h.pos
  have hcap := h.len_le_cap
  have hcap' := h.cap_lt
  have hstart : startCap bd.block = bd.block.cap := by
    unfold startCap
    rw [if_neg (by omega)]
  by_cases hroom : bd.block.len + 8 ≤ bd.block.cap
  · refine Or.inr ⟨Or.inl hroom, bd.block, ?_, rfl, hroom, hcap', fun _ _ => rfl⟩
    have hgrow : growCap bd.block.len 8 65 (startCap bd.block) = some (some bd.block.cap) := by
      rw [hstart, growCap, szSub_of_le hcap (by omega), if_neg (by omega)]
    rw [reserve_of_some hcap hgrow, if_neg (Nat.lt_irrefl _)]
  · -- one doubling is enough
    have hgrow : growCap bd.block.len 8 65 (startCap bd.block) = some (some (2 * bd.block.cap)) := by
      have hsecond : growCap bd.block.len 8 64 (2 * bd.block.cap) = some (some (2 * bd.block.cap)) := by
        rw [growCap, szSub_of_le (by omega) (by omega), if_neg (by omega)]
      rw [hstart, growCap, szSub_of_le hcap (by omega), if_pos (by omega), Nat.mul_comm _ 2,
        sizeT_of_lt (by omega), if_neg (by omega), hsecond]
    rw [reserve_of_some hcap hgrow, if_pos (by omega)]
    cases hfresh : a (2 * bd.block.cap) with
    | none =>
        refine Or.inl ⟨?_, rfl⟩
        rintro (h1 | h1)
        · exact hroom h1
        · rw [hfresh] at h1
          cases h1
    | some fresh =>
        have hlt : 2 * bd.block.cap < 2 ^ 63 := by
          by_contra hbig
          rw [hmax _ (by omega)] at hfresh
          cases hfresh
        refine Or.inr ⟨Or.inr (by rw [hfresh]; rfl), _, rfl, rfl, ?_, hlt, fun p hp => ?_⟩
        · show bd.block.len + 8 ≤ 2 * bd.block.cap
          omega
        · show copy fresh 0 bd.block.mem 0 bd.block.cap p = bd.block.mem p
          rw [copy_inside _ _ _ (Nat.zero_le _) (by omega), Nat.zero_add, Nat.sub_zero]

/-- A builder that differs behind the pointers and in a free record only. -/
theorem Builder.Good.keeps (h : bd.Good) {bd' : Builder} (hlen : bd.block.len ≤ bd'.block.len)
    (hlt : bd'.block.len < 2 ^ 64)
    (hmem : ∀ p, p < bd.block.len → bd'.block.mem p = bd.block.mem p)
    (hrecs : ∀ rec, (bd.recs rec).isSome → bd'.recs rec = bd.recs rec) : bd.Keeps bd' := by
  intro i hi
  have hcount := h.count
  have hget := Builder.getbuffer_of_lt (show bd.block.len < 2 ^ 64 by omega) (i := i) (by omega)
  have hlive := h.live i hi
  rw [hget] at hlive
  have hload : bd'.block.mem.load ((i + 1) * 8) 8 = bd.block.mem.load ((i + 1) * 8) 8 :=
    load_congr fun p _ hp => hmem p (by omega)
  rw [hget, Builder.getbuffer_of_lt hlt (by omega), hload]
  exact hrecs _ hlive

end

/-! ## The new buffer -/

/-- A `realloc` that grants what `a` refuses. -/
def Realloc.filled (a : Realloc) : Realloc := fun n => some ((a n).getD fun _ => 0)

/-- A reservation that does not fail cannot tell the two apart. -/
theorem reserve_filled {a : Realloc} {b b' : Buffer} {inc : Nat}
    (h : reserve a b inc = some (true, b')) : reserve a.filled b inc = some (true, b') := by
  unfold reserve at h ⊢
  rw [assertC_bind_eq_some] at h ⊢
  refine ⟨h.1, ?_⟩
  have h := h.2
  cases hgrow : growCap b.len inc 65 (if b.cap = 0 then 64 else b.cap) with
  | none =>
      rw [hgrow] at h
      cases h
  | some grown =>
      cases grown with
      | none =>
          rw [hgrow] at h
          cases h
      | some cap =>
          rw [hgrow] at h
          simp only [Option.bind_eq_bind, Option.bind_some] at h ⊢
          split_ifs at h ⊢ with hmore
          · cases hfresh : a cap with
            | none =>
                rw [hfresh] at h
                cases h
            | some fresh =>
                rw [hfresh] at h
                rw [Realloc.filled, hfresh]
                exact h
          · exact h

section

variable {a : Realloc} {b : Buffer} {nelem ssize psize : Nat}

theorem createRequest_eq (hlen : b.len ≤ b.cap)
    (hword : (Obj.ofFields b.len nelem ssize psize).psize = 0 ∨
      (Obj.ofFields b.len nelem ssize psize).elemsz % 4 = 0) :
    createRequest b nelem ssize psize = some (Obj.ofFields b.len nelem ssize psize).createSize := by
  have helem := (Obj.ofFields b.len nelem ssize psize).elemsz_lt
  unfold createRequest
  simp only [assertC_pos hlen, assertC_pos hword, assertC_pos (Obj.elemsz_mul_fits _),
    assertC_pos (show (Obj.ofFields b.len nelem ssize psize).elemsz < 2 ^ 32 - 1 by omega)]
  rfl

/-- Pointers that are not aligned are refused. -/
theorem create_misaligned (hword : ¬ ((Obj.ofFields b.len nelem ssize psize).psize = 0 ∨
    (Obj.ofFields b.len nelem ssize psize).elemsz % 4 = 0)) :
    create a b nelem ssize psize = none := by
  rw [Option.eq_none_iff_forall_ne_some]
  intro x h
  unfold create at h
  simp only [assertC_bind_eq_some] at h
  exact hword h.2.2.2.1

theorem create_granted {inc : Nat} {b' : Buffer}
    (hreq : createRequest b nelem ssize psize = some inc)
    (hres : reserve a b inc = some (true, b')) :
    create a b nelem ssize psize = create a.filled b nelem ssize psize := by
  unfold createRequest at hreq
  simp only [assertC_bind_eq_some] at hreq
  obtain ⟨hlen, helem, hmul, hword, hinc⟩ := hreq
  have hinc : (Obj.ofFields b.len nelem ssize psize).createSize = inc := Option.some.inj hinc
  unfold create
  simp only [assertC_pos hlen, assertC_pos helem, assertC_pos hmul, assertC_pos hword, hinc, hres,
    reserve_filled hres]

/-- The block of 64 bytes that holds the `objmeta` has room for 48 more. -/
theorem reserve_data (a : Realloc) (m : ByteMem) {size : Nat} (hsize : size < 2 ^ 52) :
    (¬ (size ≤ 48 ∨ (a (2 ^ Nat.clog 2 (metaSize + size))).isSome) ∧
      reserve a ⟨m, metaSize, 64⟩ size = some (false, ⟨m, metaSize, 64⟩)) ∨
    ((size ≤ 48 ∨ (a (2 ^ Nat.clog 2 (metaSize + size))).isSome) ∧
      ∃ b', reserve a ⟨m, metaSize, 64⟩ size = some (true, b')) := by
  have hgrow : growCap metaSize size 65 (startCap ⟨m, metaSize, 64⟩)
      = some (some (2 ^ max 6 (Nat.clog 2 (metaSize + size)))) :=
    growCap_pow (by unfold metaSize; omega) 65 6 (by decide) (by decide) (by decide)
  have hres := reserve_of_some (a := a) (b := ⟨m, metaSize, 64⟩)
    (show metaSize ≤ 64 by decide) hgrow
  rw [hres]
  by_cases hsmall : size ≤ 48
  · have hlog : Nat.clog 2 (metaSize + size) ≤ 6 :=
      Nat.clog_le_of_le_pow (by unfold metaSize; omega)
    rw [Nat.max_eq_left hlog]
    exact Or.inr ⟨Or.inl hsmall, _, rfl⟩
  · have hlog : 6 < Nat.clog 2 (metaSize + size) :=
      (Nat.lt_clog_iff_pow_lt (by decide)).mpr (by unfold metaSize; omega)
    have hmore : 64 < 2 ^ Nat.clog 2 (metaSize + size) := by
      calc 64 = 2 ^ 6 := by decide
        _ < 2 ^ Nat.clog 2 (metaSize + size) := Nat.pow_lt_pow_right (by decide) hlog
    rw [Nat.max_eq_right (Nat.le_of_lt hlog), if_pos hmore]
    cases hfresh : a (2 ^ Nat.clog 2 (metaSize + size)) with
    | none => exact Or.inl ⟨by simp [hsmall], rfl⟩
    | some fresh => exact Or.inr ⟨Or.inr rfl, _, rfl⟩

end

section

variable {a : Realloc} {addr id nelem ssize psize : Nat}

theorem newObj_refused (h : a 64 = none) : newObj a addr id nelem ssize psize = some none := by
  have hgrow : growCap 0 metaSize 65 (startCap ⟨fun _ => 0, 0, 0⟩) = some (some 64) := by decide
  have hres := reserve_of_some (a := a) (b := ⟨fun _ => 0, 0, 0⟩) (Nat.le_refl _) hgrow
  rw [if_pos (by decide), h] at hres
  unfold newObj
  rw [hres]
  rfl

/-- With the `objmeta` in place, `_nbuf_create` goes on behind it. -/
theorem newObj_eq {fresh : ByteMem} (h : a 64 = some fresh) :
    ∃ m, newObj a addr id nelem ssize psize =
      (create a ⟨m, metaSize, 64⟩ nelem ssize psize).bind fun x =>
        (assertC (16 ≤ x.1.extent)).bind fun _ =>
          some (some (x.1.putMeta addr id, x.2)) := by
  have hgrow : growCap 0 metaSize 65 (startCap ⟨fun _ => 0, 0, 0⟩) = some (some 64) := by decide
  have hres := reserve_of_some (a := a) (b := ⟨fun _ => 0, 0, 0⟩) (Nat.le_refl _) hgrow
  rw [if_pos (by decide), h] at hres
  refine ⟨copy fresh 0 (fun _ => 0) 0 0, ?_⟩
  unfold newObj
  rw [hres]
  rfl

end

/-! ## The four outcomes -/

section

variable {c : CreateReq} {addr id : Nat}

/-- The handle that `_nbuf_create` starts from. -/
def CreateReq.obj (c : CreateReq) : Obj := Obj.ofFields metaSize c.nelem c.ssize c.psize

/-- What `create` does in the new buffer for this call. -/
def CreateReq.newObj (c : CreateReq) (addr id : Nat) : Option (Option (Buffer × Obj)) :=
  Nbuf.newObj c.allocs.obj addr id c.nelem c.ssize c.psize

theorem CreateReq.word_iff (c : CreateReq) :
    (c.obj.psize = 0 ∨ c.obj.elemsz % 4 = 0) ↔ (c.psize = 0 ∨ 4 ∣ c.ssize) := by
  have hs : c.obj.ssize = c.ssize := Obj.ofFields_ssize c.ssize_lt
  have hp : c.obj.psize = c.psize := Obj.ofFields_psize c.psize_lt
  rw [c.obj.elemsz_eq, hs, hp]
  omega

/-- The shape of an object that is in range. -/
def CreateReq.shape (c : CreateReq) (haligned : c.psize = 0 ∨ 4 ∣ c.ssize)
    (hbits : c.ssize = 0 → c.psize = 0 → c.nelem < 2 ^ 32 - 7) : Shape :=
  ⟨c.nelem, c.ssize, c.psize, c.nelem_lt, c.ssize_lt, c.psize_lt, haligned, hbits⟩

theorem CreateReq.shape_blockSize (c : CreateReq) (haligned : c.psize = 0 ∨ 4 ∣ c.ssize)
    (hbits : c.ssize = 0 → c.psize = 0 → c.nelem < 2 ^ 32 - 7) :
    (c.shape haligned hbits).blockSize = c.size := by
  unfold Shape.blockSize CreateReq.size
  rw [Shape.bodySize_eq_elemBytes]
  rfl

theorem CreateReq.createSize_eq (haligned : c.psize = 0 ∨ 4 ∣ c.ssize)
    (hbits : c.ssize = 0 → c.psize = 0 → c.nelem < 2 ^ 32 - 7) : c.obj.createSize = c.size := by
  rw [← c.shape_blockSize haligned hbits, ← (c.shape haligned hbits).createSize_eq metaSize,
    ← (c.shape haligned hbits).ofFields_eq]
  rfl

/-- A vector of too many bits gets no bytes. -/
theorem CreateReq.createSize_wrap (hs : c.ssize = 0) (hp : c.psize = 0)
    (hlarge : 2 ^ 32 - 7 ≤ c.nelem) : c.obj.createSize = 8 := by
  have hs' : c.obj.ssize = 0 := (Obj.ofFields_ssize c.ssize_lt).trans hs
  have hp' : c.obj.psize = 0 := (Obj.ofFields_psize c.psize_lt).trans hp
  have hn : c.obj.nelem = c.nelem := Obj.ofFields_nelem c.nelem_lt
  unfold Obj.createSize
  rw [if_pos ⟨hs', hp'⟩, hn, bitBytes_wrap hlarge c.nelem_lt]
  rfl

/-- The assertion on the alignment of pointers stops the program. -/
theorem CreateReq.newObj_misaligned (hfirst : (c.allocs.obj 64).isSome)
    (h : ¬ (c.psize = 0 ∨ 4 ∣ c.ssize)) : c.newObj addr id = none := by
  obtain ⟨fresh, hfresh⟩ := Option.isSome_iff_exists.mp hfirst
  obtain ⟨m, hnew⟩ := @newObj_eq _ addr id c.nelem c.ssize c.psize _ hfresh
  rw [CreateReq.newObj, hnew, create_misaligned]
  · rfl
  · exact fun hword => h (c.word_iff.mp hword)

/-- **The buffer without an object**: its data is refused and its `objmeta` is kept. -/
theorem CreateReq.newObj_bare (hfirst : (c.allocs.obj 64).isSome)
    (h : c.psize = 0 ∨ 4 ∣ c.ssize) (hdata : ¬ (c.obj.createSize ≤ 48 ∨
      (c.allocs.obj (2 ^ Nat.clog 2 (metaSize + c.obj.createSize))).isSome)) :
    ∃ b, c.newObj addr id = some (some (b, Obj.ofFields metaSize 0 0 0)) ∧ b.len = metaSize := by
  obtain ⟨fresh, hfresh⟩ := Option.isSome_iff_exists.mp hfirst
  obtain ⟨m, hnew⟩ := @newObj_eq _ addr id c.nelem c.ssize c.psize _ hfresh
  have hreq : createRequest ⟨m, metaSize, 64⟩ c.nelem c.ssize c.psize = some c.obj.createSize :=
    createRequest_eq (show metaSize ≤ 64 by decide) (c.word_iff.mpr h)
  rcases reserve_data c.allocs.obj m c.obj.createSize_spec.2 with ⟨-, hres⟩ | ⟨hgrant, -⟩
  · rw [CreateReq.newObj, hnew, create_refused hreq hres]
    exact ⟨_, rfl, rfl⟩
  · exact absurd hgrant hdata

/-- **The buffer with an object**, as far as its memory goes. -/
theorem CreateReq.newObj_run (hfirst : (c.allocs.obj 64).isSome)
    (h : c.psize = 0 ∨ 4 ∣ c.ssize) (hdata : c.obj.createSize ≤ 48 ∨
      (c.allocs.obj (2 ^ Nat.clog 2 (metaSize + c.obj.createSize))).isSome) :
    ∃ (b : Buffer) (m : ByteMem), c.newObj addr id
        = some (some (b.putMeta addr id, { c.obj with base := metaSize + 8 })) ∧
      b.len = metaSize + c.obj.createSize ∧ b.len ≤ b.cap ∧ b.cap < 2 ^ 64 ∧
      b.mem = fill (store m metaSize 8 (hdrWord c.obj.nelem c.obj.ssize c.obj.psize))
        (metaSize + 8) (c.obj.createSize - 8) 0 := by
  obtain ⟨fresh, hfresh⟩ := Option.isSome_iff_exists.mp hfirst
  obtain ⟨m, hnew⟩ := @newObj_eq _ addr id c.nelem c.ssize c.psize _ hfresh
  have hspec := c.obj.createSize_spec
  have hreq : createRequest ⟨m, metaSize, 64⟩ c.nelem c.ssize c.psize = some c.obj.createSize :=
    createRequest_eq (show metaSize ≤ 64 by decide) (c.word_iff.mpr h)
  rcases reserve_data c.allocs.obj m hspec.2 with ⟨hrefuse, -⟩ | ⟨-, b', hres⟩
  · exact absurd hdata hrefuse
  · obtain ⟨b, m', hcreate, hlen, hcap, hcap', -, hmem⟩ :=
      create_run (a := c.allocs.obj.filled) (b := ⟨m, metaSize, 64⟩) (o := c.obj) (fun _ => rfl) rfl
        (c.word_iff.mpr h) (show metaSize ≤ 64 by decide) (show 64 < 2 ^ 64 by decide)
        (show 8 ∣ metaSize by decide) (show metaSize + c.obj.createSize < 2 ^ 63 by
          unfold metaSize
          omega)
    have hext := len_le_extent b
    have hlen' : b.len = metaSize + c.obj.createSize := hlen
    refine ⟨b, m', ?_, hlen', hcap, hcap', hmem⟩
    rw [CreateReq.newObj, hnew, create_granted hreq hres, hcreate, Option.bind_some,
      assertC_pos (by unfold metaSize at hlen'; show 16 ≤ b.extent; omega)]
    rfl

/-- **The new object** of a call that fits. -/
theorem CreateReq.newObj_fits (haddr : addr < 2 ^ 64) (hid : id < 2 ^ 32)
    (hfirst : (c.allocs.obj 64).isSome) (haligned : c.psize = 0 ∨ 4 ∣ c.ssize)
    (hbits : c.ssize = 0 → c.psize = 0 → c.nelem < 2 ^ 32 - 7)
    (hdata : c.size ≤ 48 ∨ (c.allocs.obj (2 ^ Nat.clog 2 (metaSize + c.size))).isSome) :
    ∃ b o, c.newObj addr id = some (some (b, o)) ∧ NewObj addr id c b o ∧
      ObjBuf addr id b (Cell.new (c.shape haligned hbits)) := by
  have hsize := CreateReq.createSize_eq haligned hbits
  have hblk := c.shape_blockSize haligned hbits
  have hle := (c.shape haligned hbits).le_blockSize
  obtain ⟨b, m, hnew, hlen, hcap, hcap', hmem⟩ :=
    @CreateReq.newObj_run c addr id hfirst haligned (by rw [hsize]; exact hdata)
  have hobj : c.obj = (c.shape haligned hbits).obj metaSize :=
    (c.shape haligned hbits).ofFields_eq metaSize
  rw [hsize, ← hblk] at hlen
  rw [hsize, ← hblk, hobj] at hmem
  have hblock : Block b.mem metaSize (Cell.new (c.shape haligned hbits)) fun _ _ => 0 := by
    rw [hmem]
    exact block_new m metaSize (c.shape haligned hbits)
  have hbuf : ObjBuf addr id (b.putMeta addr id) (Cell.new (c.shape haligned hbits)) :=
    ObjBuf.new haddr hid hlen hcap hcap' hblock
  refine ⟨_, _, hnew, ⟨hbuf.metaPool_eq, hbuf.metaId_eq, hbuf.block.hdr, ?_, ?_, ?_⟩, hbuf⟩
  · show metaSize + 8 + elemBytes c.nelem c.ssize c.psize ≤ b.len
    have hbody := (c.shape haligned hbits).bodySize_eq_elemBytes
    have hbody' : elemBytes (c.shape haligned hbits).nelem (c.shape haligned hbits).ssize
      (c.shape haligned hbits).psize = elemBytes c.nelem c.ssize c.psize := rfl
    omega
  · intro p h1 h2
    show ((b.mem.store 0 8 addr).store 12 4 id) p = 0
    have h2 : p < b.len := h2
    rw [store_outside _ (by unfold metaSize at h1; omega),
      store_outside _ (by unfold metaSize at h1; omega), hmem]
    exact fill_inside _ _ h1 (by omega)
  · rw [hbuf.getobj_eq, hobj]
    rfl

end

/-! ## One call -/

section

variable {bd : Builder} {c : CreateReq}

/-- The builder with one more pointer in its block. -/
def Builder.register (bd : Builder) (block : Buffer) (rec : Nat) (b : Buffer) : Builder where
  addr := bd.addr
  block :=
    { block with
      mem := block.mem.store ((bd.buffercount + 1) * 8) 8 rec
      len := block.len + 8 }
  recs := Function.update bd.recs rec (some b)

theorem Builder.register_addr (bd : Builder) (block : Buffer) (rec : Nat) (b : Buffer) :
    (bd.register block rec b).addr = bd.addr := by
  cases bd
  rfl

theorem Builder.register_cap (bd : Builder) (block : Buffer) (rec : Nat) (b : Buffer) :
    (bd.register block rec b).block.cap = block.cap := by
  cases block
  rfl

/-- What `create` comes to once the pool has room for a pointer and there is a record. -/
theorem Builder.create_eq {block : Buffer} {rec : Nat}
    (hres : Nbuf.reserve c.allocs.pool bd.block 8 = some (true, block))
    (hrec : c.allocs.record = some rec) (hlen : block.len = bd.block.len) :
    bd.create c = (c.newObj bd.addr (bd.buffercount % 2 ^ 32)).bind
      (Builder.enter { bd with block := block } rec (bd.buffercount % 2 ^ 32)) := by
  have hid : Builder.buffercount { bd with block := block } = bd.buffercount := by
    rw [Builder.buffercount, hlen, Builder.buffercount]
  rw [← hid]
  unfold Builder.create
  rw [hres, hrec]
  rfl

/-- The pool cannot grow. -/
theorem Builder.Good.create_full (h : bd.Good) (hpool : ¬ PoolGrows c.allocs.pool bd.block) :
    bd.create c = some (bd, Obj.null) := by
  rcases h.reserve c.allocs.pool_max with ⟨-, hres⟩ | ⟨hgrow, -⟩
  · unfold Builder.create
    rw [hres]
    rfl
  · exact absurd hgrow hpool

/-- There is no memory for the record or for the `objmeta`. -/
theorem Builder.Good.create_refused (h : bd.Good) (hpool : PoolGrows c.allocs.pool bd.block)
    (hrefused : c.allocs.record = none ∨ c.allocs.obj 64 = none) :
    ∃ block, bd.create c = some ({ bd with block := block }, Obj.null) ∧
      block.len = bd.block.len ∧ block.len + 8 ≤ block.cap ∧ block.cap < 2 ^ 63 ∧
      ∀ p, p < bd.block.len → block.mem p = bd.block.mem p := by
  rcases h.reserve c.allocs.pool_max with ⟨hfull, -⟩ | ⟨-, block, hres, hblock⟩
  · exact absurd hpool hfull
  · refine ⟨block, ?_, hblock⟩
    cases hrec : c.allocs.record with
    | none =>
        unfold Builder.create
        rw [hres, hrec]
        rfl
    | some rec =>
        have hobj : c.allocs.obj 64 = none := by simpa [hrec] using hrefused
        rw [Builder.create_eq hres hrec hblock.1, CreateReq.newObj, newObj_refused hobj]
        rfl

/-- The new buffer is entered. -/
theorem Builder.Good.create_entered (h : bd.Good) (hpool : PoolGrows c.allocs.pool bd.block)
    {rec : Nat} (hrec : c.allocs.record = some rec) (hcount : bd.buffercount < 2 ^ 32) {b : Buffer}
    {o : Obj} (hnew : c.newObj bd.addr bd.buffercount = some (some (b, o))) :
    ∃ block, bd.create c = some (bd.register block rec b, o) ∧
      block.len = bd.block.len ∧ block.len + 8 ≤ block.cap ∧ block.cap < 2 ^ 63 ∧
      ∀ p, p < bd.block.len → block.mem p = bd.block.mem p := by
  rcases h.reserve c.allocs.pool_max with ⟨hfull, -⟩ | ⟨-, block, hres, hblock⟩
  · exact absurd hpool hfull
  · refine ⟨block, ?_, hblock⟩
    have hlen := hblock.1
    have hlen' := h.count
    have hput := @Builder.putbuffer_of_lt
      ⟨bd.addr, { block with len := block.len + 8 }, Function.update bd.recs rec (some b)⟩
      (show block.len + 8 < 2 ^ 64 by omega) bd.buffercount rec
      (show (bd.buffercount + 1) * 8 < block.len + 8 by omega)
    rw [Builder.create_eq hres hrec hlen, Nat.mod_eq_of_lt hcount, hnew, Option.bind_some,
      Builder.enter]
    show (Builder.putbuffer ⟨bd.addr, { block with len := sizeT (block.len + 8) }, _⟩ _ _).bind _ = _
    rw [sizeT_of_lt (by omega), hput]
    rfl

/-- Nothing is entered only when an allocation before the data fails. -/
theorem Builder.Good.create_len (h : bd.Good) (hpool : PoolGrows c.allocs.pool bd.block)
    (hrec : c.allocs.record.isSome) (hobj : (c.allocs.obj 64).isSome) {bd' : Builder} {o : Obj}
    (hcreate : bd.create c = some (bd', o)) : bd'.block.len = bd.block.len + 8 := by
  rcases h.reserve c.allocs.pool_max with ⟨hfull, -⟩ | ⟨-, block, hres, hlen, hroom, hcap, -⟩
  · exact absurd hpool hfull
  · obtain ⟨rec, hrec⟩ := Option.isSome_iff_exists.mp hrec
    obtain ⟨fresh, hfresh⟩ := Option.isSome_iff_exists.mp hobj
    obtain ⟨m, hnew⟩ :=
      @newObj_eq _ bd.addr (bd.buffercount % 2 ^ 32) c.nelem c.ssize c.psize _ hfresh
    rw [Builder.create_eq hres hrec hlen, CreateReq.newObj, hnew, Option.bind_eq_some_iff] at hcreate
    obtain ⟨new, hnew, henter⟩ := hcreate
    simp only [Option.bind_eq_some_iff] at hnew
    obtain ⟨x, -, -, -, hx⟩ := hnew
    obtain rfl := Option.some.inj hx
    rw [Builder.enter, Option.bind_eq_bind, Option.bind_eq_some_iff] at henter
    obtain ⟨bd₁, hput, henter⟩ := henter
    rw [Builder.putbuffer, assertC_bind_eq_some] at hput
    obtain rfl : bd₁ = bd' := congrArg Prod.fst (Option.some.inj henter)
    obtain rfl := Option.some.inj hput.2
    show sizeT (block.len + 8) = _
    rw [sizeT_of_lt (by omega), hlen]

/-- A builder whose block has been moved to a larger one. -/
theorem Builder.Good.moved (h : bd.Good) {block : Buffer} (hlen : block.len = bd.block.len)
    (hroom : block.len + 8 ≤ block.cap) (hcap : block.cap < 2 ^ 63)
    (hmem : ∀ p, p < bd.block.len → block.mem p = bd.block.mem p) :
    bd.Keeps { bd with block := block } ∧ Builder.Good { bd with block := block } := by
  have hkeeps : bd.Keeps { bd with block := block } :=
    h.keeps (Nat.le_of_eq hlen.symm) (show block.len < 2 ^ 64 by omega) hmem fun _ _ => rfl
  have hcount : Builder.buffercount { bd with block := block } = bd.buffercount := by
    show szSub (block.len / 8) 1 = _
    rw [hlen]
    rfl
  refine ⟨hkeeps, ?_, ?_, ?_, hcap, ?_, fun i hi => ?_⟩
  · show 8 ∣ block.len
    rw [hlen]
    exact h.aligned
  · show 8 ≤ block.len
    rw [hlen]
    exact h.pos
  · show block.len ≤ block.cap
    omega
  · have hpos := h.pos
    exact (load_congr fun p _ hp => hmem p (by omega)).trans h.self
  · rw [hcount] at hi
    rw [hkeeps i hi]
    exact h.live i hi

/-- A builder with one more buffer. -/
theorem Builder.Good.registered (h : bd.Good) {block : Buffer} (hlen : block.len = bd.block.len)
    (hroom : block.len + 8 ≤ block.cap) (hcap : block.cap < 2 ^ 63)
    (hmem : ∀ p, p < bd.block.len → block.mem p = bd.block.mem p) {rec : Nat} (hlt : rec < 2 ^ 64)
    (hfree : bd.recs rec = none) (b : Buffer) :
    bd.Keeps (bd.register block rec b) ∧ (bd.register block rec b).Good ∧
      (bd.register block rec b).buffercount = bd.buffercount + 1 ∧
      (bd.register block rec b).getbuffer bd.buffercount = some b := by
  have hcount := h.count
  have hpos := h.pos
  have hmem' : ∀ p, p < bd.block.len → (bd.register block rec b).block.mem p = bd.block.mem p := by
    intro p hp
    show (block.mem.store ((bd.buffercount + 1) * 8) 8 rec) p = _
    rw [store_outside _ (by omega)]
    exact hmem p hp
  have hlen' : (bd.register block rec b).block.len = bd.block.len + 8 := by
    rw [← hlen]
    rfl
  have hnum : (bd.register block rec b).buffercount = bd.buffercount + 1 := by
    have hdiv : (bd.block.len + 8) / 8 = bd.buffercount + 2 := by omega
    rw [Builder.buffercount, hlen', hdiv, szSub_of_le (by omega) (by omega)]
    omega
  have hkeeps : bd.Keeps (bd.register block rec b) := by
    refine h.keeps (by omega) (by omega) hmem' fun r hr => ?_
    have hne : r ≠ rec := by
      rintro rfl
      rw [hfree] at hr
      cases hr
    exact Function.update_of_ne hne _ _
  have hget : (bd.register block rec b).getbuffer bd.buffercount = some b := by
    have hload : (bd.register block rec b).block.mem.load ((bd.buffercount + 1) * 8) 8 = rec := by
      show (block.mem.store ((bd.buffercount + 1) * 8) 8 rec).load _ 8 = rec
      rw [load_store]
      exact Nat.mod_eq_of_lt hlt
    rw [Builder.getbuffer_of_lt (by omega) (by omega), hload]
    exact Function.update_self _ _ _
  refine ⟨hkeeps, ⟨?_, ?_, ?_, ?_, ?_, fun i hi => ?_⟩, hnum, hget⟩
  · rw [hlen']
    exact Nat.dvd_add h.aligned (Nat.dvd_refl 8)
  · rw [hlen']
    omega
  · rw [hlen', ← hlen, Builder.register_cap]
    exact hroom
  · rw [Builder.register_cap]
    exact hcap
  · have hload : (bd.register block rec b).block.mem.load 0 8 = bd.block.mem.load 0 8 :=
      load_congr fun p _ hp => hmem' p (by omega)
    rw [hload, Builder.register_addr]
    exact h.self
  · rw [hnum] at hi
    by_cases hold : i < bd.buffercount
    · rw [hkeeps i hold]
      exact h.live i hold
    · have hlast : i = bd.buffercount := by omega
      rw [hlast, hget]
      rfl

/-- **A call that is spared** leaves the pool as it was or enters one new object. -/
theorem Builder.Good.create_spared (h : bd.Good) (hfresh : c.Fresh bd) (hspared : c.Spared bd) :
    ∃ bd' o, bd.create c = some (bd', o) ∧ bd'.Good ∧ bd'.addr = bd.addr ∧ bd.Keeps bd' ∧
      (bd'.block.len = bd.block.len ∧ bd'.buffercount = bd.buffercount ∨
        bd'.buffercount = bd.buffercount + 1 ∧ ∃ b sh, bd'.getbuffer bd.buffercount = some b ∧
          NewObj bd.addr bd.buffercount c b o ∧
          ObjBuf bd.addr bd.buffercount b (Cell.new sh)) := by
  have hcount : ∀ block : Buffer, block.len = bd.block.len →
      Builder.buffercount { bd with block := block } = bd.buffercount := by
    intro block hlen
    rw [Builder.buffercount, hlen, Builder.buffercount]
  by_cases hpool : PoolGrows c.allocs.pool bd.block
  · by_cases hrefused : c.allocs.record = none ∨ c.allocs.obj 64 = none
    · obtain ⟨block, hcreate, hlen, hroom, hcap, hmem⟩ := h.create_refused hpool hrefused
      obtain ⟨hkeeps, hgood⟩ := h.moved hlen hroom hcap hmem
      exact ⟨_, _, hcreate, hgood, rfl, hkeeps, Or.inl ⟨hlen, hcount block hlen⟩⟩
    · rw [not_or, ← ne_eq, ← ne_eq, Option.ne_none_iff_isSome, Option.ne_none_iff_isSome] at hrefused
      have hfits := hspared hpool hrefused.1 hrefused.2
      obtain ⟨rec, hrec⟩ := Option.isSome_iff_exists.mp hrefused.1
      obtain ⟨hlt, hfree⟩ := hfresh rec hrec
      obtain ⟨b, o, hnew, hobj, hbuf⟩ := CreateReq.newObj_fits h.addr_lt hfits.count_lt hrefused.2
        hfits.aligned hfits.bits hfits.data
      obtain ⟨block, hcreate, hlen, hroom, hcap, hmem⟩ :=
        h.create_entered hpool hrec hfits.count_lt hnew
      obtain ⟨hkeeps, hgood, hnum, hget⟩ := h.registered hlen hroom hcap hmem hlt hfree b
      exact ⟨_, _, hcreate, hgood, Builder.register_addr _ _ _ _, hkeeps,
        Or.inr ⟨hnum, b, _, hget, hobj, hbuf⟩⟩
  · exact ⟨_, _, h.create_full hpool, h, rfl, fun _ _ => rfl, Or.inl ⟨rfl, rfl⟩⟩

/-- An object whose id does not fit into `meta->id` is none. -/
theorem NewObj.id_lt {addr id : Nat} {b : Buffer} {o : Obj} (h : NewObj addr id c b o) :
    id < 2 ^ 32 := by
  have hid := h.id_eq
  rw [metaId, assertC_bind_eq_some] at hid
  rw [← Option.some.inj hid.2]
  exact load_lt _ _ _

/-- **When `create` is all or nothing.** -/
theorem allOrNothing_of_good (h : bd.Good) (hfresh : c.Fresh bd) :
    AllOrNothing bd c ↔ c.Spared bd := by
  constructor
  · rintro ⟨bd', o, hcreate, -, hcase⟩ hpool hrec hobj
    have hlen := h.create_len hpool hrec hobj hcreate
    rcases hcase with hsame | ⟨-, b, hget, hnew⟩
    · omega
    · have hcount := hnew.id_lt
      obtain ⟨rec, hrec⟩ := Option.isSome_iff_exists.mp hrec
      obtain ⟨hlt, hfree⟩ := hfresh rec hrec
      -- the buffer that is entered is the one that `create` made
      have hroom : ∀ b₀ o₀, c.newObj bd.addr bd.buffercount = some (some (b₀, o₀)) →
          metaSize + 8 + elemBytes c.nelem c.ssize c.psize ≤ b₀.len := by
        intro b₀ o₀ hnew₀
        obtain ⟨block, hentered, hblen, hroom, hcap, hmem⟩ :=
          h.create_entered hpool hrec hcount hnew₀
        rw [hcreate, Option.some.injEq, Prod.mk.injEq] at hentered
        obtain ⟨-, -, -, hget₀⟩ := h.registered hblen hroom hcap hmem hlt hfree b₀
        rw [← hentered.1, hget, Option.some.injEq] at hget₀
        rw [← hget₀]
        exact hnew.room
      have haligned : c.psize = 0 ∨ 4 ∣ c.ssize := by
        by_contra hbad
        rcases h.reserve c.allocs.pool_max with ⟨hfull, -⟩ | ⟨-, block, hres, hblen, -⟩
        · exact hfull hpool
        · rw [Builder.create_eq hres hrec hblen, CreateReq.newObj_misaligned hobj hbad] at hcreate
          cases hcreate
      have hbits : c.ssize = 0 → c.psize = 0 → c.nelem < 2 ^ 32 - 7 := by
        intro hs hp
        by_contra hlarge
        have hsize := CreateReq.createSize_wrap hs hp (by omega)
        obtain ⟨b₀, m, hnew₀, hlen₀, -⟩ := @CreateReq.newObj_run c bd.addr bd.buffercount hobj
          haligned (Or.inl (by omega))
        have hin := hroom _ _ hnew₀
        have hlen₀' : (b₀.putMeta bd.addr bd.buffercount).len = metaSize + 8 := by
          rw [← hsize, ← hlen₀]
          rfl
        rw [hlen₀', elemBytes, if_pos ⟨hs, hp⟩] at hin
        omega
      refine ⟨?_, haligned, hbits, hcount⟩
      by_contra hdata
      rw [← CreateReq.createSize_eq haligned hbits] at hdata
      obtain ⟨b₀, hnew₀, hlen₀⟩ :=
        @CreateReq.newObj_bare c bd.addr bd.buffercount hobj haligned hdata
      have hin := hroom _ _ hnew₀
      omega
  · intro hspared
    obtain ⟨bd', o, hcreate, -, -, hkeeps, hcase⟩ := h.create_spared hfresh hspared
    refine ⟨bd', o, hcreate, hkeeps, ?_⟩
    rcases hcase with ⟨hlen, -⟩ | ⟨hnum, b, -, hget, hnew, -⟩
    · exact Or.inl hlen
    · exact Or.inr ⟨hnum, b, hget, hnew⟩

end

/-! ## A history of calls -/

/-- The builder after a call. -/
def Builder.step (bd : Builder) (c : CreateReq) : Option Builder := (bd.create c).map Prod.fst

/-- The pool as a list of its buffers. -/
structure Builder.View (bd : Builder) (p : Pool) : Prop where
  addr_eq : p.addr = bd.addr
  count_eq : p.bufs.length = bd.buffercount
  getbuffer_eq : ∀ i, i < bd.buffercount → bd.getbuffer i = p.getbuffer i

/-- A call that is spared and gets a free record. -/
def CreateReq.Ok (bd : Builder) (c : CreateReq) : Prop := c.Fresh bd ∧ c.Spared bd

section

variable {bd : Builder} {c : CreateReq} {p : Pool} {heap : Heap}

/-- **One call** of a builder whose buffers are the objects of a heap. -/
theorem Builder.Good.step (h : bd.Good) (hok : c.Ok bd) (hview : bd.View p) (hp : p.Rep heap) :
    ∃ bd' p', bd.step c = some bd' ∧ bd'.Good ∧ bd'.View p' ∧
      ∃ shapes : List Shape, p'.Rep (heap ++ shapes.map Cell.new) := by
  obtain ⟨bd', o, hcreate, hgood, haddr, hkeeps, hcase⟩ := h.create_spared hok.1 hok.2
  have hstep : bd.step c = some bd' := by rw [Builder.step, hcreate]; rfl
  rcases hcase with ⟨-, hcount⟩ | ⟨hcount, b, sh, hget, -, hbuf⟩
  · refine ⟨bd', p, hstep, hgood, ⟨hview.addr_eq.trans haddr.symm, hview.count_eq.trans hcount.symm,
      fun i hi => ?_⟩, [], ?_⟩
    · rw [hcount] at hi
      rw [hkeeps i hi]
      exact hview.getbuffer_eq i hi
    · rw [List.map_nil, List.append_nil]
      exact hp
  · have hlength : bd.buffercount = heap.length := hview.count_eq.symm.trans hp.length_eq
    rw [hlength, ← hview.addr_eq] at hbuf
    refine ⟨bd', { p with bufs := p.bufs ++ [b] }, hstep, hgood,
      ⟨hview.addr_eq.trans haddr.symm, ?_, fun i hi => ?_⟩, [sh], hp.append hbuf⟩
    · rw [List.length_append, hcount, hview.count_eq]
      rfl
    · rw [hcount] at hi
      show bd'.getbuffer i = (p.bufs ++ [b])[i]?
      by_cases hold : i < bd.buffercount
      · rw [hkeeps i hold, List.getElem?_append_left (by rw [hview.count_eq]; exact hold)]
        exact hview.getbuffer_eq i hold
      · have hlast : i = bd.buffercount := by omega
        rw [hlast, hget, ← hview.count_eq, List.getElem?_concat_length]

/-- **Every history of calls that are spared** only adds objects. -/
theorem Builder.Good.run (h : bd.Good) (hview : bd.View p) (hp : p.Rep heap)
    {calls : List CreateReq} (hok : AllSteps Builder.step CreateReq.Ok bd calls) :
    ∃ bd' p', Run.run Builder.step bd calls = some bd' ∧ bd'.View p' ∧
      ∃ shapes : List Shape, p'.Rep (heap ++ shapes.map Cell.new) := by
  induction calls generalizing bd p heap with
  | nil =>
      refine ⟨bd, p, rfl, hview, [], ?_⟩
      rw [List.map_nil, List.append_nil]
      exact hp
  | cons c calls ih =>
      obtain ⟨bd₁, p₁, hstep, hgood₁, hview₁, shapes₁, hp₁⟩ := h.step hok.1 hview hp
      obtain ⟨bd', p', hrun, hview', shapes, hp'⟩ := ih hgood₁ hview₁ hp₁ (hok.2 _ hstep)
      refine ⟨bd', p', ?_, hview', shapes₁ ++ shapes, ?_⟩
      · rw [run_cons_of_eq hstep, hrun]
      · rw [List.map_append, ← List.append_assoc]
        exact hp'

end

/-- **`create` is all or nothing** exactly if an allocation before the data of the object fails or
the object fits. After a history of such calls the pool still consists of objects, and
`nbuf_serialize` copies them and nothing else. -/
theorem create_all_or_nothing {bd : Builder} (h : bd.Good) :
    (∀ c : CreateReq, c.Fresh bd → (AllOrNothing bd c ↔ c.Spared bd)) ∧
      ∀ p heap, bd.View p → p.Rep heap → ∀ calls,
        AllSteps Builder.step CreateReq.Ok bd calls →
          ∃ bd' p', Run.run Builder.step bd calls = some bd' ∧ bd'.View p' ∧
            ∃ shapes : List Shape, p'.Rep (heap ++ shapes.map Cell.new) ∧
              ∀ a : Realloc, a.Total → (heap ++ shapes.map Cell.new).total < 2 ^ 34 →
                ∃ out, p'.serialize a = some (some out) ∧
                  (heap ++ shapes.map Cell.new).Holds out := by
  refine ⟨fun c hfresh => allOrNothing_of_good h hfresh, fun p heap hview hp calls hok => ?_⟩
  obtain ⟨bd', p', hrun, hview', shapes, hp'⟩ := h.run hview hp hok
  refine ⟨bd', p', hrun, hview', shapes, hp', fun a ha htot => ?_⟩
  obtain ⟨out, hout, hholds, -⟩ := hp'.serialize htot ha
  exact ⟨out, hout, hholds⟩

/-! ## A new builder -/

/-- `nbuf_init_builder`; the inner `none` is its `return false`. -/
def Builder.init (a : Realloc) (addr size : Nat) : Option (Option Builder) := do
  let (ok, block) ← reserve a ⟨fun _ => 0, 0, 0⟩ (sizeT ((size + 1) * 8))
  if ok = false then pure none
  else do
    assertC (8 ≤ block.extent)
    pure (some ⟨addr, ⟨block.mem.store 0 8 addr, block.len + 8, block.cap⟩, fun _ => none⟩)

/-- **Every builder starts well**, whatever size it is given. -/
theorem Builder.good_init {a : Realloc} (hmax : ∀ n, 2 ^ 63 ≤ n → a n = none) {addr size : Nat}
    (haddr : addr < 2 ^ 64) {bd : Builder} (h : Builder.init a addr size = some (some bd)) :
    bd.Good ∧ bd.View (initBuilder addr haddr) := by
  obtain ⟨j, -, hend⟩ := growCap_first 0 (sizeT ((size + 1) * 8)) 65 64 (by decide) (by decide)
    (dvd_startCap ⟨fun _ => 0, 0, 0⟩)
  unfold Builder.init at h
  rcases hend with ⟨hgrow, -⟩ | ⟨hgrow, hne, -⟩
  · rw [@reserve_of_none a ⟨fun _ => 0, 0, 0⟩ _ (Nat.le_refl 0) hgrow] at h
    cases h
  · -- the capacity is a multiple of the least one
    have hcap : 64 ≤ doubledCap 64 j := by
      have hdvd : 64 ∣ doubledCap 64 j :=
        (Nat.dvd_mod_iff (show 64 ∣ 2 ^ 64 by decide)).mpr (Nat.dvd_mul_right _ _)
      exact Nat.le_of_dvd (Nat.pos_of_ne_zero hne) hdvd
    have hres := @reserve_of_some a ⟨fun _ => 0, 0, 0⟩ _ _ (Nat.le_refl 0) hgrow
    rw [if_pos (show doubledCap 64 j > 0 by omega)] at hres
    cases hfresh : a (doubledCap 64 j) with
    | none =>
        rw [hfresh] at hres
        rw [hres] at h
        cases h
    | some fresh =>
        have hlt : doubledCap 64 j < 2 ^ 63 := by
          by_contra hbig
          rw [hmax _ (by omega)] at hfresh
          cases hfresh
        rw [hfresh] at hres
        rw [hres] at h
        generalize doubledCap 64 j = cap at h hcap hlt
        simp only [Option.bind_eq_bind, Option.bind_some, Bool.true_eq_false, if_false] at h
        have hext : ∀ m, 8 ≤ Buffer.extent ⟨m, 0, cap⟩ := fun m =>
          Nat.le_trans (show 8 ≤ cap by omega) (cap_le_extent ⟨m, 0, cap⟩)
        rw [assertC_pos (hext _)] at h
        obtain rfl := Option.some.inj (Option.some.inj h)
        have hcount : ∀ m, Builder.buffercount ⟨addr, ⟨m, 0 + 8, cap⟩, fun _ => none⟩ = 0 := fun m => by
          show szSub ((0 + 8) / 8) 1 = 0
          decide
        refine ⟨⟨?_, ?_, ?_, hlt, ?_, fun i hi => ?_⟩, ⟨rfl, (hcount _).symm, fun i hi => ?_⟩⟩
        · exact Nat.dvd_refl 8
        · exact Nat.le_refl 8
        · show 0 + 8 ≤ cap
          omega
        · show (ByteMem.store _ 0 8 addr).load 0 8 = addr
          rw [load_store]
          exact Nat.mod_eq_of_lt haddr
        · rw [hcount] at hi
          exact absurd hi (Nat.not_lt_zero i)
        · rw [hcount] at hi
          exact absurd hi (Nat.not_lt_zero i)

/-- An allocator that grants everything below `PTRDIFF_MAX`. -/
def generous : Realloc := fun n => if n < 2 ^ 63 then some fun _ => 170 else none

theorem generous_max (n : Nat) (h : 2 ^ 63 ≤ n) : generous n = none := if_neg (Nat.not_lt.mpr h)

/-- The builder that it starts with. -/
def startBuilder : Builder :=
  ⟨64, ⟨(copy (fun _ => 170) 0 (fun _ => 0) 0 0).store 0 8 64, 8, 64⟩, fun _ => none⟩

theorem init_startBuilder : Builder.init generous 64 0 = some (some startBuilder) := rfl

theorem startBuilder_good : startBuilder.Good :=
  (Builder.good_init generous_max (by decide) init_startBuilder).1

/-- The creation of a message of 48 bytes; `data` tells whether there is memory for it once the
`objmeta` has its block. -/
def messageReq (data : Bool) : CreateReq :=
  .ofCounts ⟨generous, some 4096, fun n => if n = 64 ∨ data then some fun _ => 170 else none,
    generous_max⟩ 1 48 0 (Eq.refl true)

theorem messageReq_fresh (data : Bool) : (messageReq data).Fresh startBuilder := by
  rintro rec hrec
  obtain rfl := Option.some.inj hrec
  exact ⟨by decide, rfl⟩

/-- **A buffer without an object**: it has its `objmeta` only, `getobj` finds nothing in it, and
`nbuf_serialize` copies from before its block. -/
theorem create_enters_bare_buffer : Builder.init generous 64 0 = some (some startBuilder) ∧
    ¬ AllOrNothing startBuilder (messageReq false) ∧
    ∃ bd o b, startBuilder.create (messageReq false) = some (bd, o) ∧ bd.buffercount = 1 ∧
      bd.getbuffer 0 = some b ∧ b.len = metaSize ∧ getobj b = some Obj.null ∧
      Pool.serialize generous ⟨64, [b], by decide⟩ = none := by
  refine ⟨init_startBuilder, ?_, ?_⟩
  · rw [allOrNothing_of_good startBuilder_good (messageReq_fresh false)]
    intro hspared
    have hdata := (hspared (Or.inl (by decide)) rfl rfl).data
    exact absurd hdata (by decide)
  · unfold startBuilder
    exact ⟨_, _, _, rfl, rfl, rfl, rfl, by decide, by decide⟩

theorem create_all_or_nothing_start :
    AllOrNothing startBuilder (messageReq true) ↔ (messageReq true).Spared startBuilder :=
  (create_all_or_nothing startBuilder_good).1 (messageReq true) (messageReq_fresh true)

end Nbuf
