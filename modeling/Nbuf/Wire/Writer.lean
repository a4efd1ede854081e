import Nbuf.Wire.Reader

set_option autoImplicit false

/-! # The plain writer (`include/nbuf.h`)

An object is created at the end of the buffer and filled in through its handle. The writer
trusts its caller: what the caller must not do is caught by assertions. Pointers are written as
distances in words from their slot.
-/

namespace Nbuf

open Align

/-! ## Creation -/

/-- The bytes of an object in `_nbuf_create`, header included and rounded up. -/
def Obj.createSize (rr : Obj) : Nat :=
  nbufRoundup (sizeT (8 + if rr.ssize = 0 ∧ rr.psize = 0 then bitBytes rr.nelem
    else sizeT (rr.nelem * rr.elemsz))) 8

/-- `_nbuf_create`, with the handle it returns. -/
def create (a : Realloc) (b : Buffer) (nelem ssize psize : Nat) : Option (Buffer × Obj) := do
  let rr := Obj.ofFields b.len nelem ssize psize
  let hdr := hdrWord rr.nelem rr.ssize rr.psize
  let totalsz := rr.createSize
  assertC (b.len ≤ b.cap)
  assertC (rr.elemsz < 2 ^ 32 - 1)
  assertC (rr.elemsz = 0 ∨ (2 ^ 64 - 1) / rr.elemsz > rr.nelem)
  -- pointers must be properly aligned
  assertC (rr.psize = 0 ∨ rr.elemsz % 4 = 0)
  let (ok, b) ← reserve a b totalsz
  if ok = false then pure (b, Obj.ofFields rr.base 0 0 0)
  else do
    assertC (totalsz ≤ szSub b.cap b.len)
    assertC (b.len % 8 = 0)
    let b := { b with len := sizeT (b.len + totalsz) }
    let b ← writeIntSafe b rr.base 8 hdr
    let rr := { rr with base := sizeT (rr.base + 8) }
    let b ← memsetC b rr.base 0 (szSub totalsz 8)
    pure (b, rr)

/-- `nbuf_resize`, with the updated handle. `nelem` is a `size_t` here. -/
def resize (a : Realloc) (b : Buffer) (r : Obj) (nelem : Nat) : Option (Buffer × Obj) := do
  let oldSize := if r.elemsz ≠ 0 then sizeT (r.nelem * r.elemsz) else bitBytes r.nelem
  let newSize := if r.elemsz ≠ 0 then sizeT (nelem * r.elemsz) else sizeT (nelem + 7) / 8
  let oldEnd := nbufRoundup (sizeT (r.base + oldSize)) 8
  let newEnd := nbufRoundup (sizeT (r.base + newSize)) 8
  assertC (nelem < 2 ^ 32 - 1)
  -- resizing an object not at the end of the buffer is not supported
  if oldEnd ≠ b.len then pure (b, r)
  else do
    let (ok, b) ← (if newEnd > oldEnd then reserve a b (newEnd - oldEnd) else some (true, b) :
      Option (Bool × Buffer))
    if ok = false then pure (b, r)
    else do
      assertC (newEnd ≤ b.cap)
      let b ← memsetC b oldEnd 0 (szSub newEnd oldEnd)
      let b := { b with len := newEnd }
      let b ← writeIntSafe b (szSub r.base 8) 4 nelem
      pure (b, Obj.ofFields r.base nelem r.ssize r.psize)

/-! ## Filling in -/

/-- `nbuf_put_int` -/
def putInt (b : Buffer) (r : Obj) (byteOffset sz v : Nat) : Option Buffer := do
  assertC (b.cap ≥ b.len)
  assertC (sz ≠ 0 ∧ byteOffset % sz = 0)
  if sizeT (byteOffset + sz) ≤ r.ssize then writeIntSafe b (sizeT (r.base + byteOffset)) sz v
  else pure b

/-- `nbuf_put_bit` -/
def putBit (b : Buffer) (r : Obj) (bitOffset : Nat) (value : Bool) : Option Buffer := do
  let i := bitOffset / 8
  let j := bitOffset % 8
  if i ≥ r.ssize then pure b
  else do
    let k := sizeT (r.base + i)
    assertC (boundsCheck b k 1 = true)
    assertC (k + 1 ≤ b.extent)
    pure { b with mem := b.mem.putBit k j value }

/-- `_nbuf_put_ptr` in one buffer. `rel` is an `int64_t`. -/
def putPtr (b : Buffer) (r : Obj) (i : Nat) (v : Obj) : Option Buffer := do
  if i ≥ r.psize then pure b
  else do
    let ptrBase := r.slot i
    let hdrBase := szSub v.base 8
    assertC (boundsCheck b hdrBase 8 = true)
    let rel := szSub hdrBase ptrBase
    assertC (0 < rel ∧ rel < 2 ^ 63 ∧ rel % 4 = 0)
    writeIntSafe b ptrBase 4 (rel / 4)

/-- `strlen` of the C string in a block: a block without a NUL is read beyond its end. -/
def strlen (s : List UInt8) : Option Nat := if 0 ∈ s then some (s.idxOf 0) else none

/-- The length `nbuf_put_str` uses: `(size_t) -1` stands for `strlen(s)`. -/
def strLength (s : List UInt8) (len : Nat) : Option Nat :=
  if sizeT (len + 1) = 0 then strlen s else some len

/-- The bytes `nbuf_put_str` fills into the object it created: a copy of `len` bytes of the block
`s` and a NUL. -/
def fillStr (b : Buffer) (rr : Obj) (s : List UInt8) (len : Nat) : Option Buffer := do
  let b ← memcpyC b rr.base (ByteMem.ofList s) s.length len
  memsetC b (rr.base + len) 0 1

/-- `nbuf_put_str` on a plain buffer, with the handle of the string, which the C function
drops. -/
def putStr (a : Realloc) (b : Buffer) (r : Obj) (i : Nat) (s : List UInt8) (len : Nat) :
    Option (Buffer × Obj) := do
  let len ← strLength s len
  let (b, rr) ← create a b (len + 1) 1 0
  if rr.nelem = 0 then pure (b, rr)
  else do
    assertC (rr.nelem = sizeT (len + 1))
    let b ← fillStr b rr s len
    let b ← putPtr b r i rr
    pure (b, rr)

/-! ## What they compute -/

/-- A number or a bit that is put changes the bytes of the buffer only. -/
theorem putInt_mem {b b' : Buffer} {r : Obj} {off sz v : Nat} (h : putInt b r off sz v = some b') :
    ∃ m, b' = { b with mem := m } := by
  rw [putInt, assertC_bind_eq_some] at h
  have h := h.2
  rw [assertC_bind_eq_some] at h
  have h := h.2
  split_ifs at h
  · exact writeIntSafe_mem h
  · exact ⟨b.mem, (Option.some.inj h).symm⟩

theorem putBit_mem {b b' : Buffer} {r : Obj} {off : Nat} {v : Bool}
    (h : putBit b r off v = some b') : ∃ m, b' = { b with mem := m } := by
  unfold putBit at h
  dsimp only at h
  split_ifs at h
  · exact ⟨b.mem, (Option.some.inj h).symm⟩
  · rw [assertC_bind_eq_some] at h
    have h := h.2
    rw [assertC_bind_eq_some] at h
    exact ⟨_, (Option.some.inj h.2).symm⟩

/-- A handle whose rows lie in a buffer that can be written. -/
structure Obj.Writable (b : Buffer) (r : Obj) : Prop where
  rows_fit : r.base + r.rows * r.stride ≤ b.len
  len_le_cap : b.len ≤ b.cap
  len_lt : b.len < 2 ^ 63

/-- The position of row `row` of a vector. -/
def Obj.rowPos (r : Obj) (row : Nat) : Nat := r.base + row * r.stride

theorem Obj.rowPos_add_stride (r : Obj) (row : Nat) :
    r.rowPos (row + 1) = r.rowPos row + r.stride := by
  simp only [Obj.rowPos, Nat.succ_mul]
  omega

theorem Obj.rowPos_le {r : Obj} {row row' : Nat} (h : row ≤ row') : r.rowPos row ≤ r.rowPos row' :=
  Nat.add_le_add_left (Nat.mul_le_mul_right _ h) _

theorem Obj.rowPos_inside {r : Obj} {row : Nat} (h : row < r.rows) :
    r.base ≤ r.rowPos row ∧ r.rowPos row + r.stride ≤ r.base + r.rows * r.stride := by
  have hle := Obj.rowPos_le (r := r) (show row + 1 ≤ r.rows from h)
  rw [Obj.rowPos_add_stride] at hle
  exact ⟨Nat.le_add_right _ _, hle⟩

/-- The bytes of a row lie before the end of the vector. -/
theorem Obj.Writable.row_fits {b : Buffer} {r : Obj} (h : r.Writable b) {row : Nat}
    (hrow : row < r.rows) : r.rowPos row + r.stride ≤ b.len :=
  (Obj.rowPos_inside hrow).2.trans h.rows_fit

theorem Obj.Writable.getElem_base {b : Buffer} {r : Obj} (h : r.Writable b) {k : Nat}
    (hk : k < r.nelem) : (getElem r k).base = r.rowPos (r.row k) :=
  Nbuf.getElem_base hk (by have := h.rows_fit; have := h.len_lt; omega)

theorem width_le_stride (r : Obj) : r.width ≤ r.stride := Nat.le_add_right _ _

theorem Obj.rowPos_apart (r : Obj) {row row' : Nat} (h : row ≠ row') :
    r.rowPos row + r.stride ≤ r.rowPos row' ∨ r.rowPos row' + r.stride ≤ r.rowPos row := by
  rcases Nat.lt_or_gt_of_ne h with hlt | hlt
  · left
    rw [← Obj.rowPos_add_stride]
    exact Obj.rowPos_le hlt
  · right
    rw [← Obj.rowPos_add_stride]
    exact Obj.rowPos_le hlt

/-- The position of slot `x` of element `k`. -/
def Obj.slotPos (r : Obj) (k x : Nat) : Nat := r.rowPos (r.row k) + r.width + x * 4

/-- Slots lie behind the scalar part of their row. -/
theorem Obj.slotPos_inside (r : Obj) (k : Nat) {x : Nat} (hx : x < r.psize) :
    r.rowPos (r.row k) + r.width ≤ r.slotPos k x ∧
      r.slotPos k x + 4 ≤ r.rowPos (r.row k) + r.stride := by
  have hst : r.stride = r.width + r.psize * 4 := rfl
  unfold Obj.slotPos
  omega

/-- The slot that the handle of an element computes. -/
theorem Obj.slot_elem {r : Obj} (hfit : r.base + r.rows * r.stride < 2 ^ 64) {k x : Nat}
    (hk : k < r.nelem) (hx : x < r.psize) : (getElem r k).slot x = r.slotPos k x := by
  have hrow := Obj.rowPos_inside (Obj.row_lt_rows hk)
  have hslot := r.slotPos_inside k hx
  have hbase : (getElem r k).base = r.rowPos (r.row k) := getElem_base hk hfit
  unfold Obj.slot
  rw [Obj.ptrOffs_eq _ (by rw [getElem_psize hk]; omega), hbase, getElem_ssize hk,
    ← Nat.add_assoc]
  exact sizeT_of_lt (by show r.slotPos k x < _; omega)

/-- **Writing a number** through the handle of an element. -/
theorem Obj.Writable.putInt {b : Buffer} {r : Obj} (h : r.Writable b) {k off sz : Nat} (v : Nat)
    (hk : k < r.nelem) (hsz : scalarSize sz = true) (hdvd : sz ∣ off) (hoff : off + sz ≤ r.width) :
    Nbuf.putInt b (getElem r k) off sz v
      = some { b with mem := b.mem.store (r.rowPos (r.row k) + off) sz v } := by
  have hfit := h.row_fits (Obj.row_lt_rows hk)
  have hw := r.width_lt
  have hlen := h.len_lt
  have hpos : sz ≠ 0 := by
    rintro rfl
    exact absurd hsz (by decide)
  have hst := width_le_stride r
  unfold Nbuf.putInt
  rw [assertC_pos h.len_le_cap, assertC_pos ⟨hpos, Nat.mod_eq_zero_of_dvd hdvd⟩, getElem_ssize hk,
    h.getElem_base hk, sizeT_of_lt (by omega), sizeT_of_lt (by omega)]
  simp only [Option.bind_eq_bind, Option.bind_some, if_pos hoff]
  exact writeIntSafe_of_le v hsz (by omega) (by omega)

/-- **Writing a bit** through the handle of an element. -/
theorem Obj.Writable.putBit {b : Buffer} {r : Obj} (h : r.Writable b) {k off : Nat} (v : Bool)
    (hk : k < r.nelem) (hoff : off / 8 < r.width) :
    Nbuf.putBit b (getElem r k) off v
      = some { b with mem := b.mem.putBit (r.rowPos (r.row k) + off / 8) (off % 8) v } := by
  have hfit := h.row_fits (Obj.row_lt_rows hk)
  have hlen := h.len_lt
  have hst := width_le_stride r
  have hin : r.rowPos (r.row k) + off / 8 + 1 ≤ b.len := by omega
  have hext : r.rowPos (r.row k) + off / 8 + 1 ≤ b.extent := Nat.le_trans hin (len_le_extent b)
  have hchk : boundsCheck b (r.rowPos (r.row k) + off / 8) 1 = true :=
    (boundsCheck_iff (by omega)).mpr hin
  unfold Nbuf.putBit
  rw [getElem_ssize hk, h.getElem_base hk, if_neg (by omega), sizeT_of_lt (by omega)]
  simp only [Option.bind_eq_bind, Option.bind_some, hchk, hext, assertC_pos]
  rfl

/-- **Writing a pointer** through the handle of an element, to an object behind the slot. -/
theorem Obj.Writable.putPtr {b : Buffer} {r v : Obj} (h : r.Writable b) {k x : Nat}
    (hk : k < r.nelem) (hx : x < r.psize) (hlt : r.slotPos k x < v.base - 8)
    (hin : v.base ≤ b.len) (hdvd : 4 ∣ v.base - 8 - r.slotPos k x) :
    Nbuf.putPtr b (getElem r k) x v = some { b with
      mem := b.mem.store (r.slotPos k x) 4 ((v.base - 8 - r.slotPos k x) / 4) } := by
  have hlen := h.len_lt
  have hfit := h.rows_fit
  have hslot := Obj.slot_elem (show r.base + r.rows * r.stride < 2 ^ 64 by omega) hk hx
  have hhdr : szSub v.base 8 = v.base - 8 := szSub_of_le (by omega) (by omega)
  have hchk : boundsCheck b (v.base - 8) 8 = true := (boundsCheck_iff (by omega)).mpr (by omega)
  have hrel : szSub (v.base - 8) (r.slotPos k x) = v.base - 8 - r.slotPos k x :=
    szSub_of_le (by omega) (by omega)
  have hassert : 0 < v.base - 8 - r.slotPos k x ∧ v.base - 8 - r.slotPos k x < 2 ^ 63 ∧
      (v.base - 8 - r.slotPos k x) % 4 = 0 := by omega
  unfold Nbuf.putPtr
  rw [getElem_psize hk, if_neg (by omega), hslot]
  simp only [hhdr, hchk, hrel, assertC_pos, hassert, and_self, Option.bind_eq_bind,
    Option.bind_some]
  rw [writeIntSafe_of_le _ rfl (by omega) (by omega)]

/-- A write beyond the width is dropped. -/
theorem Obj.Writable.putInt_out {b : Buffer} {r : Obj} (h : r.Writable b) {k off sz : Nat}
    (v : Nat) (hk : k < r.nelem) (hpos : sz ≠ 0) (hdvd : sz ∣ off) (hoff : r.width < off + sz)
    (hwrap : off + sz < 2 ^ 64) : Nbuf.putInt b (getElem r k) off sz v = some b := by
  unfold Nbuf.putInt
  rw [assertC_pos h.len_le_cap, assertC_pos ⟨hpos, Nat.mod_eq_zero_of_dvd hdvd⟩, getElem_ssize hk,
    sizeT_of_lt hwrap]
  simp only [Option.bind_eq_bind, Option.bind_some, if_neg (show ¬ off + sz ≤ r.width by omega)]
  rfl

theorem putBit_out {b : Buffer} {r : Obj} {k off : Nat} (v : Bool) (hk : k < r.nelem)
    (hoff : r.width ≤ off / 8) : putBit b (getElem r k) off v = some b := by
  unfold putBit
  rw [getElem_ssize hk]
  exact if_pos hoff

/-- **Reading a number** through the handle of an element. -/
theorem getInt_elem {b : Buffer} {r : Obj} (hrows : r.base + r.rows * r.stride ≤ b.len)
    (hlen : b.len < 2 ^ 63) {k off sz : Nat} (hk : k < r.nelem) (hsz : scalarSize sz = true)
    (hdvd : sz ∣ off) (hoff : off + sz ≤ r.width) : getInt b (getElem r k) off sz
      = some ((b.mem.load (r.rowPos (r.row k) + off) sz : Int).bmod (256 ^ sz)) := by
  have hrow := Obj.rowPos_inside (Obj.row_lt_rows hk)
  have hw := r.width_lt
  have hst := width_le_stride r
  have hpos : sz ≠ 0 := by
    rintro rfl
    exact absurd hsz (by decide)
  have hbase : (getElem r k).base = r.rowPos (r.row k) := Nbuf.getElem_base hk (by omega)
  unfold getInt
  rw [assertC_pos ⟨hpos, Nat.mod_eq_zero_of_dvd hdvd⟩, getElem_ssize hk, hbase,
    sizeT_of_lt (by omega), sizeT_of_lt (by omega)]
  simp only [Option.bind_eq_bind, Option.bind_some, if_pos hoff]
  exact readIntSafe_of_le hsz (by omega) (by omega)

/-- A number beyond the width reads as `0`. -/
theorem getInt_elem_out {b : Buffer} {r : Obj} {k off sz : Nat} (hk : k < r.nelem)
    (hpos : sz ≠ 0) (hdvd : sz ∣ off) (hoff : r.width < off + sz) (hwrap : off + sz < 2 ^ 64) :
    getInt b (getElem r k) off sz = some 0 := by
  unfold getInt
  rw [assertC_pos ⟨hpos, Nat.mod_eq_zero_of_dvd hdvd⟩, getElem_ssize hk, sizeT_of_lt hwrap]
  simp only [Option.bind_eq_bind, Option.bind_some, if_neg (show ¬ off + sz ≤ r.width by omega)]
  rfl

/-- The low byte of a sign-extended byte. -/
theorem byte_bmod (x : UInt8) : (((x.toNat : Int).bmod (256 ^ 1)) % 256).toNat = x.toNat := by
  have hx := x.toNat_lt
  have h := Int.bmod_emod (x := (x.toNat : Int)) (m := 256)
  rw [pow_one]
  omega

/-- **Reading a bit** through the handle of an element. -/
theorem getBit_elem {b : Buffer} {r : Obj} (hrows : r.base + r.rows * r.stride ≤ b.len)
    (hlen : b.len < 2 ^ 63) {k off : Nat} (hk : k < r.nelem) (hoff : off / 8 < r.width) :
    getBit b (getElem r k) off
      = some (b.mem.bit (r.rowPos (r.row k) + off / 8) (off % 8)) := by
  have hread : getInt b (getElem r k) (off / 8) 1 = _ :=
    getInt_elem hrows hlen hk rfl (one_dvd _) hoff
  rw [ByteMem.load_one] at hread
  unfold getBit
  rw [hread]
  simp only [Option.bind_eq_bind, Option.bind_some, byte_bmod]
  rfl

theorem getBit_elem_out {b : Buffer} {r : Obj} {k off : Nat} (hk : k < r.nelem)
    (hoff : r.width ≤ off / 8) (hwrap : off < 2 ^ 64) :
    getBit b (getElem r k) off = some false := by
  have hread : getInt b (getElem r k) (off / 8) 1 = some 0 :=
    getInt_elem_out hk one_ne_zero (one_dvd _) (by omega) (by omega)
  unfold getBit
  rw [hread]
  simp

end Nbuf
