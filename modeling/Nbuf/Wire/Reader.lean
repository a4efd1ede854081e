import Nbuf.Wire.Buffer

set_option autoImplicit false

/-! # Object handles and the getters (`include/nbuf.h`)

`struct nbuf_obj` is a position in a buffer with the counts of an object header. A handle is
filled in by `objInit` from a header that may come from an untrusted buffer; the getters then
rely on it. The buffer pointer of the structure is the buffer argument of each function.
-/

namespace Nbuf

/-! ## Handles -/

/-- `struct nbuf_obj`. The field types are `size_t`, `uint32_t`, `uint16_t` and `uint16_t`. -/
structure Obj where
  base : Nat
  nelem : Nat
  ssize : Nat
  psize : Nat
  nelem_lt : nelem < 2 ^ 32
  ssize_lt : ssize < 2 ^ 16
  psize_lt : psize < 2 ^ 16
  deriving DecidableEq

/-- A handle with the given fields, each converted to the type of the field. -/
def Obj.ofFields (base nelem ssize psize : Nat) : Obj where
  base := base
  nelem := nelem % 2 ^ 32
  ssize := ssize % 2 ^ 16
  psize := psize % 2 ^ 16
  nelem_lt := Nat.mod_lt _ (by decide)
  ssize_lt := Nat.mod_lt _ (by decide)
  psize_lt := Nat.mod_lt _ (by decide)

/-- The zero-initialised handle `{buf}`. -/
def Obj.null : Obj := Obj.ofFields 0 0 0 0

@[simp] theorem Obj.ofFields_base (base nelem ssize psize : Nat) :
    (Obj.ofFields base nelem ssize psize).base = base := rfl

@[simp] theorem Obj.null_base : Obj.null.base = 0 := rfl

@[simp] theorem Obj.null_nelem : Obj.null.nelem = 0 := rfl

@[simp] theorem Obj.null_ssize : Obj.null.ssize = 0 := rfl

@[simp] theorem Obj.null_psize : Obj.null.psize = 0 := rfl

theorem Obj.ofFields_nelem {base nelem ssize psize : Nat} (h : nelem < 2 ^ 32) :
    (Obj.ofFields base nelem ssize psize).nelem = nelem := Nat.mod_eq_of_lt h

theorem Obj.ofFields_ssize {base nelem ssize psize : Nat} (h : ssize < 2 ^ 16) :
    (Obj.ofFields base nelem ssize psize).ssize = ssize := Nat.mod_eq_of_lt h

theorem Obj.ofFields_psize {base nelem ssize psize : Nat} (h : psize < 2 ^ 16) :
    (Obj.ofFields base nelem ssize psize).psize = psize := Nat.mod_eq_of_lt h

@[ext] theorem Obj.ext {r r' : Obj} (h1 : r.base = r'.base) (h2 : r.nelem = r'.nelem)
    (h3 : r.ssize = r'.ssize) (h4 : r.psize = r'.psize) : r = r' := by
  cases r
  cases r'
  simp only at h1 h2 h3 h4
  subst h1 h2 h3 h4
  rfl

/-- `nbuf_ptr_offs` -/
def Obj.ptrOffs (r : Obj) (i : Nat) : Nat := sizeT (r.ssize + i * 4)

/-- `nbuf_elemsz` -/
def Obj.elemsz (r : Obj) : Nat := r.ptrOffs r.psize

/-- `(nelem + 7) / 8` in 32-bit arithmetic: the bytes of a vector of bits. -/
def bitBytes (nelem : Nat) : Nat := (nelem + 7) % 2 ^ 32 / 8

/-- `nbuf_totalsz` -/
def Obj.totalsz (r : Obj) : Nat :=
  if r.elemsz ≠ 0 then sizeT (r.elemsz * r.nelem) else bitBytes r.nelem

theorem Obj.ptrOffs_eq (r : Obj) {i : Nat} (h : i ≤ r.psize) : r.ptrOffs i = r.ssize + i * 4 := by
  have hs := r.ssize_lt
  have hp := r.psize_lt
  exact sizeT_of_lt (by omega)

theorem Obj.elemsz_eq (r : Obj) : r.elemsz = r.ssize + r.psize * 4 := r.ptrOffs_eq (Nat.le_refl _)

theorem Obj.elemsz_lt (r : Obj) : r.elemsz < 2 ^ 19 := by
  have hs := r.ssize_lt
  have hp := r.psize_lt
  rw [r.elemsz_eq]
  omega

theorem Obj.elemsz_eq_zero_iff (r : Obj) : r.elemsz = 0 ↔ r.ssize = 0 ∧ r.psize = 0 := by
  rw [r.elemsz_eq]
  omega

/-- Elements and counts are small enough for a product of 64-bit numbers. -/
theorem Obj.elemsz_mul_lt (r : Obj) {n : Nat} (h : n < 2 ^ 32) : r.elemsz * n < 2 ^ 51 := by
  calc r.elemsz * n ≤ 2 ^ 19 * n := Nat.mul_le_mul_right n (Nat.le_of_lt r.elemsz_lt)
    _ < 2 ^ 19 * 2 ^ 32 := Nat.mul_lt_mul_of_pos_left h (by decide)
    _ = 2 ^ 51 := by decide

theorem bitBytes_eq {n : Nat} (h : n < 2 ^ 32 - 7) : bitBytes n = (n + 7) / 8 := by
  rw [bitBytes, Nat.mod_eq_of_lt (by omega)]

/-- From `2 ^ 32 - 7` bits on the 32-bit sum wraps around and the size becomes `0`. -/
theorem bitBytes_wrap {n : Nat} (h : 2 ^ 32 - 7 ≤ n) (hn : n < 2 ^ 32) : bitBytes n = 0 := by
  rw [bitBytes]
  omega

theorem Obj.totalsz_of_pos (r : Obj) (h : r.elemsz ≠ 0) : r.totalsz = r.elemsz * r.nelem := by
  have := r.elemsz_mul_lt r.nelem_lt
  rw [Obj.totalsz, if_pos h, sizeT_of_lt (by omega)]

theorem Obj.totalsz_of_bits (r : Obj) (h : r.elemsz = 0) : r.totalsz = bitBytes r.nelem := by
  rw [Obj.totalsz, if_neg (by simp [h])]

theorem Obj.totalsz_lt (r : Obj) : r.totalsz < 2 ^ 51 := by
  by_cases h : r.elemsz = 0
  · rw [r.totalsz_of_bits h, bitBytes]
    omega
  · rw [r.totalsz_of_pos h]
    exact r.elemsz_mul_lt r.nelem_lt

/-! ## Opening an object -/

/-- Conversion of a signed number to `uint64_t` (or `size_t`). -/
def toU64 (v : Int) : Nat := (v % 2 ^ 64).toNat

/-- The header word of an object. -/
def hdrWord (nelem ssize psize : Nat) : Nat := nelem + ssize * 2 ^ 32 + psize * 2 ^ 48

/-- The handle a header word stands for. -/
def hdrObj (base hdr : Nat) : Obj :=
  Obj.ofFields base (hdr % 2 ^ 32) (hdr / 2 ^ 32 % 2 ^ 16) (hdr / 2 ^ 48)

/-- `nbuf_obj_init` -/
def objInit (b : Buffer) (rr : Obj) (base : Nat) : Option Obj := do
  -- can't trust the address
  if boundsCheck b base 8 = false then pure rr
  else do
    let hdr ← (readIntSafe b base 8).map toU64
    let rr := hdrObj (sizeT (base + 8)) hdr
    if rr.nelem > 0 then
      let elemsz := rr.elemsz
      let totalsz := if elemsz = 0 then bitBytes rr.nelem else sizeT (elemsz * rr.nelem)
      -- corrupted/malicious message
      if totalsz = 0 ∨ boundsCheck b rr.base totalsz = false then pure Obj.null
      else pure rr
    else pure rr

/-! ## The getters -/

/-- `nbuf_get_elem` -/
def getElem (r : Obj) (i : Nat) : Obj :=
  if i < r.nelem then
    Obj.ofFields (sizeT (r.base + if r.elemsz = 0 then i / 8 else sizeT (i * r.elemsz))) 1
      (if r.elemsz = 0 then 1 else r.ssize) r.psize
  else Obj.null

theorem getElem_nelem {r : Obj} {i : Nat} (h : i < r.nelem) : (getElem r i).nelem = 1 := by
  rw [getElem, if_pos h, Obj.ofFields_nelem (by decide)]

theorem getElem_psize {r : Obj} {i : Nat} (h : i < r.nelem) : (getElem r i).psize = r.psize := by
  rw [getElem, if_pos h, Obj.ofFields_psize r.psize_lt]

/-- Scalar bytes of one element as its handle shows them: the element of a vector of bits is
the byte that holds it. -/
def Obj.width (r : Obj) : Nat := if r.elemsz = 0 then 1 else r.ssize

/-- Distance of the elements. -/
def Obj.stride (r : Obj) : Nat := r.width + r.psize * 4

/-- The row of an element: its index, or the index of its byte in a vector of bits. -/
def Obj.row (r : Obj) (i : Nat) : Nat := if r.elemsz = 0 then i / 8 else i

/-- The number of rows. -/
def Obj.rows (r : Obj) : Nat := if r.elemsz = 0 then (r.nelem + 7) / 8 else r.nelem

theorem Obj.width_lt (r : Obj) : r.width < 2 ^ 16 := by
  have := r.ssize_lt
  rw [Obj.width]
  split_ifs <;> omega

theorem Obj.stride_pos (r : Obj) : 0 < r.stride := by
  by_cases h0 : r.elemsz = 0
  · simp [Obj.stride, Obj.width, h0]
  · have := r.elemsz_eq
    simp only [Obj.stride, Obj.width, if_neg h0]
    omega

theorem Obj.stride_eq {r : Obj} (h : r.elemsz ≠ 0) : r.stride = r.elemsz := by
  rw [Obj.stride, Obj.width, if_neg h, r.elemsz_eq]

theorem Obj.row_lt_rows {r : Obj} {i : Nat} (h : i < r.nelem) : r.row i < r.rows := by
  rw [Obj.row, Obj.rows]
  split_ifs <;> omega

theorem Obj.rows_mul_stride_lt (r : Obj) : r.rows * r.stride < 2 ^ 51 := by
  have hn := r.nelem_lt
  by_cases h0 : r.elemsz = 0
  · have hp := (r.elemsz_eq_zero_iff.mp h0).2
    have hst : r.stride = 1 := by rw [Obj.stride, Obj.width, if_pos h0, hp]
    rw [hst, Obj.rows, if_pos h0]
    omega
  · rw [Obj.stride_eq h0, Obj.rows, if_neg h0, Nat.mul_comm]
    exact r.elemsz_mul_lt hn

theorem getElem_ssize {r : Obj} {i : Nat} (h : i < r.nelem) : (getElem r i).ssize = r.width := by
  rw [getElem, if_pos h]
  exact Obj.ofFields_ssize r.width_lt

/-- **The position of an element** when the whole vector lies below `2 ^ 64`. -/
theorem getElem_base {r : Obj} {i : Nat} (h : i < r.nelem)
    (hfit : r.base + r.rows * r.stride < 2 ^ 64) :
    (getElem r i).base = r.base + r.row i * r.stride := by
  have hrow : r.row i * r.stride ≤ r.rows * r.stride :=
    Nat.mul_le_mul_right _ (Nat.le_of_lt (Obj.row_lt_rows h))
  rw [getElem, if_pos h, Obj.ofFields_base]
  by_cases h0 : r.elemsz = 0
  · have hst : r.stride = 1 := by
      rw [Obj.stride, Obj.width, if_pos h0, (r.elemsz_eq_zero_iff.mp h0).2]
    rw [hst, Nat.mul_one] at hrow hfit ⊢
    have hrw : r.row i = i / 8 := if_pos h0
    rw [if_pos h0, hrw, sizeT_of_lt (by omega)]
  · have hrw : r.row i = i := if_neg h0
    rw [hrw, Obj.stride_eq h0] at hrow ⊢
    rw [Obj.stride_eq h0] at hfit
    rw [if_neg h0, sizeT_of_lt (n := i * r.elemsz) (by omega), sizeT_of_lt (by omega)]

theorem getElem_elemsz {r : Obj} {i : Nat} (h : i < r.nelem) :
    (getElem r i).elemsz = r.stride := by
  rw [Obj.elemsz_eq, getElem_ssize h, getElem_psize h, Obj.stride]

theorem getElem_of_ge {r : Obj} {i : Nat} (h : r.nelem ≤ i) : getElem r i = Obj.null :=
  if_neg (by omega)

/-- The position of pointer slot `i`. -/
def Obj.slot (r : Obj) (i : Nat) : Nat := sizeT (r.base + r.ptrOffs i)

/-- `nbuf_get_rel_ptr`: a sign-extended word, converted to `size_t`. -/
def getRelPtr (b : Buffer) (r : Obj) (i : Nat) : Option Nat :=
  if i ≥ r.psize then some 0
  else do
    let v ← readIntSafe b (r.slot i) 4
    pure (toU64 v)

theorem getRelPtr_of_ge {b : Buffer} {r : Obj} {i : Nat} (h : r.psize ≤ i) :
    getRelPtr b r i = some 0 := if_pos h

/-- `nbuf_has_ptr` -/
def hasPtr (b : Buffer) (r : Obj) (i : Nat) : Option Bool := do
  let rel ← getRelPtr b r i
  pure (rel != 0)

/-- `_nbuf_get_ptr` -/
def getPtr (b : Buffer) (r : Obj) (i : Nat) : Option Obj := do
  let rel ← getRelPtr b r i
  let base := sizeT (rel * 4)
  if base ≠ 0 then
    let base := sizeT (base + (r.base + r.ptrOffs i))
    if base < b.len then objInit b Obj.null base else pure Obj.null
  else pure Obj.null

/-- `nbuf_get_int` -/
def getInt (b : Buffer) (r : Obj) (byteOffset sz : Nat) : Option Int := do
  assertC (sz ≠ 0 ∧ byteOffset % sz = 0)
  if sizeT (byteOffset + sz) ≤ r.ssize then readIntSafe b (sizeT (r.base + byteOffset)) sz
  else pure 0

/-- `nbuf_get_bit` -/
def getBit (b : Buffer) (r : Obj) (bitOffset : Nat) : Option Bool := do
  let v ← getInt b r (bitOffset / 8) 1
  pure ((v % 256).toNat.testBit (bitOffset % 8))

/-- What `nbuf_get_str` returns: a pointer into the buffer, or `""` when there is no object,
and the length. -/
structure StrRef where
  pos : Option Nat
  len : Nat
  deriving DecidableEq

/-- `nbuf_get_str` -/
def getStr (b : Buffer) (r : Obj) (i : Nat) : Option StrRef := do
  let rr ← getPtr b r i
  if rr.nelem > 0 then do
    assertC (boundsCheck b (sizeT (rr.base + rr.nelem - 1)) 1 = true)
    pure ⟨some rr.base, rr.nelem - 1⟩
  else pure ⟨none, 0⟩

/-- The `len` bytes at the pointer `nbuf_get_str` returned. -/
def StrRef.bytes (b : Buffer) (s : StrRef) : Option (List UInt8) :=
  match s.pos with
  | none => some []
  | some k => readBytes b k s.len

/-! ## Handles of one element -/

/-- Handles that the accessors of a message cannot tell apart: they do not use the number of
elements. -/
structure Obj.Same (r r' : Obj) : Prop where
  base : r.base = r'.base
  ssize : r.ssize = r'.ssize
  psize : r.psize = r'.psize

theorem Obj.Same.refl (r : Obj) : r.Same r := ⟨rfl, rfl, rfl⟩

theorem Obj.Same.trans {r r' r'' : Obj} (h : r.Same r') (h' : r'.Same r'') : r.Same r'' :=
  ⟨h.base.trans h'.base, h.ssize.trans h'.ssize, h.psize.trans h'.psize⟩

section

variable {r r' : Obj} (h : r.Same r')

include h

theorem Obj.Same.ptrOffs (i : Nat) : r.ptrOffs i = r'.ptrOffs i := by
  rw [Obj.ptrOffs, Obj.ptrOffs, h.ssize]

theorem Obj.Same.slot (i : Nat) : r.slot i = r'.slot i := by
  rw [Obj.slot, Obj.slot, h.ptrOffs, h.base]

variable (b : Buffer)

theorem Obj.Same.getInt (k sz : Nat) : getInt b r k sz = getInt b r' k sz := by
  unfold Nbuf.getInt
  rw [h.ssize, h.base]

theorem Obj.Same.getBit (k : Nat) : getBit b r k = getBit b r' k := by
  unfold Nbuf.getBit
  rw [h.getInt]

theorem Obj.Same.getRelPtr (i : Nat) : getRelPtr b r i = getRelPtr b r' i := by
  unfold Nbuf.getRelPtr
  rw [h.psize, h.slot]

theorem Obj.Same.hasPtr (i : Nat) : hasPtr b r i = hasPtr b r' i := by
  unfold Nbuf.hasPtr
  rw [h.getRelPtr]

theorem Obj.Same.getPtr (i : Nat) : getPtr b r i = getPtr b r' i := by
  unfold Nbuf.getPtr
  rw [h.getRelPtr, h.ptrOffs, h.base]

theorem Obj.Same.getStr (i : Nat) : getStr b r i = getStr b r' i := by
  unfold Nbuf.getStr
  rw [h.getPtr]

end

/-! ## What they compute -/

theorem toU64_bmod {n sz : Nat} (hn : n < 256 ^ sz) (hsz : scalarSize sz = true) :
    toU64 ((n : Int).bmod (256 ^ sz)) % 256 ^ sz = n := by
  have hdvd : (256 : Int) ^ sz ∣ 2 ^ 64 := by
    simp only [scalarSize, Bool.or_eq_true, beq_iff_eq] at hsz
    rcases hsz with ((rfl | rfl) | rfl) | rfl <;> decide
  have hint : ((toU64 ((n : Int).bmod (256 ^ sz)) : Nat) : Int)
      = (n : Int).bmod (256 ^ sz) % 2 ^ 64 :=
    Int.toNat_of_nonneg (Int.emod_nonneg _ (by decide))
  have hmod : ((toU64 ((n : Int).bmod (256 ^ sz)) % 256 ^ sz : Nat) : Int) = n := by
    push_cast
    rw [hint, Int.emod_emod_of_dvd _ hdvd]
    have hb := Int.bmod_emod (x := (n : Int)) (m := 256 ^ sz)
    push_cast at hb
    rw [hb]
    exact Int.emod_eq_of_lt (Int.natCast_nonneg n) (by exact_mod_cast hn)
  exact_mod_cast hmod

theorem toU64_bmod_eight {n : Nat} (hn : n < 256 ^ 8) : toU64 ((n : Int).bmod (256 ^ 8)) = n := by
  have h := toU64_bmod hn rfl
  rwa [Nat.mod_eq_of_lt] at h
  have hlt : toU64 ((n : Int).bmod (256 ^ 8)) < 2 ^ 64 := by
    have := Int.emod_lt_of_pos ((n : Int).bmod (256 ^ 8)) (b := 2 ^ 64) (by decide)
    rw [toU64]
    omega
  exact hlt

/-- Does the header at `base` describe an object that lies inside the buffer? This is the
validation `nbuf_obj_init` makes; it is not made for a vector without elements. -/
def Obj.Accepted (b : Buffer) (r : Obj) : Prop :=
  r.nelem > 0 → r.totalsz ≠ 0 ∧ r.base + r.totalsz ≤ b.len

instance (b : Buffer) (r : Obj) : Decidable (r.Accepted b) :=
  inferInstanceAs (Decidable (r.nelem > 0 → _))

theorem objInit_out {b : Buffer} {rr : Obj} {base : Nat} (hlen : b.len < 2 ^ 63)
    (h : b.len < base + 8) : objInit b rr base = some rr := by
  have hchk : boundsCheck b base 8 = false := by
    rw [Bool.eq_false_iff]
    intro hc
    have := (boundsCheck_of_len_lt hlen (by decide)).mp hc
    omega
  simp [objInit, hchk]

/-- **Opening an object** whose header lies inside the buffer. -/
theorem objInit_in {b : Buffer} (rr : Obj) {base : Nat} (hlen : b.len < 2 ^ 63)
    (h : base + 8 ≤ b.len) :
    objInit b rr base = some (if (hdrObj (base + 8) (b.mem.load base 8)).Accepted b
      then hdrObj (base + 8) (b.mem.load base 8) else Obj.null) := by
  have hchk : boundsCheck b base 8 = true := (boundsCheck_of_len_lt hlen (by decide)).mpr h
  have hread : (readIntSafe b base 8).map toU64 = some (b.mem.load base 8) := by
    rw [readIntSafe_of_le rfl h (by omega), Option.map_some,
      toU64_bmod_eight (ByteMem.load_lt _ _ _)]
  have hbase : sizeT (base + 8) = base + 8 := sizeT_of_lt (by omega)
  simp only [objInit, hchk, hread, hbase, Option.bind_eq_bind, Option.bind_some,
    Bool.true_eq_false, if_false]
  generalize hdrObj (base + 8) (b.mem.load base 8) = r
  have htot : (if r.elemsz = 0 then bitBytes r.nelem else sizeT (r.elemsz * r.nelem))
      = r.totalsz := by
    by_cases h0 : r.elemsz = 0
    · rw [if_pos h0, r.totalsz_of_bits h0]
    · rw [if_neg h0, Obj.totalsz, if_pos h0]
  have hbounds : boundsCheck b r.base r.totalsz = false ↔ ¬ r.base + r.totalsz ≤ b.len := by
    have := r.totalsz_lt
    rw [← boundsCheck_of_len_lt hlen (by omega), Bool.not_eq_true]
  rw [htot]
  by_cases hn : r.nelem > 0
  · rw [if_pos hn]
    by_cases hbad : r.totalsz = 0 ∨ boundsCheck b r.base r.totalsz = false
    · rw [if_pos hbad, if_neg]
      · rfl
      · intro hacc
        obtain ⟨h1, h2⟩ := hacc hn
        rcases hbad with h0 | hb
        · exact h1 h0
        · exact (hbounds.mp hb) h2
    · rw [if_neg hbad, if_pos]
      · rfl
      · intro _
        rw [not_or, hbounds, not_not] at hbad
        exact hbad
  · have hacc : r.Accepted b := fun hpos => absurd hpos hn
    rw [if_neg hn, if_pos hacc]
    rfl

theorem hdrObj_hdrWord {base nelem ssize psize : Nat} (hn : nelem < 2 ^ 32)
    (hs : ssize < 2 ^ 16) :
    hdrObj base (hdrWord nelem ssize psize) = Obj.ofFields base nelem ssize psize := by
  have h1 : hdrWord nelem ssize psize % 2 ^ 32 = nelem := by rw [hdrWord]; omega
  have h2 : hdrWord nelem ssize psize / 2 ^ 32 % 2 ^ 16 = ssize := by rw [hdrWord]; omega
  have h3 : hdrWord nelem ssize psize / 2 ^ 48 = psize := by rw [hdrWord]; omega
  rw [hdrObj, h1, h2, h3]

theorem hdrWord_lt {nelem ssize psize : Nat} (hn : nelem < 2 ^ 32) (hs : ssize < 2 ^ 16)
    (_ : psize < 2 ^ 16) : hdrWord nelem ssize psize < 256 ^ 8 := by
  rw [hdrWord]
  omega

end Nbuf
