import Nbuf.Wire.Writer

set_option autoImplicit false

/-! # Objects and their blocks

A `Cell` is what an object is for: its shape, the scalar bytes of each row and the pointers of
each row to other objects. `Block` says that the bytes of a buffer from some position on are the
object with its header, with `w` giving the word of each pointer. The plain writer and the
builder differ in these words only.
-/

namespace Nbuf

open Align ByteMem

/-! ## Shapes -/

/-- The counts of a header that a writer accepts: pointers are aligned, and a vector of bits is
short enough for the 32-bit sum in its size. -/
structure Shape where
  nelem : Nat
  ssize : Nat
  psize : Nat
  nelem_lt : nelem < 2 ^ 32
  ssize_lt : ssize < 2 ^ 16
  psize_lt : psize < 2 ^ 16
  aligned : psize = 0 ∨ 4 ∣ ssize
  bits_lt : ssize = 0 → psize = 0 → nelem < 2 ^ 32 - 7

/-- The bounds of a shape, to be evaluated on given counts. -/
def Shape.fits (nelem ssize psize : Nat) : Bool :=
  decide (nelem < 2 ^ 32) && decide (ssize < 2 ^ 16) && decide (psize < 2 ^ 16) &&
    (decide (psize = 0) || decide (ssize % 4 = 0)) &&
    (decide (ssize ≠ 0) || decide (psize ≠ 0) || decide (nelem < 2 ^ 32 - 7))

/-- The shape with given counts. -/
def Shape.ofCounts (nelem ssize psize : Nat) (h : Shape.fits nelem ssize psize = true) :
    Shape where
  nelem := nelem
  ssize := ssize
  psize := psize
  nelem_lt := by simp_all [Shape.fits]
  ssize_lt := by simp_all [Shape.fits]
  psize_lt := by simp_all [Shape.fits]
  aligned := by simp_all [Shape.fits]; omega
  bits_lt := by simp_all [Shape.fits]; omega

/-- The handle of an object of this shape. -/
def Shape.obj (sh : Shape) (base : Nat) : Obj where
  base := base
  nelem := sh.nelem
  ssize := sh.ssize
  psize := sh.psize
  nelem_lt := sh.nelem_lt
  ssize_lt := sh.ssize_lt
  psize_lt := sh.psize_lt

@[simp] theorem Shape.obj_base (sh : Shape) (base : Nat) : (sh.obj base).base = base := rfl

@[simp] theorem Shape.obj_nelem (sh : Shape) (base : Nat) : (sh.obj base).nelem = sh.nelem := rfl

@[simp] theorem Shape.obj_ssize (sh : Shape) (base : Nat) : (sh.obj base).ssize = sh.ssize := rfl

@[simp] theorem Shape.obj_psize (sh : Shape) (base : Nat) : (sh.obj base).psize = sh.psize := rfl

theorem Shape.ofFields_eq (sh : Shape) (base : Nat) :
    Obj.ofFields base sh.nelem sh.ssize sh.psize = sh.obj base :=
  Obj.ext rfl (Obj.ofFields_nelem sh.nelem_lt) (Obj.ofFields_ssize sh.ssize_lt)
    (Obj.ofFields_psize sh.psize_lt)

def Shape.width (sh : Shape) : Nat := (sh.obj 0).width

def Shape.stride (sh : Shape) : Nat := (sh.obj 0).stride

def Shape.rows (sh : Shape) : Nat := (sh.obj 0).rows

def Shape.row (sh : Shape) (k : Nat) : Nat := (sh.obj 0).row k

/-- The bytes behind the header. -/
def Shape.bodySize (sh : Shape) : Nat := sh.rows * sh.stride

/-- All bytes of the object, with its header and rounded up. -/
def Shape.blockSize (sh : Shape) : Nat := roundUp (8 + sh.bodySize) 8

@[simp] theorem Shape.obj_width (sh : Shape) (base : Nat) : (sh.obj base).width = sh.width := rfl

@[simp] theorem Shape.obj_stride (sh : Shape) (base : Nat) : (sh.obj base).stride = sh.stride := rfl

@[simp] theorem Shape.obj_rows (sh : Shape) (base : Nat) : (sh.obj base).rows = sh.rows := rfl

@[simp] theorem Shape.obj_row (sh : Shape) (base k : Nat) : (sh.obj base).row k = sh.row k := rfl

@[simp] theorem Shape.obj_elemsz (sh : Shape) (base : Nat) :
    (sh.obj base).elemsz = sh.ssize + sh.psize * 4 := Obj.elemsz_eq _

theorem Shape.stride_eq (sh : Shape) : sh.stride = sh.width + sh.psize * 4 := rfl

theorem Shape.stride_pos (sh : Shape) : 0 < sh.stride := (sh.obj 0).stride_pos

theorem Shape.width_lt (sh : Shape) : sh.width < 2 ^ 16 := (sh.obj 0).width_lt

theorem Shape.row_lt_rows {sh : Shape} {k : Nat} (h : k < sh.nelem) : sh.row k < sh.rows :=
  Obj.row_lt_rows (r := sh.obj 0) h

theorem Shape.bodySize_lt (sh : Shape) : sh.bodySize < 2 ^ 51 := (sh.obj 0).rows_mul_stride_lt

theorem Shape.width_eq (sh : Shape) :
    sh.width = if sh.ssize = 0 ∧ sh.psize = 0 then 1 else sh.ssize := by
  unfold Shape.width Obj.width
  simp only [(sh.obj 0).elemsz_eq_zero_iff, Shape.obj_ssize, Shape.obj_psize]

/-- With pointers, rows consist of whole words. -/
theorem Shape.width_aligned {sh : Shape} (h : 0 < sh.psize) : 4 ∣ sh.width := by
  rcases sh.aligned with h0 | h4
  · omega
  · rw [sh.width_eq, if_neg (by omega)]
    exact h4

theorem Shape.dvd_blockSize (sh : Shape) : 8 ∣ sh.blockSize := dvd_roundUp _ _

theorem Shape.le_blockSize (sh : Shape) : 8 + sh.bodySize ≤ sh.blockSize :=
  le_roundUp (by decide) _

theorem Shape.blockSize_lt (sh : Shape) : sh.blockSize < 2 ^ 52 := by
  have hup := roundUp_lt (show 0 < 8 by decide) (8 + sh.bodySize)
  have hbody := sh.bodySize_lt
  have heq : sh.blockSize = roundUp (8 + sh.bodySize) 8 := rfl
  omega

/-- Elements are their own rows, except in a vector of bits. -/
theorem Shape.row_eq (sh : Shape) (hsh : ¬ (sh.ssize = 0 ∧ sh.psize = 0)) (k : Nat) :
    sh.row k = k := if_neg fun h0 => hsh ((sh.obj 0).elemsz_eq_zero_iff.mp h0)

theorem Shape.row_bits (sh : Shape) (hs : sh.ssize = 0) (hp : sh.psize = 0) (k : Nat) :
    sh.row k = k / 8 := if_pos ((sh.obj 0).elemsz_eq_zero_iff.mpr ⟨hs, hp⟩)

theorem Shape.row_of_psize (sh : Shape) {x : Nat} (hx : x < sh.psize) (k : Nat) : sh.row k = k :=
  sh.row_eq (fun h => by omega) k

/-- `nbuf_totalsz` of the object. -/
theorem Shape.totalsz_eq (sh : Shape) (base : Nat) : (sh.obj base).totalsz = sh.bodySize := by
  by_cases h0 : (sh.obj base).elemsz = 0
  · have hzero : sh.ssize = 0 ∧ sh.psize = 0 := (sh.obj base).elemsz_eq_zero_iff.mp h0
    have hst : sh.stride = 1 := by
      rw [sh.stride_eq, sh.width_eq, if_pos hzero, hzero.2]
    have hrows : sh.rows = (sh.nelem + 7) / 8 := if_pos h0
    rw [Obj.totalsz_of_bits _ h0, Shape.bodySize, hst, hrows, Nat.mul_one]
    exact bitBytes_eq (sh.bits_lt hzero.1 hzero.2)
  · have hrows : sh.rows = sh.nelem := if_neg h0
    have hst : (sh.obj base).elemsz = sh.stride := (Obj.stride_eq h0).symm
    rw [Obj.totalsz_of_pos _ h0, Shape.bodySize, hst, hrows, Nat.mul_comm]
    rfl

/-! ## Objects -/

/-- An object: the scalar bytes of each row, and the number of the object that each pointer of a
row leads to. -/
structure Cell extends Shape where
  scal : Nat → ByteMem
  ptr : Nat → Nat → Option Nat

/-- A new object: zero bytes and no pointers. -/
def Cell.new (sh : Shape) : Cell := { sh with scal := fun _ _ => 0, ptr := fun _ _ => none }

/-- Put a number into a row. -/
def Cell.putInt (c : Cell) (row off sz v : Nat) : Cell :=
  { c with scal := Function.update c.scal row ((c.scal row).store off sz v) }

/-- Put a bit into a row. -/
def Cell.putBit (c : Cell) (row off : Nat) (v : Bool) : Cell :=
  { c with scal := Function.update c.scal row ((c.scal row).putBit (off / 8) (off % 8) v) }

/-- Let a pointer of a row lead to object `t`. -/
def Cell.putPtr (c : Cell) (row i t : Nat) : Cell :=
  { c with ptr := Function.update c.ptr row (Function.update (c.ptr row) i (some t)) }

/-- Fill in the bytes of a vector of bytes. -/
def Cell.putBytes (c : Cell) (str : List UInt8) : Cell :=
  { c with scal := fun row _ => str.getD row 0 }

/-- Put a number into element `k`; one that does not fit is dropped. -/
def Cell.setInt (c : Cell) (k off sz v : Nat) : Cell :=
  if off + sz ≤ c.width then c.putInt (c.row k) off sz v else c

/-- Put a bit into element `k`; one that does not fit is dropped. -/
def Cell.setBit (c : Cell) (k off : Nat) (v : Bool) : Cell :=
  if off / 8 < c.width then c.putBit (c.row k) off v else c

@[simp] theorem Cell.new_toShape (sh : Shape) : (Cell.new sh).toShape = sh := rfl

@[simp] theorem Cell.putInt_toShape (c : Cell) (row off sz v : Nat) :
    (c.putInt row off sz v).toShape = c.toShape := rfl

@[simp] theorem Cell.putBit_toShape (c : Cell) (row off : Nat) (v : Bool) :
    (c.putBit row off v).toShape = c.toShape := rfl

@[simp] theorem Cell.putPtr_toShape (c : Cell) (row i t : Nat) :
    (c.putPtr row i t).toShape = c.toShape := rfl

@[simp] theorem Cell.setInt_toShape (c : Cell) (k off sz v : Nat) :
    (c.setInt k off sz v).toShape = c.toShape := by
  unfold Cell.setInt
  split_ifs <;> rfl

@[simp] theorem Cell.setBit_toShape (c : Cell) (k off : Nat) (v : Bool) :
    (c.setBit k off v).toShape = c.toShape := by
  unfold Cell.setBit
  split_ifs <;> rfl

theorem Cell.setInt_ptr (c : Cell) (k off sz v : Nat) : (c.setInt k off sz v).ptr = c.ptr := by
  unfold Cell.setInt
  split_ifs <;> rfl

theorem Cell.setBit_ptr (c : Cell) (k off : Nat) (v : Bool) : (c.setBit k off v).ptr = c.ptr := by
  unfold Cell.setBit
  split_ifs <;> rfl

/-! ## Resizing -/

/-- May a vector of this shape have `n` elements? -/
def Shape.CanHave (sh : Shape) (n : Nat) : Prop :=
  n < 2 ^ 32 - 1 ∧ (sh.ssize = 0 → sh.psize = 0 → n < 2 ^ 32 - 7)

instance (sh : Shape) (n : Nat) : Decidable (sh.CanHave n) :=
  inferInstanceAs (Decidable (n < 2 ^ 32 - 1 ∧ (sh.ssize = 0 → sh.psize = 0 → n < 2 ^ 32 - 7)))

/-- The shape with another number of elements. -/
def Shape.withNelem (sh : Shape) (n : Nat) (h : sh.CanHave n) : Shape :=
  { sh with nelem := n, nelem_lt := by have := h.1; omega, bits_lt := h.2 }

/-- Resize a vector: new rows are zero and have no pointers. -/
def Cell.resize (c : Cell) (n : Nat) (h : c.CanHave n) : Cell :=
  { c.toShape.withNelem n h with
    scal := fun row => if row < c.rows then c.scal row else fun _ => 0
    ptr := fun row => if row < c.rows then c.ptr row else fun _ => none }

/-- `resize` where it is possible. -/
def Cell.setNelem (c : Cell) (n : Nat) : Cell := if h : c.CanHave n then c.resize n h else c

theorem Cell.setNelem_eq {c : Cell} {n : Nat} (h : c.CanHave n) : c.setNelem n = c.resize n h :=
  dif_pos h

@[simp] theorem Cell.resize_toShape (c : Cell) (n : Nat) (h : c.CanHave n) :
    (c.resize n h).toShape = c.toShape.withNelem n h := rfl

theorem Shape.withNelem_width (sh : Shape) {n : Nat} (h : sh.CanHave n) :
    (sh.withNelem n h).width = sh.width := by
  rw [Shape.width_eq, sh.width_eq]
  rfl

theorem Shape.withNelem_stride (sh : Shape) {n : Nat} (h : sh.CanHave n) :
    (sh.withNelem n h).stride = sh.stride := by
  rw [Shape.stride_eq, sh.stride_eq, sh.withNelem_width h]
  rfl

theorem Shape.rows_eq (sh : Shape) :
    sh.rows = if sh.ssize = 0 ∧ sh.psize = 0 then (sh.nelem + 7) / 8 else sh.nelem := by
  unfold Shape.rows Obj.rows
  simp only [(sh.obj 0).elemsz_eq_zero_iff, Shape.obj_ssize, Shape.obj_psize, Shape.obj_nelem]

theorem Shape.rows_le_withNelem (sh : Shape) {n : Nat} (h : sh.CanHave n) (hle : sh.nelem ≤ n) :
    sh.rows ≤ (sh.withNelem n h).rows := by
  rw [sh.rows_eq, Shape.rows_eq]
  show _ ≤ if sh.ssize = 0 ∧ sh.psize = 0 then (n + 7) / 8 else n
  split_ifs
  · omega
  · exact hle

theorem Shape.bodySize_le_withNelem (sh : Shape) {n : Nat} (h : sh.CanHave n)
    (hle : sh.nelem ≤ n) : sh.bodySize ≤ (sh.withNelem n h).bodySize := by
  unfold Shape.bodySize
  rw [sh.withNelem_stride h]
  exact Nat.mul_le_mul_right _ (sh.rows_le_withNelem h hle)

theorem Shape.blockSize_le_withNelem (sh : Shape) {n : Nat} (h : sh.CanHave n)
    (hle : sh.nelem ≤ n) : sh.blockSize ≤ (sh.withNelem n h).blockSize :=
  roundUp_mono (by decide) (Nat.add_le_add_left (sh.bodySize_le_withNelem h hle) 8)

/-! ## Strings -/

/-- The shape of a string of `n` bytes and its NUL. -/
def strShape (n : Nat) : Shape where
  nelem := (n + 1) % 2 ^ 32
  ssize := 1
  psize := 0
  nelem_lt := Nat.mod_lt _ (by decide)
  ssize_lt := by decide
  psize_lt := by decide
  aligned := Or.inl rfl
  bits_lt := fun h => absurd h (by decide)

/-- The shape of a string that is short enough. -/
theorem strShape_nelem {n : Nat} (hn : n + 1 < 2 ^ 32) : (strShape n).nelem = n + 1 :=
  Nat.mod_eq_of_lt hn

theorem strShape_width (n : Nat) : (strShape n).width = 1 := (strShape n).width_eq

theorem strShape_rows (n : Nat) : (strShape n).rows = (strShape n).nelem := rfl

theorem ofFields_strShape (base n : Nat) :
    Obj.ofFields base (n + 1) 1 0 = (strShape n).obj base := rfl

/-- The object of a string. -/
def strCell (s : List UInt8) : Cell := (Cell.new (strShape s.length)).putBytes s

theorem strCell_take_toShape {str : List UInt8} {n : Nat} (h : n ≤ str.length) :
    (strCell (str.take n)).toShape = strShape n := by
  show strShape (str.take n).length = _
  rw [List.length_take, Nat.min_eq_left h]

/-! ## Rows -/

/-- The position of a row of an object whose header is at `base`. -/
def Shape.rowPos (sh : Shape) (base row : Nat) : Nat := (sh.obj (base + 8)).rowPos row

theorem Shape.rowPos_eq (sh : Shape) (base row : Nat) :
    sh.rowPos base row = base + 8 + row * sh.stride := rfl

theorem Shape.rowPos_apart (sh : Shape) (base : Nat) {row row' : Nat} (h : row ≠ row') :
    sh.rowPos base row + sh.stride ≤ sh.rowPos base row' ∨
      sh.rowPos base row' + sh.stride ≤ sh.rowPos base row :=
  (sh.obj (base + 8)).rowPos_apart h

theorem Shape.rowPos_inside (sh : Shape) (base : Nat) {row : Nat} (h : row < sh.rows) :
    base + 8 ≤ sh.rowPos base row ∧
      sh.rowPos base row + sh.stride ≤ base + 8 + sh.bodySize := by
  have hle : (row + 1) * sh.stride ≤ sh.rows * sh.stride := Nat.mul_le_mul_right _ h
  rw [Nat.succ_mul] at hle
  rw [sh.rowPos_eq, Shape.bodySize]
  omega

/-- The position of pointer slot `i` of a row. -/
def Shape.slotPos (sh : Shape) (base row i : Nat) : Nat := sh.rowPos base row + sh.width + i * 4

theorem Shape.slotPos_inside (sh : Shape) (base row : Nat) {i : Nat} (hi : i < sh.psize) :
    sh.rowPos base row + sh.width ≤ sh.slotPos base row i ∧
      sh.slotPos base row i + 4 ≤ sh.rowPos base row + sh.stride := by
  have hst := sh.stride_eq
  unfold Shape.slotPos
  omega

/-! ## Blocks -/

/-- The bytes of `m` from `base` on are the object `c`, with `w row i` in pointer slot `i` of each
row. -/
structure Block (m : ByteMem) (base : Nat) (c : Cell) (w : Nat → Nat → Nat) : Prop where
  hdr : load m base 8 = hdrWord c.nelem c.ssize c.psize
  scal : ∀ row, row < c.rows → ∀ j, j < c.width → m (c.rowPos base row + j) = c.scal row j
  slot : ∀ row, row < c.rows → ∀ i, i < c.psize → load m (c.slotPos base row i) 4 = w row i
  pad : ∀ p, base + 8 + c.bodySize ≤ p → p < base + c.blockSize → m p = 0

section

variable {m m' : ByteMem} {base : Nat} {c : Cell} {w : Nat → Nat → Nat}

/-- Only the bytes of the block matter. -/
theorem Block.congr (h : Block m base c w)
    (hm : ∀ p, base ≤ p → p < base + c.blockSize → m' p = m p) : Block m' base c w := by
  have hle := c.le_blockSize
  constructor
  case hdr =>
    rw [← h.hdr]
    exact load_congr fun p h1 h2 => hm p h1 (by omega)
  case scal =>
    intro row hrow j hj
    have hin := c.rowPos_inside base hrow
    have hst := c.stride_eq
    rw [hm _ (by omega) (by omega)]
    exact h.scal row hrow j hj
  case slot =>
    intro row hrow i hi
    have hin := c.rowPos_inside base hrow
    have hslot := c.slotPos_inside base row hi
    rw [← h.slot row hrow i hi]
    exact load_congr fun p h1 h2 => hm p (by omega) (by omega)
  case pad =>
    intro p h1 h2
    rw [hm p (by omega) h2]
    exact h.pad p h1 h2

/-- The words of the slots are all that counts of `w`. -/
theorem Block.congr_words {w' : Nat → Nat → Nat} (h : Block m base c w)
    (hw : ∀ row, row < c.rows → ∀ i, i < c.psize → w' row i = w row i) : Block m base c w' :=
  ⟨h.hdr, h.scal, fun row hrow i hi => by rw [hw row hrow i hi, h.slot row hrow i hi], h.pad⟩

/-- **Putting a number** into a row of a block. -/
theorem Block.putInt (h : Block m base c w) {row off sz : Nat} (hrow : row < c.rows)
    (hoff : off + sz ≤ c.width) (v : Nat) :
    Block (store m (c.rowPos base row + off) sz v) base (c.putInt row off sz v) w := by
  have hin := c.rowPos_inside base hrow
  have hst := c.stride_eq
  constructor
  case hdr =>
    rw [load_store_disjoint _ (by omega)]
    exact h.hdr
  case scal =>
    intro row' hrow' j hj
    show store m (c.rowPos base row + off) sz v (c.rowPos base row' + j)
      = Function.update c.scal row ((c.scal row).store off sz v) row' j
    by_cases hr : row' = row
    · subst hr
      rw [Function.update_self]
      unfold store
      by_cases hcov : off ≤ j ∧ j < off + sz
      · rw [if_pos (by omega), if_pos hcov]
        congr 3
        omega
      · rw [if_neg (by omega), if_neg hcov]
        exact h.scal row' hrow' j hj
    · have hj' : j < c.width := hj
      have hapart := c.rowPos_apart base hr
      rw [Function.update_of_ne hr, store_outside _ (by omega)]
      exact h.scal row' hrow' j hj
  case slot =>
    intro row' hrow' i hi
    have hslot := c.slotPos_inside base row' hi
    show load (store m (c.rowPos base row + off) sz v) (c.slotPos base row' i) 4 = w row' i
    rw [load_store_disjoint]
    · exact h.slot row' hrow' i hi
    · by_cases hr : row' = row
      · subst hr
        exact Or.inr (by omega)
      · have hapart := c.rowPos_apart base hr
        omega
  case pad =>
    intro p h1 h2
    have h1' : base + 8 + c.bodySize ≤ p := h1
    rw [store_outside _ (by omega)]
    exact h.pad p h1 h2

/-- **Putting a bit** into a row of a block. -/
theorem Block.putBit (h : Block m base c w) {row off : Nat} (hrow : row < c.rows)
    (hoff : off / 8 < c.width) (v : Bool) :
    Block (ByteMem.putBit m (c.rowPos base row + off / 8) (off % 8) v) base (c.putBit row off v)
      w := by
  have hin := c.rowPos_inside base hrow
  have hst := c.stride_eq
  have hout : ∀ p, p ≠ c.rowPos base row + off / 8 →
      ByteMem.putBit m (c.rowPos base row + off / 8) (off % 8) v p = m p :=
    fun p hp => putBit_outside _ _ _ hp
  constructor
  case hdr =>
    rw [load_congr fun p h1 h2 => hout p (by omega)]
    exact h.hdr
  case scal =>
    intro row' hrow' j hj
    show ByteMem.putBit m (c.rowPos base row + off / 8) (off % 8) v (c.rowPos base row' + j)
      = Function.update c.scal row ((c.scal row).putBit (off / 8) (off % 8) v) row' j
    by_cases hr : row' = row
    · subst hr
      rw [Function.update_self]
      by_cases hj' : j = off / 8
      · subst hj'
        unfold ByteMem.putBit
        rw [Function.update_self, Function.update_self, h.scal row' hrow' _ hoff]
      · rw [hout _ (by omega), putBit_outside _ _ _ hj']
        exact h.scal row' hrow' j hj
    · have hj' : j < c.width := hj
      have hapart := c.rowPos_apart base hr
      rw [Function.update_of_ne hr, hout _ (by omega)]
      exact h.scal row' hrow' j hj
  case slot =>
    intro row' hrow' i hi
    have hslot := c.slotPos_inside base row' hi
    show load (ByteMem.putBit m (c.rowPos base row + off / 8) (off % 8) v) (c.slotPos base row' i) 4
      = w row' i
    rw [load_congr fun p h1 h2 => hout p ?_]
    · exact h.slot row' hrow' i hi
    · by_cases hr : row' = row
      · subst hr
        omega
      · have hapart := c.rowPos_apart base hr
        omega
  case pad =>
    intro p h1 h2
    have h1' : base + 8 + c.bodySize ≤ p := h1
    rw [hout p (by omega)]
    exact h.pad p h1 h2

/-- **Putting a pointer** into a row of a block, as the word `v`. -/
theorem Block.putPtr (h : Block m base c w) {row i : Nat} (hrow : row < c.rows)
    (hi : i < c.psize) (t v : Nat) :
    Block (store m (c.slotPos base row i) 4 v) base (c.putPtr row i t)
      (Function.update w row (Function.update (w row) i (v % 2 ^ 32))) := by
  have hin := c.rowPos_inside base hrow
  have hslot := c.slotPos_inside base row hi
  have hst := c.stride_eq
  constructor
  case hdr =>
    rw [load_store_disjoint _ (by omega)]
    exact h.hdr
  case scal =>
    intro row' hrow' j hj
    have hj' : j < c.width := hj
    show store m (c.slotPos base row i) 4 v (c.rowPos base row' + j) = c.scal row' j
    rw [store_outside]
    · exact h.scal row' hrow' j hj
    · by_cases hr : row' = row
      · subst hr
        exact Or.inl (by omega)
      · have hapart := c.rowPos_apart base hr
        omega
  case slot =>
    intro row' hrow' i' hi'
    have hslot' := c.slotPos_inside base row' hi'
    show load (store m (c.slotPos base row i) 4 v) (c.slotPos base row' i') 4 = _
    by_cases hr : row' = row
    · subst hr
      rw [Function.update_self]
      by_cases hii : i' = i
      · subst hii
        rw [Function.update_self, load_store]
        rfl
      · rw [Function.update_of_ne hii, load_store_disjoint]
        · exact h.slot row' hrow' i' hi'
        · unfold Shape.slotPos
          omega
    · have hapart := c.rowPos_apart base hr
      rw [Function.update_of_ne hr, load_store_disjoint _ (by omega)]
      exact h.slot row' hrow' i' hi'
  case pad =>
    intro p h1 h2
    have h1' : base + 8 + c.bodySize ≤ p := h1
    rw [store_outside _ (by omega)]
    exact h.pad p h1 h2

/-- **Filling in the bytes** of a vector of bytes. -/
theorem Block.putBytes (h : Block m base c w) (hw : c.width = 1) (hp : c.psize = 0)
    {str : List UInt8} (hin : ∀ row, row < c.rows → m' (base + 8 + row) = str.getD row 0)
    (hout : ∀ p, (p < base + 8 ∨ base + 8 + c.rows ≤ p) → m' p = m p) :
    Block m' base (c.putBytes str) w := by
  have hst := c.stride_eq
  have hst1 : c.stride = 1 := by omega
  have hbody : c.bodySize = c.rows := by
    rw [Shape.bodySize, hst1, Nat.mul_one]
  constructor
  case hdr =>
    have hload : load m' base 8 = load m base 8 := load_congr fun p _ h2 => hout p (by omega)
    exact hload.trans h.hdr
  case scal =>
    intro row hrow j hj
    have hj' : j < c.width := hj
    have hpos : c.rowPos base row + j = base + 8 + row := by
      rw [c.rowPos_eq, hst1]
      omega
    show m' (c.rowPos base row + j) = str.getD row 0
    rw [hpos]
    exact hin row hrow
  case slot =>
    intro row _ i hi
    have hi' : i < c.psize := hi
    omega
  case pad =>
    intro p h1 h2
    have h1' : base + 8 + c.bodySize ≤ p := h1
    rw [hout p (by omega)]
    exact h.pad p h1 h2

/-- **Growing a vector**: the bytes behind the old rows are zero up to the new end. -/
theorem Block.resize (h : Block m base c w) {n : Nat} (hn : c.CanHave n) (hle : c.nelem ≤ n)
    (hhdr : load m' base 8 = hdrWord n c.ssize c.psize)
    (hold : ∀ p, base + 8 ≤ p → p < base + c.blockSize → m' p = m p)
    (hnew : ∀ p, base + c.blockSize ≤ p → p < base + (c.resize n hn).blockSize → m' p = 0) :
    Block m' base (c.resize n hn) (fun row x => if row < c.rows then w row x else 0) := by
  have hblk := c.le_blockSize
  have hblk' : 8 + (c.resize n hn).bodySize ≤ (c.resize n hn).blockSize :=
    (c.toShape.withNelem n hn).le_blockSize
  have hbody : c.bodySize ≤ (c.resize n hn).bodySize := c.toShape.bodySize_le_withNelem hn hle
  have hwidth : (c.resize n hn).width = c.width := c.toShape.withNelem_width hn
  have hst : (c.resize n hn).stride = c.stride := c.toShape.withNelem_stride hn
  have hst' := c.stride_eq
  have hpos : ∀ row, (c.resize n hn).rowPos base row = c.rowPos base row := by
    intro row
    rw [Shape.rowPos_eq, c.rowPos_eq, hst]
  -- behind the old rows there is the old padding and what is new
  have hzero : ∀ p, base + 8 + c.bodySize ≤ p → p < base + (c.resize n hn).blockSize →
      m' p = 0 := by
    intro p h1 h2
    by_cases hp : p < base + c.blockSize
    · rw [hold p (by omega) hp]
      exact h.pad p h1 hp
    · exact hnew p (by omega) h2
  have hbehind : ∀ row, c.rows ≤ row → base + 8 + c.bodySize ≤ c.rowPos base row := by
    intro row hrow
    have hmul : c.rows * c.stride ≤ row * c.stride := Nat.mul_le_mul_right _ hrow
    rw [c.rowPos_eq, Shape.bodySize]
    omega
  constructor
  case hdr => exact hhdr
  case scal =>
    intro row hrow j hj
    rw [hwidth] at hj
    have hin := (c.resize n hn).toShape.rowPos_inside base hrow
    rw [hpos, hst] at hin
    rw [hpos]
    show m' _ = (if row < c.rows then c.scal row else fun _ => 0) j
    by_cases hr : row < c.rows
    · have hin' := c.rowPos_inside base hr
      rw [if_pos hr, hold _ (by omega) (by omega)]
      exact h.scal row hr j hj
    · have hge := hbehind row (by omega)
      rw [if_neg hr]
      exact hzero _ (by omega) (by omega)
  case slot =>
    intro row hrow i hi
    have hi' : i < c.psize := hi
    have hin := (c.resize n hn).toShape.rowPos_inside base hrow
    have hslot := c.slotPos_inside base row hi'
    rw [hpos, hst] at hin
    have hsp : (c.resize n hn).slotPos base row i = c.slotPos base row i := by
      unfold Shape.slotPos
      rw [hpos, hwidth]
    rw [hsp]
    by_cases hr : row < c.rows
    · have hin' := c.rowPos_inside base hr
      rw [if_pos hr, ← h.slot row hr i hi']
      exact load_congr fun p h1 h2 => hold p (by omega) (by omega)
    · have hge := hbehind row (by omega)
      rw [if_neg hr]
      exact load_eq_zero fun j hj => hzero _ (by omega) (by omega)
  case pad =>
    intro p h1 h2
    exact hzero p (by omega) h2

/-- Bytes of a number that two loads agree on. -/
theorem byte_eq_of_load {k k' n j : Nat} (h : load m k n = load m' k' n) (hj : j < n) :
    m (k + j) = m' (k' + j) := by
  rw [← byte_of_load m k hj, ← byte_of_load m' k' hj, h]

/-- **A block is determined by its object**: all its bytes are the same wherever it lies. -/
theorem Block.bytes_eq {base' : Nat} (h : Block m base c w) (h' : Block m' base' c w) {q : Nat}
    (hq : q < c.blockSize) : m (base + q) = m' (base' + q) := by
  have hst := c.stride_eq
  by_cases hhdr : q < 8
  · exact byte_eq_of_load (h.hdr.trans h'.hdr.symm) hhdr
  · by_cases hbody : q < 8 + c.bodySize
    · -- a byte of a row: split the offset by the stride
      have hpos := c.stride_pos
      have hmod := Nat.mod_lt (q - 8) hpos
      have hdiv := Nat.div_add_mod (q - 8) c.stride
      have hrow : (q - 8) / c.stride < c.rows := by
        rw [Nat.div_lt_iff_lt_mul hpos]
        unfold Shape.bodySize at hbody
        omega
      have hq0 : ∀ b, b + q = c.rowPos b ((q - 8) / c.stride) + (q - 8) % c.stride := by
        intro b
        rw [c.rowPos_eq, Nat.mul_comm]
        omega
      rw [hq0 base, hq0 base']
      generalize (q - 8) / c.stride = row at hrow
      generalize (q - 8) % c.stride = j at hmod
      by_cases hj : j < c.width
      · rw [h.scal row hrow j hj, h'.scal row hrow j hj]
      · have hi : (j - c.width) / 4 < c.psize := by omega
        have hload := (h.slot row hrow _ hi).trans (h'.slot row hrow _ hi).symm
        have hbyte := byte_eq_of_load hload (show (j - c.width) % 4 < 4 by omega)
        unfold Shape.slotPos at hbyte
        have hj0 : ∀ b, b + c.width + (j - c.width) / 4 * 4 + (j - c.width) % 4 = b + j := by
          intro b
          omega
        rwa [hj0, hj0] at hbyte
    · rw [h.pad _ (by omega) (by omega), h'.pad _ (by omega) (by omega)]

end

end Nbuf
