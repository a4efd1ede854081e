import Nbuf.Wire.Cell

set_option autoImplicit false

/-! # The writer on one block

What the writer functions do to the block of one object, wherever it lies in its buffer: the
plain writer has all blocks in one buffer, the builder has one buffer for each.
-/

namespace Nbuf

open Align ByteMem

/-! ## Creation -/

theorem Shape.createSize_eq (sh : Shape) (base : Nat) : (sh.obj base).createSize = sh.blockSize := by
  have hbody := sh.bodySize_lt
  have htot := sh.totalsz_eq base
  have hsize : (if (sh.obj base).ssize = 0 ∧ (sh.obj base).psize = 0 then bitBytes (sh.obj base).nelem
      else sizeT ((sh.obj base).nelem * (sh.obj base).elemsz)) = sh.bodySize := by
    rw [← htot, Obj.totalsz]
    simp only [ne_eq, (sh.obj base).elemsz_eq_zero_iff]
    split_ifs
    · rfl
    · rw [Nat.mul_comm]
  unfold Obj.createSize
  rw [hsize, sizeT_of_lt (by omega), nbufRoundup_eq (by omega)]
  rfl

/-- A zeroed block behind its header is a new object. -/
theorem block_new (m : ByteMem) (base : Nat) (sh : Shape) :
    Block (fill (store m base 8 (hdrWord sh.nelem sh.ssize sh.psize)) (base + 8)
      (sh.blockSize - 8) 0) base (Cell.new sh) (fun _ _ => 0) := by
  have hle := sh.le_blockSize
  have hst := sh.stride_eq
  have hzero : ∀ p, base + 8 ≤ p → p < base + sh.blockSize →
      fill (store m base 8 (hdrWord sh.nelem sh.ssize sh.psize)) (base + 8) (sh.blockSize - 8) 0 p
        = 0 := fun p h1 h2 => fill_inside _ _ h1 (by omega)
  constructor
  case hdr =>
    rw [load_congr fun p h1 h2 => fill_outside _ 0 (Or.inl (by omega)), load_store]
    exact Nat.mod_eq_of_lt (hdrWord_lt sh.nelem_lt sh.ssize_lt sh.psize_lt)
  case scal =>
    intro row hrow j hj
    have hin := sh.rowPos_inside base hrow
    have hj' : j < sh.width := hj
    exact hzero _ (by show _ ≤ sh.rowPos base row + j; omega)
      (by show sh.rowPos base row + j < _; omega)
  case slot =>
    intro row hrow i hi
    have hin := sh.rowPos_inside base hrow
    have hslot := sh.slotPos_inside base row hi
    refine load_eq_zero fun j hj => hzero _ ?_ ?_
    · show _ ≤ sh.slotPos base row i + j
      omega
    · show sh.slotPos base row i + j < _
      omega
  case pad =>
    intro p h1 h2
    have h1' : base + 8 + sh.bodySize ≤ p := h1
    exact hzero p (by omega) h2

/-- The bytes that are reserved for an object. -/
theorem Obj.createSize_spec (o : Obj) : 8 ≤ o.createSize ∧ o.createSize < 2 ^ 52 := by
  have hmul := o.elemsz_mul_lt o.nelem_lt
  have hbits : bitBytes o.nelem < 2 ^ 32 := by
    unfold bitBytes
    omega
  have hbody : (if o.ssize = 0 ∧ o.psize = 0 then bitBytes o.nelem
      else sizeT (o.nelem * o.elemsz)) < 2 ^ 51 := by
    rw [Nat.mul_comm, sizeT_of_lt (by omega)]
    split_ifs <;> omega
  unfold Obj.createSize
  rw [sizeT_of_lt (by omega), nbufRoundup_eq (by omega)]
  generalize hx : (if o.ssize = 0 ∧ o.psize = 0 then bitBytes o.nelem
    else sizeT (o.nelem * o.elemsz)) = x at hbody
  have hle := le_roundUp (show 0 < 8 by decide) (8 + x)
  have hlt := roundUp_lt (show 0 < 8 by decide) (8 + x)
  omega

/-- The assertion about the product holds for every object. -/
theorem Obj.elemsz_mul_fits (o : Obj) : o.elemsz = 0 ∨ (2 ^ 64 - 1) / o.elemsz > o.nelem := by
  rcases Nat.eq_zero_or_pos o.elemsz with h0 | hpos
  · exact Or.inl h0
  · right
    show o.nelem + 1 ≤ _
    rw [Nat.le_div_iff_mul_le hpos]
    calc (o.nelem + 1) * o.elemsz
        ≤ 2 ^ 32 * 2 ^ 19 := Nat.mul_le_mul o.nelem_lt (Nat.le_of_lt o.elemsz_lt)
      _ ≤ 2 ^ 64 - 1 := by decide

/-- **What `_nbuf_create` does**: it writes the header and clears what it has reserved behind it. -/
theorem create_run {a : Realloc} (ha : a.Total) {b : Buffer} {o : Obj} {nelem ssize psize : Nat}
    (hobj : Obj.ofFields b.len nelem ssize psize = o) (hword : o.psize = 0 ∨ o.elemsz % 4 = 0)
    (hlen : b.len ≤ b.cap) (hcap : b.cap < 2 ^ 64) (h8 : 8 ∣ b.len)
    (hfit : b.len + o.createSize < 2 ^ 63) :
    ∃ b' m, create a b nelem ssize psize = some (b', { o with base := b.len + 8 }) ∧
      b'.len = b.len + o.createSize ∧ b'.len ≤ b'.cap ∧ b'.cap < 2 ^ 64 ∧
      (∀ p, p < b.len → b'.mem p = b.mem p) ∧
      b'.mem = fill (store m b.len 8 (hdrWord o.nelem o.ssize o.psize)) (b.len + 8)
        (o.createSize - 8) 0 := by
  obtain ⟨hle, -⟩ := o.createSize_spec
  have helem := o.elemsz_lt
  obtain ⟨b1, hres, hlen1, hroom, hcap1, hcap1', hmem1⟩ := reserve_spec ha hlen hcap
    (show b.len + o.createSize ≤ 2 ^ 63 by omega)
  let b2 : Buffer := { b1 with len := b.len + o.createSize }
  have hext : b.len + o.createSize ≤ b2.extent := Nat.le_max_left _ _
  have hwrite : writeIntSafe b2 b.len 8 (hdrWord o.nelem o.ssize o.psize)
      = some { b2 with mem := store b1.mem b.len 8 (hdrWord o.nelem o.ssize o.psize) } :=
    writeIntSafe_of_le _ rfl (show b.len + 8 ≤ b.len + o.createSize by omega)
      (show b.len + o.createSize < 2 ^ 64 by omega)
  let m := fill (store b1.mem b.len 8 (hdrWord o.nelem o.ssize o.psize)) (b.len + 8)
    (o.createSize - 8) 0
  refine ⟨{ b2 with mem := m }, b1.mem, ?_, rfl, hroom, hcap1', ?_, rfl⟩
  · have hbase : o.base = b.len := hobj ▸ rfl
    unfold create
    simp only [hobj]
    rw [assertC_pos hlen, assertC_pos (by omega), assertC_pos o.elemsz_mul_fits, assertC_pos hword]
    simp only [Option.bind_eq_bind, Option.bind_some, hres, Bool.true_eq_false, if_false]
    rw [hlen1, szSub_of_le (by omega) hcap1', assertC_pos (by omega),
      assertC_pos (Nat.mod_eq_zero_of_dvd h8), sizeT_of_lt (by omega)]
    simp only [Option.bind_some, hbase]
    rw [hwrite, sizeT_of_lt (by omega), szSub_of_le (by omega) (by omega)]
    simp only [Option.bind_some]
    unfold memsetC
    rw [assertC_pos (by show b.len + 8 + (o.createSize - 8) ≤ b2.extent; omega)]
    rfl
  · intro p hp
    show fill (store b1.mem b.len 8 _) (b.len + 8) _ 0 p = b.mem p
    rw [fill_outside _ _ (Or.inl (by omega)), store_outside _ (Or.inl hp)]
    exact hmem1 p (by omega)

/-- **Creating an object** behind the others. -/
theorem create_spec {a : Realloc} (ha : a.Total) {b : Buffer} {sh : Shape}
    {nelem ssize psize : Nat} (hobj : Obj.ofFields b.len nelem ssize psize = sh.obj b.len)
    (hlen : b.len ≤ b.cap) (hcap : b.cap < 2 ^ 64) (h8 : 8 ∣ b.len)
    (hfit : b.len + sh.blockSize < 2 ^ 63) :
    ∃ b', create a b nelem ssize psize = some (b', sh.obj (b.len + 8)) ∧
      b'.len = b.len + sh.blockSize ∧ b'.len ≤ b'.cap ∧ b'.cap < 2 ^ 64 ∧
      (∀ p, p < b.len → b'.mem p = b.mem p) ∧
      Block b'.mem b.len (Cell.new sh) (fun _ _ => 0) := by
  have hword : (sh.obj b.len).psize = 0 ∨ (sh.obj b.len).elemsz % 4 = 0 := by
    rw [sh.obj_elemsz]
    rcases sh.aligned with h0 | h4
    · exact Or.inl h0
    · exact Or.inr (by omega)
  obtain ⟨b', m, hcreate, hlen', hroom, hcap', hkeep, hmem⟩ := create_run ha hobj hword hlen hcap h8
    (by rw [sh.createSize_eq]; exact hfit)
  rw [sh.createSize_eq] at hlen' hmem
  refine ⟨b', hcreate, hlen', hroom, hcap', hkeep, ?_⟩
  rw [hmem]
  exact block_new m b.len sh

/-! ## Opening and filling in -/

theorem Shape.bodySize_pos (sh : Shape) (h : 0 < sh.nelem) : 0 < sh.bodySize :=
  Nat.mul_pos (Nat.lt_of_le_of_lt (Nat.zero_le _) (Shape.row_lt_rows h)) sh.stride_pos

section

variable {b : Buffer} {base : Nat} {c : Cell} {w : Nat → Nat → Nat}

/-- **Opening** an object. -/
theorem Block.objInit (hb : Block b.mem base c w) (hlen : b.len < 2 ^ 63)
    (hend : base + c.blockSize ≤ b.len) (rr : Obj) :
    Nbuf.objInit b rr base = some (c.obj (base + 8)) := by
  have hle := c.le_blockSize
  have hobj : hdrObj (base + 8) (b.mem.load base 8) = c.obj (base + 8) := by
    rw [hb.hdr, hdrObj_hdrWord c.nelem_lt c.ssize_lt]
    exact c.ofFields_eq _
  have hacc : (c.obj (base + 8)).Accepted b := by
    intro hpos
    have htot := c.totalsz_eq (base + 8)
    have hbody := c.toShape.bodySize_pos hpos
    rw [htot]
    refine ⟨by omega, ?_⟩
    show base + 8 + c.bodySize ≤ b.len
    omega
  rw [objInit_in rr hlen (by omega), hobj, if_pos hacc]

/-- **Putting a number** through the handle of an element. -/
theorem putInt_block (hw : (c.obj (base + 8)).Writable b) (hb : Block b.mem base c w) {k off sz : Nat}
    (hk : k < c.nelem) (hsz : off + sz ≤ c.width → scalarSize sz = true) (hpos : sz ≠ 0)
    (hdvd : sz ∣ off) (hwrap : off + sz < 2 ^ 64) (v : Nat) : ∃ m, putInt b (getElem (c.obj (base + 8)) k) off sz v = some { b with mem := m } ∧
      (∀ p, (p < base ∨ base + c.blockSize ≤ p) → m p = b.mem p) ∧
      Block m base (c.setInt k off sz v) w := by
  unfold Cell.setInt
  by_cases hin : off + sz ≤ c.width
  · have hrow := Shape.row_lt_rows hk
    have hrows := c.rowPos_inside base hrow
    have hst := c.stride_eq
    have hle := c.le_blockSize
    refine ⟨_, hw.putInt v hk (hsz hin) hdvd hin, fun p hp => ?_, ?_⟩
    · have hout : p < c.rowPos base (c.row k) + off ∨ c.rowPos base (c.row k) + off + sz ≤ p := by
        omega
      exact store_outside _ hout
    · rw [if_pos hin]
      exact hb.putInt hrow hin v
  · refine ⟨b.mem, hw.putInt_out v hk hpos hdvd (Nat.lt_of_not_le hin) hwrap, fun p _ => rfl, ?_⟩
    rw [if_neg hin]
    exact hb

/-- **Putting a bit** through the handle of an element. -/
theorem putBit_block (hw : (c.obj (base + 8)).Writable b) (hb : Block b.mem base c w) {k off : Nat}
    (hk : k < c.nelem) (v : Bool) :
    ∃ m, putBit b (getElem (c.obj (base + 8)) k) off v = some { b with mem := m } ∧
      (∀ p, (p < base ∨ base + c.blockSize ≤ p) → m p = b.mem p) ∧
      Block m base (c.setBit k off v) w := by
  unfold Cell.setBit
  by_cases hin : off / 8 < c.width
  · have hrow := Shape.row_lt_rows hk
    have hpos := c.rowPos_inside base hrow
    have hst := c.stride_eq
    have hle := c.le_blockSize
    refine ⟨_, hw.putBit v hk hin, fun p hp => ?_, ?_⟩
    · have hout : p ≠ c.rowPos base (c.row k) + off / 8 := by omega
      exact putBit_outside _ _ _ hout
    · rw [if_pos hin]
      exact hb.putBit hrow hin v
  · refine ⟨b.mem, putBit_out v hk (Nat.le_of_not_lt hin), fun p _ => rfl, ?_⟩
    rw [if_neg hin]
    exact hb

/-- **Reading a number** through the handle of an element. -/
theorem Block.getInt (hb : Block b.mem base c w) (hend : base + c.blockSize ≤ b.len)
    (hlen : b.len < 2 ^ 63) {k off sz : Nat} (hk : k < c.nelem) (hsz : scalarSize sz = true) (hdvd : sz ∣ off)
    (hoff : off + sz ≤ c.width) : Nbuf.getInt b (getElem (c.obj (base + 8)) k) off sz
      = some (((c.scal (c.row k)).load off sz : Int).bmod (256 ^ sz)) := by
  have hscal := hb.scal _ (Shape.row_lt_rows hk)
  have hload : b.mem.load ((c.obj (base + 8)).rowPos ((c.obj (base + 8)).row k) + off) sz
      = (c.scal (c.row k)).load off sz := by
    refine load_shift fun j hj => ?_
    rw [Nat.add_assoc]
    exact hscal (off + j) (by omega)
  have hle := c.le_blockSize
  have hrows : (c.obj (base + 8)).base + (c.obj (base + 8)).rows * (c.obj (base + 8)).stride
      ≤ b.len := by
    show base + 8 + c.bodySize ≤ b.len
    omega
  have hk' : k < (c.obj (base + 8)).nelem := hk
  rw [getInt_elem hrows hlen hk' hsz hdvd hoff, hload]

/-- The slot that the handle of an element computes. -/
theorem slot_getElem (hend : base + c.blockSize < 2 ^ 64) {k x : Nat} (hk : k < c.nelem)
    (hx : x < c.psize) :
    (getElem (c.obj (base + 8)) k).slot x = c.slotPos base (c.row k) x := by
  have hle := c.le_blockSize
  exact Obj.slot_elem (by show base + 8 + c.bodySize < 2 ^ 64; omega) hk hx

/-- **Filling in a string** in the block of a new object. -/
theorem fillStr_block {n : Nat} {str : List UInt8} (hn : n + 1 < 2 ^ 32) (hstr : n ≤ str.length)
    (hfit : base + (strShape n).blockSize ≤ b.len)
    (hb : Block b.mem base (Cell.new (strShape n)) w) :
    ∃ m, fillStr b ((strShape n).obj (base + 8)) str n = some { b with mem := m } ∧
      (∀ p, (p < base ∨ base + (strShape n).blockSize ≤ p) → m p = b.mem p) ∧
      Block m base (strCell (str.take n)) w := by
  have hsize := (strShape n).le_blockSize
  have hrows : (strShape n).rows = n + 1 := strShape_nelem hn
  have hbody : (strShape n).bodySize = n + 1 := by
    rw [Shape.bodySize, hrows, (strShape n).stride_eq, strShape_width]
    exact Nat.mul_one _
  have hext := len_le_extent b
  let m1 := b.mem.copy (base + 8) (ByteMem.ofList str) 0 n
  let m := m1.fill (base + 8 + n) 1 0
  have hcopy : memcpyC b (base + 8) (ByteMem.ofList str) str.length n
      = some { b with mem := m1 } := by
    unfold memcpyC
    rw [assertC_pos hstr, assertC_pos (by omega)]
    rfl
  have hfill : memsetC { b with mem := m1 } (base + 8 + n) 0 1 = some { b with mem := m } := by
    unfold memsetC
    rw [assertC_pos (by show base + 8 + n + 1 ≤ b.extent; omega)]
    rfl
  have hin : ∀ row, row < n + 1 → m (base + 8 + row) = (str.take n).getD row 0 := by
    intro row hrow
    by_cases hlt : row < n
    · have hcopied : m1 (base + 8 + row) = ByteMem.ofList str (0 + (base + 8 + row - (base + 8))) :=
        copy_inside _ _ _ (by omega) (by omega)
      have hkept : m (base + 8 + row) = m1 (base + 8 + row) := fill_outside _ _ (Or.inl (by omega))
      rw [hkept, hcopied, Nat.zero_add, Nat.add_sub_cancel_left]
      simp [ByteMem.ofList, List.getD, hlt]
    · have hnul : m (base + 8 + row) = 0 := fill_inside _ _ (by omega) (by omega)
      rw [hnul]
      simp [List.getD, hlt]
  have hout : ∀ p, (p < base + 8 ∨ base + 8 + (n + 1) ≤ p) → m p = b.mem p := by
    intro p hp
    have hkept : m p = m1 p := fill_outside _ _ (by omega)
    rw [hkept]
    exact copy_outside _ _ _ (by omega)
  refine ⟨m, ?_, fun p hp => hout p (by omega), ?_⟩
  · unfold fillStr
    rw [Shape.obj_base, hcopy]
    exact hfill
  · have hcell : strCell (str.take n) = (Cell.new (strShape n)).putBytes (str.take n) := by
      unfold strCell
      rw [List.length_take, Nat.min_eq_left hstr]
    rw [hcell]
    exact hb.putBytes (strShape_width n) rfl (fun row hrow => hin row (by rw [← hrows]; exact hrow))
      fun p hp => hout p (by rw [← hrows]; exact hp)

/-- The size of the elements in `nbuf_resize`. -/
theorem Shape.resizeBytes_eq (sh : Shape) (base : Nat) {n : Nat} (h : sh.CanHave n) :
    (if (sh.obj base).elemsz ≠ 0 then sizeT (n * (sh.obj base).elemsz) else sizeT (n + 7) / 8)
      = (sh.withNelem n h).bodySize := by
  have hmul := (sh.obj base).elemsz_mul_lt (n := n) (by have := h.1; omega)
  unfold Shape.bodySize
  rw [sh.withNelem_stride h, Shape.rows_eq]
  show _ = (if sh.ssize = 0 ∧ sh.psize = 0 then (n + 7) / 8 else n) * sh.stride
  by_cases h0 : (sh.obj base).elemsz = 0
  · have hzero : sh.ssize = 0 ∧ sh.psize = 0 := (sh.obj base).elemsz_eq_zero_iff.mp h0
    have hlt := h.2 hzero.1 hzero.2
    have hst : sh.stride = 1 := by rw [sh.stride_eq, sh.width_eq, if_pos hzero, hzero.2]
    rw [if_neg (by simp [h0]), if_pos hzero, sizeT_of_lt (by omega), hst, Nat.mul_one]
  · have hst : (sh.obj base).elemsz = sh.stride := (Obj.stride_eq h0).symm
    have hne : ¬ (sh.ssize = 0 ∧ sh.psize = 0) := fun hz =>
      h0 ((sh.obj base).elemsz_eq_zero_iff.mpr hz)
    rw [if_pos h0, if_neg hne, hst]
    rw [hst, Nat.mul_comm] at hmul
    exact sizeT_of_lt (by omega)

theorem Shape.oldBytes_eq (sh : Shape) (base : Nat) :
    (if (sh.obj base).elemsz ≠ 0 then sizeT ((sh.obj base).nelem * (sh.obj base).elemsz)
      else bitBytes (sh.obj base).nelem) = sh.bodySize := by
  rw [← sh.totalsz_eq base]
  unfold Obj.totalsz
  rw [Nat.mul_comm]

theorem Shape.endOf_eq (sh : Shape) {base : Nat} (h8 : 8 ∣ base)
    (hfit : base + sh.blockSize < 2 ^ 63) :
    nbufRoundup (sizeT (base + 8 + sh.bodySize)) 8 = base + sh.blockSize := by
  have hle := sh.le_blockSize
  rw [sizeT_of_lt (by omega), nbufRoundup_eq (by omega), Nat.add_assoc,
    roundUp_add_left (by decide) h8]
  rfl

/-- The header word after its lower half is written. -/
theorem load_hdr_nelem {m : ByteMem} {base nelem ssize psize n : Nat}
    (h : load m base 8 = hdrWord nelem ssize psize) (hn : nelem < 2 ^ 32) (hn' : n < 2 ^ 32) :
    load (store m base 4 n) base 8 = hdrWord n ssize psize := by
  have hhigh : load (store m base 4 n) (base + 4) 4 = load m (base + 4) 4 :=
    load_store_disjoint _ (by omega)
  have hlow : load (store m base 4 n) base 4 = n := by
    rw [load_store]
    exact Nat.mod_eq_of_lt hn'
  have hsplit := load_add m base 4 4
  have hlt := load_lt m base 4
  rw [load_add _ base 4 4, hlow, hhigh]
  have h8 : load m base (4 + 4) = hdrWord nelem ssize psize := h
  unfold hdrWord at h8 ⊢
  omega

/-- **What `nbuf_resize` does** to the object at the end of a buffer, when the rounded end does not
move down: it clears what is new behind the old end and writes the new count into the header. -/
theorem resize_run {a : Realloc} (ha : a.Total) {r : Obj} {n newEnd : Nat}
    (hold : nbufRoundup (sizeT (r.base + if r.elemsz ≠ 0 then sizeT (r.nelem * r.elemsz)
      else bitBytes r.nelem)) 8 = b.len)
    (hnew : nbufRoundup (sizeT (r.base + if r.elemsz ≠ 0 then sizeT (n * r.elemsz)
      else sizeT (n + 7) / 8)) 8 = newEnd)
    (hn : n < 2 ^ 32 - 1) (hle : b.len ≤ newEnd) (hbase : 8 ≤ r.base) (hin : r.base ≤ b.len)
    (hcap : b.len ≤ b.cap) (hcap' : b.cap < 2 ^ 64) (hfit : newEnd < 2 ^ 63) :
    ∃ b', Nbuf.resize a b r n = some (b', Obj.ofFields r.base n r.ssize r.psize) ∧
      b'.len = newEnd ∧ newEnd ≤ b'.cap ∧ b'.cap < 2 ^ 64 ∧
      (∀ p, p < b.len → b'.mem p = store b.mem (r.base - 8) 4 n p) ∧
      (∀ p, b.len ≤ p → p < newEnd → b'.mem p = 0) ∧
      ∀ p, newEnd ≤ p → p < b.cap → b'.mem p = b.mem p := by
  -- room is made only when the end moves
  obtain ⟨b1, hres, hlen1, hroom, hcap1, hmem1⟩ : ∃ b1,
      (if newEnd > b.len then reserve a b (newEnd - b.len) else some (true, b))
        = some (true, b1) ∧ b1.len = b.len ∧ newEnd ≤ b1.cap ∧
      b1.cap < 2 ^ 64 ∧ ∀ p, p < b.cap → b1.mem p = b.mem p := by
    by_cases hmore : newEnd > b.len
    · obtain ⟨b1, hres, hlen1, hroom, -, hcap1, hmem1⟩ := reserve_spec ha hcap hcap'
        (show b.len + (newEnd - b.len) ≤ 2 ^ 63 by omega)
      exact ⟨b1, by rw [if_pos hmore, hres], hlen1, by omega, hcap1, hmem1⟩
    · exact ⟨b, if_neg hmore, rfl, by omega, hcap', fun _ _ => rfl⟩
  let m1 := b1.mem.fill b.len (newEnd - b.len) 0
  let m := m1.store (r.base - 8) 4 n
  have hset : memsetC b1 b.len 0 (newEnd - b.len) = some { b1 with mem := m1 } := by
    have hext := cap_le_extent b1
    unfold memsetC
    rw [assertC_pos (by omega)]
    rfl
  have hwrite : writeIntSafe { b1 with mem := m1, len := newEnd } (r.base - 8) 4 n
      = some { b1 with mem := m, len := newEnd } :=
    writeIntSafe_of_le _ rfl (show r.base - 8 + 4 ≤ newEnd by omega) (show newEnd < 2 ^ 64 by omega)
  have hhdr : szSub r.base 8 = r.base - 8 := szSub_of_le hbase (by omega)
  refine ⟨{ b1 with mem := m, len := newEnd }, ?_, rfl, hroom, hcap1, fun p hp => ?_,
    fun p h1 h2 => ?_, fun p h1 h2 => ?_⟩
  · unfold Nbuf.resize
    simp only [hold, hnew, assertC_pos hn, ne_eq, not_true_eq_false, if_false,
      Option.bind_eq_bind, Option.bind_some, hres, Bool.true_eq_false, assertC_pos hroom,
      szSub_of_le hle (show newEnd < 2 ^ 64 by omega), hset, hhdr, hwrite]
    rfl
  · have hm1 : m1 p = b.mem p := by
      rw [← hmem1 p (by omega)]
      exact fill_outside _ _ (Or.inl hp)
    show m1.store (r.base - 8) 4 n p = _
    unfold store
    rw [hm1]
  · show m1.store (r.base - 8) 4 n p = 0
    rw [store_outside _ (by omega)]
    exact fill_inside _ _ (by omega) (by omega)
  · show m1.store (r.base - 8) 4 n p = b.mem p
    rw [store_outside _ (by omega), ← hmem1 p h2]
    exact fill_outside _ _ (by omega)

/-- **Growing** the object at the end of a buffer. -/
theorem resize_block {a : Realloc} (ha : a.Total) (hb : Block b.mem base c w)
    (hlen : b.len = base + c.blockSize) (hcap : b.len ≤ b.cap) (hcap' : b.cap < 2 ^ 64)
    (h8 : 8 ∣ base) {n : Nat} (hn : c.CanHave n) (hle : c.nelem ≤ n)
    (hfit : base + (c.resize n hn).blockSize < 2 ^ 63) :
    ∃ b', Nbuf.resize a b (c.obj (base + 8)) n = some (b', (c.resize n hn).obj (base + 8)) ∧
      b'.len = base + (c.resize n hn).blockSize ∧ b'.len ≤ b'.cap ∧ b'.cap < 2 ^ 64 ∧
      (∀ p, p < base → b'.mem p = b.mem p) ∧
      Block b'.mem base (c.resize n hn) (fun row x => if row < c.rows then w row x else 0) := by
  have hgrow : c.blockSize ≤ (c.resize n hn).blockSize := c.toShape.blockSize_le_withNelem hn hle
  have hblk := c.le_blockSize
  have hold : nbufRoundup (sizeT (base + 8 + c.bodySize)) 8 = b.len := by
    rw [hlen]
    exact c.endOf_eq h8 (by omega)
  have hnew : nbufRoundup (sizeT (base + 8 + (c.toShape.withNelem n hn).bodySize)) 8
      = base + (c.resize n hn).blockSize := (c.toShape.withNelem n hn).endOf_eq h8 hfit
  rw [← c.oldBytes_eq (base + 8)] at hold
  rw [← c.resizeBytes_eq (base + 8) hn] at hnew
  obtain ⟨b', hres, hlen', hroom, hcap1, hkeep, hzero, -⟩ := resize_run (r := c.obj (base + 8)) ha
    hold hnew hn.1 (by omega) (by rw [Shape.obj_base]; omega) (by rw [Shape.obj_base]; omega) hcap
    hcap' hfit
  have hobj : Obj.ofFields (c.obj (base + 8)).base n (c.obj (base + 8)).ssize
      (c.obj (base + 8)).psize = (c.resize n hn).obj (base + 8) :=
    (c.toShape.withNelem n hn).ofFields_eq (base + 8)
  have hhdr : (c.obj (base + 8)).base - 8 = base := Nat.add_sub_cancel base 8
  rw [hobj] at hres
  rw [hhdr] at hkeep
  refine ⟨b', hres, hlen', by omega, hcap1, fun p hp => ?_, ?_⟩
  · rw [hkeep p (by omega)]
    exact store_outside _ (Or.inl hp)
  · refine hb.resize hn hle ?_ (fun p h1 h2 => ?_) fun p h1 h2 => hzero p (by omega) h2
    · rw [load_congr fun p _ hp => hkeep p (by omega)]
      exact load_hdr_nelem hb.hdr c.nelem_lt (by have := hn.1; omega)
    · rw [hkeep p (by omega)]
      exact store_outside _ (by omega)

/-! ## Strings -/

/-- A cell that holds a string and its NUL. -/
structure Cell.IsStr (c : Cell) (str : List UInt8) : Prop where
  ssize_eq : c.ssize = 1
  psize_eq : c.psize = 0
  nelem_eq : c.nelem = str.length + 1
  scal_eq : ∀ j, j < str.length → c.scal j 0 = str.getD j 0

theorem Cell.IsStr.shape {c : Cell} {str : List UInt8} (h : c.IsStr str) :
    c.stride = 1 ∧ c.rows = str.length + 1 ∧ c.bodySize = str.length + 1 := by
  have hwidth : c.width = 1 := by
    rw [c.width_eq, if_neg (by simp [h.ssize_eq]), h.ssize_eq]
  have hst : c.stride = 1 := by
    rw [c.stride_eq, hwidth, h.psize_eq]
  have hrows : c.rows = str.length + 1 := by
    rw [← h.nelem_eq]
    exact if_neg (by rw [c.obj_elemsz, h.ssize_eq]; omega)
  exact ⟨hst, hrows, by rw [Shape.bodySize, hrows, hst, Nat.mul_one]⟩

theorem strCell_isStr {str : List UInt8} (hn : str.length + 1 < 2 ^ 32) : (strCell str).IsStr str :=
  ⟨rfl, rfl, strShape_nelem hn, fun _ _ => rfl⟩

/-- The bytes of a string in its block. -/
theorem Block.readBytes (hb : Block b.mem base c w) (hfit : base + c.blockSize ≤ b.len)
    {str : List UInt8} (hc : c.IsStr str) : Nbuf.readBytes b (base + 8) str.length = some str := by
  obtain ⟨hst, hrows, hbody⟩ := hc.shape
  have hle := c.le_blockSize
  have hext := len_le_extent b
  have hwidth : c.width = 1 := by
    have := c.stride_eq
    rw [hst, hc.psize_eq] at this
    omega
  unfold Nbuf.readBytes
  rw [assertC_pos (by omega)]
  refine congrArg some (List.ext_getElem (length_toList _ _ _) fun j _ hj => ?_)
  have hbyte := hb.scal j (by omega) 0 (by omega)
  have hpos : c.rowPos base j + 0 = base + 8 + j := by
    rw [c.rowPos_eq, hst]
    omega
  rw [hpos, hc.scal_eq j hj] at hbyte
  simp only [toList, List.getElem_map, List.getElem_range]
  rw [hbyte]
  simp [List.getD, hj]

end

end Nbuf
