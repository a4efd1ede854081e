import Nbuf.Wire.BlockOps
import Nbuf.Wire.Forward
import Nbuf.Wire.Heap

set_option autoImplicit false

/-! # The reader over a represented heap

What the reader finds in a buffer that holds a heap: opening an object, following a pointer and
reading scalars and strings give back what the heap says, as long as no pointer is longer than
its 31 bits can tell.
-/

namespace Nbuf

open ByteMem

/-- The bytes of the buffer are the objects of the heap and nothing else. -/
structure Heap.Holds (h : Heap) (b : Buffer) : Prop where
  len_eq : b.len = h.total
  len_lt : b.len < 2 ^ 63
  rep : h.Rep b.mem
  forward : h.Forward

/-- The handle of object `i`. -/
def Heap.handle (h : Heap) (i : Nat) (c : Cell) : Obj := c.obj (h.offs i + 8)

@[simp] theorem Heap.handle_nelem (h : Heap) (i : Nat) (c : Cell) :
    (h.handle i c).nelem = c.nelem := rfl

@[simp] theorem Heap.handle_ssize (h : Heap) (i : Nat) (c : Cell) :
    (h.handle i c).ssize = c.ssize := rfl

@[simp] theorem Heap.handle_psize (h : Heap) (i : Nat) (c : Cell) :
    (h.handle i c).psize = c.psize := rfl

/-- A received copy of the bytes holds the same heap. -/
theorem Heap.Holds.initRead {h : Heap} {b : Buffer} (hb : h.Holds b) {block : ByteBlock}
    (hblock : block.data = b.bytes) : h.Holds (initRead block) := by
  have hlen : (Nbuf.initRead block).len = b.len := by
    show block.data.length = b.len
    rw [hblock, b.length_bytes]
  refine ⟨hlen.trans hb.len_eq, hlen ▸ hb.len_lt, fun i c hc => ?_, hb.forward⟩
  refine (hb.rep i c hc).congr fun p _ hp => ?_
  have hend := Heap.offs_add_le_total hc
  have hp' : p < b.len := by
    rw [hb.len_eq]
    omega
  show ByteMem.ofList block.data p = b.mem p
  rw [ofList_getElem _ (by rw [hblock, b.length_bytes]; exact hp')]
  simp [hblock, Buffer.bytes, toList]

section

variable {h : Heap} {b : Buffer} {i : Nat} {c : Cell}

theorem Heap.Holds.block_le (hb : h.Holds b) (hc : h[i]? = some c) :
    h.offs i + c.blockSize ≤ b.len := hb.len_eq ▸ Heap.offs_add_le_total hc

theorem Heap.Holds.rows_le (hb : h.Holds b) (hc : h[i]? = some c) :
    (h.handle i c).base + (h.handle i c).rows * (h.handle i c).stride ≤ b.len := by
  have hend := hb.block_le hc
  have hle := c.le_blockSize
  show h.offs i + 8 + c.bodySize ≤ b.len
  omega

/-- **Opening** an object. -/
theorem Heap.Holds.objInit (hb : h.Holds b) (hc : h[i]? = some c) (rr : Obj) :
    objInit b rr (h.offs i) = some (h.handle i c) :=
  (hb.rep i c hc).objInit hb.len_lt (hb.block_le hc) rr

/-- What a pointer leads to. -/
def Heap.target (h : Heap) : Option Nat → Obj
  | none => Obj.null
  | some t => (h[t]?.map (h.handle t)).getD Obj.null

theorem Heap.target_some {t : Nat} (hc : h[t]? = some c) : h.target (some t) = h.handle t c := by
  rw [Heap.target, hc]
  rfl

theorem Heap.Holds.slot_eq (hb : h.Holds b) (hc : h[i]? = some c) {k x : Nat} (hk : k < c.nelem)
    (hx : x < c.psize) :
    (getElem (h.handle i c) k).slot x = h.slotPos i c (c.row k) x :=
  slot_getElem (by have := hb.block_le hc; have := hb.len_lt; omega) hk hx

/-- The word of a short pointer, read back. -/
theorem target_of_word {slot off : Nat} (hlt : slot < off) (hnear : off < slot + 2 ^ 33)
    (hdvd : 4 ∣ off - slot) :
    (((off - slot) / 4 : Nat) : Int).bmod (256 ^ 4) = ((off - slot) / 4 : Nat) ∧
      (slot : Int) + 4 * (((off - slot) / 4 : Nat) : Int) = off := by
  constructor
  · rw [Int.bmod_eq_of_le] <;> omega
  · omega

/-- **Following a pointer** whose target is less than `2 ^ 33` bytes away. -/
theorem Heap.Holds.getPtr (hb : h.Holds b) (hc : h[i]? = some c) {k x : Nat} (hk : k < c.nelem)
    (hx : x < c.psize)
    (hnear : ∀ t, c.ptr (c.row k) x = some t → h.offs t < h.slotPos i c (c.row k) x + 2 ^ 33) :
    Nbuf.getPtr b (getElem (h.handle i c) k) x = some (h.target (c.ptr (c.row k) x)) := by
  have hrow := Shape.row_lt_rows hk
  have hpos := c.rowPos_inside (h.offs i) hrow
  have hin := c.slotPos_inside (h.offs i) (c.row k) hx
  have hle := c.le_blockSize
  have hend := hb.block_le hc
  have hlt := hb.len_lt
  have heq : h.slotPos i c (c.row k) x = c.slotPos (h.offs i) (c.row k) x := rfl
  have hslot := hb.slot_eq hc hk hx
  have hpsize : (getElem (h.handle i c) k).psize = c.psize := getElem_psize hk
  have hword := (hb.rep i c hc).slot _ hrow x hx
  have hread : readIntSafe b ((getElem (h.handle i c) k).slot x) 4
      = some ((h.relWord i c (c.row k) x : Int).bmod (256 ^ 4)) := by
    rw [hslot, readIntSafe_of_le rfl (by omega) (by omega), heq, hword]
  rw [getPtr_eq hlt (by rw [hpsize]; exact hx) hread, hslot]
  cases hp : c.ptr (c.row k) x with
  | none =>
      have hzero : h.relWord i c (c.row k) x = 0 := by
        unfold Heap.relWord
        rw [hp]
      rw [hzero, if_neg (by simp)]
      rfl
  | some t =>
      obtain ⟨hit, ht⟩ := hb.forward i c hc _ hrow x hx t hp
      have hct : h[t]? = some h[t] := List.getElem?_eq_getElem ht
      have hbefore := Heap.offs_add_le hc hit
      have hendt := hb.block_le hct
      have hlet := (h[t]).le_blockSize
      have hnear' := hnear t hp
      -- distances are whole words
      have hdvd := h.dvd_slotPos i (c.row k) hx
      have hdvdt := h.dvd_offs t
      have hrel : h.relWord i c (c.row k) x = (h.offs t - h.slotPos i c (c.row k) x) / 4 := by
        unfold Heap.relWord
        rw [hp]
        exact Nat.mod_eq_of_lt (by omega)
      have hlt' : h.slotPos i c (c.row k) x < h.offs t := by omega
      have hne : ((h.offs t - h.slotPos i c (c.row k) x) / 4 : Nat) ≠ 0 := by omega
      have hin' : h.offs t < b.len := by omega
      obtain ⟨hsmall, htarget⟩ := target_of_word hlt' hnear' (by omega)
      rw [hrel, hsmall, htarget, if_pos ⟨Int.natCast_ne_zero.mpr hne, Int.natCast_nonneg _,
        Int.ofNat_lt.mpr hin'⟩, Heap.target_some hct]
      exact hb.objInit hct Obj.null

/-- **Reading a number.** -/
theorem Heap.Holds.getInt (hb : h.Holds b) (hc : h[i]? = some c) {k off sz : Nat}
    (hk : k < c.nelem) (hsz : scalarSize sz = true) (hdvd : sz ∣ off)
    (hoff : off + sz ≤ c.width) : Nbuf.getInt b (getElem (h.handle i c) k) off sz
      = some (((c.scal (c.row k)).load off sz : Int).bmod (256 ^ sz)) :=
  (hb.rep i c hc).getInt (hb.block_le hc) hb.len_lt hk hsz hdvd hoff

/-- **Reading a bit.** -/
theorem Heap.Holds.getBit (hb : h.Holds b) (hc : h[i]? = some c) {k off : Nat}
    (hk : k < c.nelem) (hoff : off / 8 < c.width) :
    Nbuf.getBit b (getElem (h.handle i c) k) off
      = some ((c.scal (c.row k)).bit (off / 8) (off % 8)) := by
  have hscal := (hb.rep i c hc).scal _ (Shape.row_lt_rows hk) _ hoff
  rw [getBit_elem (hb.rows_le hc) hb.len_lt hk hoff]
  unfold ByteMem.bit
  rw [← hscal]
  rfl

/-- **Reading a string** that a pointer leads to. -/
theorem Heap.Holds.getStr (hb : h.Holds b) (hc : h[i]? = some c) {k x t : Nat} {ct : Cell}
    (hk : k < c.nelem) (hx : x < c.psize) (hp : c.ptr (c.row k) x = some t)
    (hct : h[t]? = some ct) (hnear : h.offs t < h.slotPos i c (c.row k) x + 2 ^ 33)
    {str : List UInt8} (hstr : ct.IsStr str) :
    ∃ ref, Nbuf.getStr b (getElem (h.handle i c) k) x = some ref ∧ ref.len = str.length ∧
      ref.bytes b = some str := by
  obtain ⟨-, -, hbody⟩ := hstr.shape
  have hend := hb.block_le hct
  have hle := ct.le_blockSize
  have hlt := hb.len_lt
  have hget := hb.getPtr hc hk hx fun t' ht' => by
    rw [hp, Option.some.injEq] at ht'
    exact ht' ▸ hnear
  rw [hp, Heap.target_some hct] at hget
  have hbase : (h.handle t ct).base = h.offs t + 8 := rfl
  have hchk : boundsCheck b (sizeT (h.offs t + 8 + (str.length + 1) - 1)) 1 = true := by
    rw [sizeT_of_lt (by omega)]
    exact (boundsCheck_iff (by omega)).mpr (by omega)
  refine ⟨⟨some (h.offs t + 8), str.length⟩, ?_, rfl, (hb.rep t ct hct).readBytes hend hstr⟩
  unfold Nbuf.getStr
  simp only [hget, Option.bind_eq_bind, Option.bind_some, Heap.handle_nelem, hstr.nelem_eq, hbase]
  rw [if_pos (Nat.succ_pos _), assertC_pos hchk]
  rfl

end

end Nbuf
