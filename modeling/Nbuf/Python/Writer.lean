import Nbuf.Python.Obj
import Nbuf.Wire.Refinement

set_option autoImplicit false

/-! # The Python writer writes the bytes of the plain writer

A Python client is a `bytearray` and the objects it created in it. Seen as a full buffer, its bytes
represent the same heap as the bytes of a plain writer that makes the same calls, and a heap
determines its bytes.
-/

namespace Nbuf.Py

open Run ByteMem

/-! ## Clients -/

/-- A call of the Python writer on object `i`, through its element `k`. A message is its own
element `0`. -/
inductive Call where
  | new (sh : Shape)
  | putInt (i k offs size : Nat) (unsigned : Bool) (v : Int)
  | putBool (i k bitoffs : Nat) (v : Bool)
  | putObj (i k idx t : Nat)
  | putStr (i k idx : Nat) (v : List UInt8)

/-- The call of the plain writer. A number is converted to `uint64_t`. -/
def Call.plain : Call → Nbuf.Call
  | .new sh => .create sh
  | .putInt i k offs size _ v => .putInt i k offs size (v % 2 ^ 64).toNat
  | .putBool i k bitoffs v => .putBit i k bitoffs v
  | .putObj i k idx t => .putPtr i k idx t
  | .putStr i k idx v => .putStr i k idx v v.length

/-- A client of the Python writer. The object of a string is kept, too, although `put_str` does not
return it. -/
structure Client where
  buf : Bytes
  objs : List Obj

/-- Object `i` of the client. -/
def Client.obj (s : Client) (i : Nat) : Except Err Obj :=
  match s.objs[i]? with
  | some o => .ok o
  | none => .error .indexError

/-- One call -/
def Client.step (s : Client) : Call → Except Err Client
  | .new sh => do
      let (buf, o) ← Py.new s.buf sh.nelem sh.ssize sh.psize
      pure ⟨buf, s.objs ++ [o]⟩
  | .putInt i k offs size unsigned v => do
      let o ← (← s.obj i).getitem k
      let buf ← o.putInt s.buf offs size unsigned v
      pure { s with buf := buf }
  | .putBool i k bitoffs v => do
      let o ← (← s.obj i).getitem k
      let buf ← o.putBool s.buf bitoffs v
      pure { s with buf := buf }
  | .putObj i k idx t => do
      let o ← (← s.obj i).getitem k
      let buf ← o.putObj s.buf idx (← s.obj t)
      pure { s with buf := buf }
  | .putStr i k idx v => do
      let o ← (← s.obj i).getitem k
      let (buf, str) ← o.putStr s.buf idx v
      pure ⟨buf, s.objs ++ [str]⟩

/-- The call keeps to the interface: element and slot exist, a number is in range, at an offset
that is aligned in its element and in the buffer, and a pointer leads to an object created
later. -/
def Call.Valid (h : Heap) : Call → Prop
  | .new _ => True
  | .putInt i k offs size unsigned v => ∃ c, h[i]? = some c ∧ k < c.nelem ∧
      offs + size ≤ c.ssize ∧ scalarSize size = true ∧ size ∣ offs ∧ size ∣ k * c.stride ∧
        InRange size unsigned v
  | .putBool i k bitoffs _ => ∃ c, h[i]? = some c ∧ k < c.nelem ∧ bitoffs / 8 < c.ssize
  | .putObj i k idx t => ∃ c, h[i]? = some c ∧ k < c.nelem ∧ idx < c.psize ∧ i < t ∧ t < h.length
  | .putStr i k idx v => ∃ c, h[i]? = some c ∧ k < c.nelem ∧ idx < c.psize ∧ v.length + 1 < 2 ^ 32

instance (h : Heap) : (call : Call) → Decidable (call.Valid h)
  | .new _ => isTrue trivial
  | .putInt i k offs size unsigned v => inferInstanceAs (Decidable (∃ c ∈ h[i]?, k < c.nelem ∧
      offs + size ≤ c.ssize ∧ scalarSize size = true ∧ size ∣ offs ∧ size ∣ k * c.stride ∧
        InRange size unsigned v))
  | .putBool i k bitoffs _ => inferInstanceAs (Decidable (∃ c ∈ h[i]?, k < c.nelem ∧
      bitoffs / 8 < c.ssize))
  | .putObj i k idx t => inferInstanceAs (Decidable (∃ c ∈ h[i]?, k < c.nelem ∧ idx < c.psize ∧
      i < t ∧ t < h.length))
  | .putStr i k idx v => inferInstanceAs (Decidable (∃ c ∈ h[i]?, k < c.nelem ∧ idx < c.psize ∧
      v.length + 1 < 2 ^ 32))

/-- What a call does to the heap. -/
def Call.step (h : Heap) (call : Call) : Option Heap := some (call.plain.apply h)

/-! ## The relation -/

/-- The bytes as a buffer without room. -/
def Bytes.view (buf : Bytes) : Buffer := ⟨buf.mem, buf.len, buf.len⟩

/-- The Python object of a shape with its header at `offs` -/
def ofShape (sh : Shape) (offs : Nat) : Obj := ⟨offs + 8, sh.nelem, sh.ssize, sh.psize⟩

/-- The bytes and the objects are those of the heap. -/
structure Client.Rel (s : Client) (h : Heap) : Prop where
  handles : h.Handles ofShape s.objs
  plain : ∃ objs, Plain.Rel ⟨s.buf.view, objs⟩ h

theorem Client.rel_init : Client.Rel ⟨Bytes.empty, []⟩ [] where
  handles := fun i => by simp
  plain := ⟨[], Plain.rel_init rfl (by decide)⟩

section

variable {s : Client} {h : Heap} {i : Nat} {c : Cell}

theorem Client.Rel.obj (hs : s.Rel h) (hc : h[i]? = some c) :
    s.obj i = .ok (ofShape c.toShape (h.offs i)) := by
  rw [Client.obj, hs.handles.get hc]

/-- An element of an object that is not a vector of bits. -/
theorem getitem_ofShape {sh : Shape} {base k : Nat} (hk : k < sh.nelem)
    (hsh : ¬ (sh.ssize = 0 ∧ sh.psize = 0)) : (ofShape sh base).getitem k
      = .ok ⟨sh.rowPos base k, 1, sh.ssize, sh.psize⟩ := by
  have hstride : (ofShape sh base).elemsz = sh.stride := by
    rw [sh.stride_eq, sh.width_eq, if_neg hsh]
    show max (sh.ssize + 4 * sh.psize) 1 = _
    omega
  rw [Obj.getitem, hstride]
  exact if_neg (Nat.not_le.mpr hk)

/-- What `new` appends is the block of the object. -/
theorem newSize_eq (sh : Shape) : newSize sh.nelem sh.ssize sh.psize = sh.blockSize := by
  have hbody : (if sh.ssize + 4 * sh.psize > 0 then (sh.ssize + 4 * sh.psize) * sh.nelem
      else (sh.nelem + 7) >>> 3) = sh.bodySize := by
    unfold Shape.bodySize
    rw [sh.rows_eq, sh.stride_eq, sh.width_eq, shiftRight_three]
    by_cases h0 : sh.ssize = 0 ∧ sh.psize = 0
    · rw [if_neg (by omega), if_pos h0, if_pos h0, h0.2]
      omega
    · rw [if_pos (by omega), if_neg h0, if_neg h0, Nat.mul_comm, Nat.mul_comm 4]
  unfold newSize
  simp only [hbody]
  rw [shiftRight_three, Nat.shiftLeft_eq]
  rfl

/-- The header may be written after the bytes are cleared. -/
theorem store_fill (m : ByteMem) (base v : Nat) {n : Nat} (hn : 8 ≤ n) :
    (m.fill base n 0).store base 8 v = (m.store base 8 v).fill (base + 8) (n - 8) 0 := by
  funext p
  by_cases hhdr : base ≤ p ∧ p < base + 8
  · rw [fill_outside _ _ (by omega)]
    simp [store, hhdr]
  · rw [store_outside _ (by omega)]
    by_cases hbody : base + 8 ≤ p ∧ p < base + n
    · rw [fill_inside _ _ (by omega) hbody.2, fill_inside _ _ hbody.1 (by omega)]
    · rw [fill_outside _ _ (by omega), fill_outside _ _ (by omega), store_outside _ (by omega)]

/-- The low bytes of a number converted to `uint64_t` -/
theorem toNat_emod_emod {n : Nat} (h : n ∣ 2 ^ 64) (v : Int) :
    (v % n).toNat = (v % 2 ^ 64).toNat % n := by
  have hdvd : (n : Int) ∣ 2 ^ 64 := by exact_mod_cast h
  have hpos : 0 ≤ v % 2 ^ 64 := Int.emod_nonneg v (by decide)
  rw [← Int.emod_emod_of_dvd v hdvd]
  obtain ⟨w, hw⟩ := Int.eq_ofNat_of_zero_le hpos
  rw [hw]
  exact_mod_cast Int.toNat_natCast (w % n)

theorem scalarSize_spec {size : Nat} (h : scalarSize size = true) :
    size ≠ 0 ∧ size ∣ 8 ∧ 256 ^ size ∣ 2 ^ 64 := by
  simp only [scalarSize, Bool.or_eq_true, beq_iff_eq, or_assoc] at h
  rcases h with rfl | rfl | rfl | rfl <;> decide

/-- **A new object** -/
theorem Client.Rel.new (hs : s.Rel h) {sh : Shape} (hfit : h.total + sh.blockSize < 2 ^ 63) :
    ∃ buf, Py.new s.buf sh.nelem sh.ssize sh.psize = .ok (buf, ofShape sh h.total) ∧
      Client.Rel ⟨buf, s.objs ++ [ofShape sh h.total]⟩ (h ++ [Cell.new sh]) := by
  obtain ⟨objs, hplain⟩ := hs.plain
  have hlen : s.buf.len = h.total := hplain.len_eq
  have hle := sh.le_blockSize
  have hnew := @new_of_lt s.buf _ _ _ sh.nelem_lt sh.ssize_lt sh.psize_lt
  rw [newSize_eq, hlen, store_fill _ _ _ (by omega)] at hnew
  refine ⟨_, hnew, hs.handles.append (Cell.new sh), objs ++ [sh.obj (h.total + 8)], hplain.append rfl (Nat.le_refl _)
    (by show h.total + sh.blockSize < 2 ^ 64; omega) ?_ (block_new _ _ sh)⟩
  intro p hp
  show fill (store s.buf.mem h.total 8 _) (h.total + 8) _ 0 p = s.buf.mem p
  rw [fill_outside _ _ (by omega), store_outside _ (Or.inl hp)]

/-- An update of the bytes that does to them what a call of the plain writer does. -/
theorem Client.Rel.modify (hs : s.Rel h) {f : Cell → Cell} (hf : ∀ c, (f c).toShape = c.toShape)
    {m : ByteMem} (hplain : ∀ objs, Plain.Rel ⟨s.buf.view, objs⟩ h →
      Plain.Rel ⟨{ s.buf.view with mem := m }, objs⟩ (h.modify i f)) :
    Client.Rel { s with buf := { s.buf with mem := m } } (h.modify i f) := by
  obtain ⟨objs, hrel⟩ := hs.plain
  exact ⟨hs.handles.modify i hf, objs, hplain objs hrel⟩

/-- The bytes of an element lie in the buffer. -/
theorem Client.Rel.row_fits (hs : s.Rel h) (hc : h[i]? = some c) {k : Nat} (hk : k < c.nelem) :
    c.rowPos (h.offs i) (c.row k) + c.stride ≤ s.buf.len := by
  obtain ⟨objs, hplain⟩ := hs.plain
  have hlen : s.buf.len = h.total := hplain.len_eq
  have hrow := c.rowPos_inside (h.offs i) (Shape.row_lt_rows hk)
  have hle := c.le_blockSize
  have hend := Heap.offs_add_le_total hc
  omega

/-- **A number** -/
theorem Client.Rel.putInt (hs : s.Rel h) (hc : h[i]? = some c) (htot : h.total < 2 ^ 63)
    {k offs size : Nat} {unsigned : Bool} {v : Int} (hk : k < c.nelem) (hin : offs + size ≤ c.ssize)
    (hsize : scalarSize size = true) (hdvd : size ∣ offs) (hrow : size ∣ k * c.stride)
    (hv : InRange size unsigned v) :
    ∃ o buf, (ofShape c.toShape (h.offs i)).getitem k = .ok o ∧
      o.putInt s.buf offs size unsigned v = .ok buf ∧
      Client.Rel { s with buf := buf }
        (h.modify i fun c => c.setInt k offs size (v % 2 ^ 64).toNat) := by
  have hpos : size ≠ 0 ∧ size ∣ 8 ∧ 256 ^ size ∣ 2 ^ 64 := scalarSize_spec hsize
  have hsh : ¬ (c.ssize = 0 ∧ c.psize = 0) := by omega
  have hwidth : c.width = c.ssize := by rw [c.width_eq, if_neg hsh]
  have hrowk : c.row k = k := c.row_eq hsh k
  have hfit := hs.row_fits hc hk
  rw [hrowk, c.stride_eq] at hfit
  have haligned : size ∣ c.rowPos (h.offs i) k + offs := by
    rw [c.rowPos_eq]
    have hoffs := hpos.2.1.trans (h.dvd_offs i)
    exact dvd_add (dvd_add (dvd_add hoffs hpos.2.1) hrow) hdvd
  have hput := @Obj.putInt_of_le s.buf ⟨c.rowPos (h.offs i) k, 1, c.ssize, c.psize⟩ _ _ _ _
    hsize hin haligned hv (by show c.rowPos (h.offs i) k + offs + size ≤ _; omega)
  refine ⟨_, _, getitem_ofShape hk hsh, hput, hs.modify (fun c => c.setInt_toShape _ _ _ _) ?_⟩
  intro objs hplain
  -- The plain writer makes the same store.
  obtain ⟨b', hb', hrel⟩ := hplain.putInt hc htot hk (fun _ => hsize) hpos.1 hdvd (by
    have := c.ssize_lt
    omega) (v % 2 ^ 64).toNat
  have hstore := (hplain.writable hc htot).putInt (v % 2 ^ 64).toNat hk hsize hdvd
    (by rw [Shape.obj_width, hwidth]; exact hin)
  rw [hstore, Option.some.injEq] at hb'
  rw [← hb'] at hrel
  have hword : (v % 256 ^ size).toNat = (v % 2 ^ 64).toNat % 256 ^ size := toNat_emod_emod hpos.2.2 v
  have hrowpos : (c.obj (h.offs i + 8)).rowPos ((c.obj (h.offs i + 8)).row k)
      = c.rowPos (h.offs i) k := by rw [Shape.obj_row, hrowk]; rfl
  rw [hrowpos] at hrel
  rw [hword, store_mod]
  exact hrel

/-- **A bit** -/
theorem Client.Rel.putBool (hs : s.Rel h) (hc : h[i]? = some c) (htot : h.total < 2 ^ 63)
    {k bitoffs : Nat} (v : Bool) (hk : k < c.nelem) (hin : bitoffs / 8 < c.ssize) :
    ∃ o buf, (ofShape c.toShape (h.offs i)).getitem k = .ok o ∧
      o.putBool s.buf bitoffs v = .ok buf ∧
      Client.Rel { s with buf := buf } (h.modify i fun c => c.setBit k bitoffs v) := by
  have hsh : ¬ (c.ssize = 0 ∧ c.psize = 0) := by omega
  have hwidth : c.width = c.ssize := by rw [c.width_eq, if_neg hsh]
  have hrowk : c.row k = k := c.row_eq hsh k
  have hfit := hs.row_fits hc hk
  rw [hrowk, c.stride_eq] at hfit
  have hput := @Obj.putBool_of_lt s.buf ⟨c.rowPos (h.offs i) k, 1, c.ssize, c.psize⟩ _ v hin (by show c.rowPos (h.offs i) k + bitoffs / 8 < _; omega)
  refine ⟨_, _, getitem_ofShape hk hsh, hput, hs.modify (fun c => c.setBit_toShape _ _ _) ?_⟩
  intro objs hplain
  obtain ⟨b', hb', hrel⟩ := @Plain.Rel.putBit _ _ _ _ hplain hc htot k bitoffs hk v
  have hbit := @Obj.Writable.putBit _ _ (hplain.writable hc htot) k bitoffs v hk
    (by rw [Shape.obj_width, hwidth]; exact hin)
  rw [hbit, Option.some.injEq] at hb'
  rw [← hb', Shape.obj_row, hrowk] at hrel
  exact hrel

/-- **A pointer** -/
theorem Client.Rel.putObj (hs : s.Rel h) (hc : h[i]? = some c) (htot : h.total < 2 ^ 32)
    {k idx t : Nat} {ct : Cell} (hct : h[t]? = some ct) (hk : k < c.nelem) (hidx : idx < c.psize)
    (hit : i < t) :
    ∃ o buf, (ofShape c.toShape (h.offs i)).getitem k = .ok o ∧
      o.putObj s.buf idx (ofShape ct.toShape (h.offs t)) = .ok buf ∧
      Client.Rel { s with buf := buf } (h.modify i fun c => c.putPtr (c.row k) idx t) := by
  have hsh : ¬ (c.ssize = 0 ∧ c.psize = 0) := by omega
  have hwidth : c.width = c.ssize := by rw [c.width_eq, if_neg hsh]
  have hrowk : c.row k = k := c.row_eq hsh k
  have hlt := Heap.slotPos_lt_offs hc (Shape.row_lt_rows hk) hidx hit
  have hdvd := h.dvd_slotPos i (c.row k) hidx
  have hdvdt := h.dvd_offs t
  have hendt := Heap.offs_add_le_total hct
  have hlet := ct.le_blockSize
  have hlen : s.buf.len = h.total := by
    obtain ⟨objs, hplain⟩ := hs.plain
    exact hplain.len_eq
  have hslot : c.rowPos (h.offs i) k + (c.ssize + 4 * idx) = h.slotPos i c (c.row k) idx := by
    unfold Heap.slotPos Shape.slotPos
    rw [hrowk, hwidth]
    omega
  have hput := @Obj.putObj_of_lt s.buf ⟨c.rowPos (h.offs i) k, 1, c.ssize, c.psize⟩
    (ofShape ct.toShape (h.offs t)) _ hidx
    (by simp only [hslot, ofShape]; omega) (by simp only [hslot, ofShape]; omega)
    (by simp only [ofShape]; omega) (by simp only [hslot]; omega)
  simp only [hslot, ofShape, Nat.add_sub_cancel] at hput
  have hshape : ∀ c : Cell, (c.putPtr (c.row k) idx t).toShape = c.toShape := fun _ => rfl
  exact ⟨_, _, getitem_ofShape hk hsh, hput, hs.modify hshape fun objs hplain =>
    hplain.storePtr hc hk hidx hit (List.getElem?_eq_some_iff.mp hct).1⟩

/-- The bytes of a string in a new object. The NUL is there already. -/
theorem Client.Rel.packStr {v : List UInt8} (hn : v.length + 1 < 2 ^ 32)
    (hs : s.Rel (h ++ [Cell.new (strShape v.length)])) :
    ∃ buf, s.buf.packStr (h.total + 8) v = .ok buf ∧
      Client.Rel { s with buf := buf } (h ++ [strCell v]) := by
  obtain ⟨objs, hplain⟩ := hs.plain
  have hcell : (h ++ [Cell.new (strShape v.length)])[h.length]? =
      some (Cell.new (strShape v.length)) := List.getElem?_concat_length
  have hblock := hplain.rep _ _ hcell
  rw [h.offs_append _ (Nat.le_refl _), h.offs_length] at hblock
  have hrows : (strShape v.length).rows = v.length + 1 := strShape_nelem hn
  have hbody : (strShape v.length).bodySize = v.length + 1 := by
    rw [Shape.bodySize, hrows, Shape.stride_eq, strShape_width]
    exact Nat.mul_one _
  have hle := (strShape v.length).le_blockSize
  have hlen : s.buf.len = h.total + (strShape v.length).blockSize := by
    have hview : s.buf.len = Heap.total (h ++ [Cell.new (strShape v.length)]) := hplain.len_eq
    rw [hview, Heap.total_append, Heap.total_singleton]
    rfl
  -- The byte that `nbuf_put_str` sets to NUL was cleared when the object was created.
  have hnul : s.buf.mem (h.total + 8 + v.length) = 0 := by
    have hrow : (Cell.new (strShape v.length)).rowPos h.total v.length + 0
        = h.total + 8 + v.length := by
      show (strShape v.length).rowPos h.total v.length + 0 = _
      rw [Shape.rowPos_eq, Shape.stride_eq, strShape_width]
      show h.total + 8 + v.length * (1 + 0 * 4) + 0 = _
      omega
    have hzero := hblock.scal v.length (by show _ < (strShape v.length).rows; omega) 0
      (by show 0 < (strShape v.length).width; rw [strShape_width]; decide)
    rwa [hrow] at hzero
  have hmem : (s.buf.mem.copy (h.total + 8) (ofList v) 0 v.length).fill
      (h.total + 8 + v.length) 1 0 = s.buf.mem.copy (h.total + 8) (ofList v) 0 v.length := by
    funext p
    by_cases hp : p = h.total + 8 + v.length
    · rw [hp, fill_inside _ _ (Nat.le_refl _) (by omega), copy_outside _ _ _ (by omega), hnul]
    · rw [fill_outside _ _ (by omega)]
  obtain ⟨b', hfill, hrel⟩ := hplain.fillStr hn (Nat.le_refl v.length)
  have hfill' : Nbuf.fillStr s.buf.view ((strShape v.length).obj (h.total + 8)) v v.length
      = some { s.buf.view with mem := s.buf.mem.copy (h.total + 8) (ofList v) 0 v.length } := by
    have hext : s.buf.len ≤ s.buf.view.extent := Nat.le_max_left _ _
    have hcopy : memcpyC s.buf.view (h.total + 8) (ofList v) v.length v.length
        = some { s.buf.view with mem := s.buf.mem.copy (h.total + 8) (ofList v) 0 v.length } := by
      unfold memcpyC
      rw [assertC_pos (Nat.le_refl _), assertC_pos (by omega)]
      rfl
    unfold Nbuf.fillStr memsetC
    rw [Shape.obj_base, hcopy, Option.bind_eq_bind, Option.bind_some,
      assertC_pos (by show h.total + 8 + v.length + 1 ≤ s.buf.view.extent; omega)]
    exact congrArg (fun m => some { s.buf.view with mem := m }) hmem
  rw [hfill', Option.some.injEq] at hfill
  rw [← hfill, List.take_length] at hrel
  have hpack : s.buf.packStr (h.total + 8) v
      = .ok { s.buf with mem := s.buf.mem.copy (h.total + 8) (ofList v) 0 v.length } :=
    if_pos (by omega)
  have hhandles := hs.handles.modify h.length (g := fun c => c.putBytes v) fun _ => rfl
  rw [Heap.modify_last] at hhandles
  exact ⟨_, hpack, hhandles, objs, hrel⟩

theorem strLength_length {v : List UInt8} (hn : v.length + 1 < 2 ^ 32) :
    strLength v v.length = some v.length := by
  rw [strLength, if_neg (by rw [sizeT_of_lt (by omega)]; omega)]

/-- **A string**, and a pointer to it -/
theorem Client.Rel.putStr (hs : s.Rel h) (hc : h[i]? = some c) {k idx : Nat} {v : List UInt8}
    (hk : k < c.nelem) (hidx : idx < c.psize) (hn : v.length + 1 < 2 ^ 32)
    (hfit : h.total + (strShape v.length).blockSize < 2 ^ 32) :
    ∃ o buf, (ofShape c.toShape (h.offs i)).getitem k = .ok o ∧
      o.putStr s.buf idx v = .ok (buf, ofShape (strShape v.length) h.total) ∧
      Client.Rel ⟨buf, s.objs ++ [ofShape (strShape v.length) h.total]⟩
        (Nbuf.Call.apply h (.putStr i k idx v v.length)) := by
  have hi : i < h.length := (List.getElem?_eq_some_iff.mp hc).1
  have hnelem := strShape_nelem hn
  obtain ⟨buf₁, hnew, hs₁⟩ := hs.new (show h.total + (strShape v.length).blockSize < 2 ^ 63 by omega)
  obtain ⟨buf₂, hpack, hs₂⟩ := hs₁.packStr hn
  have hci : (h ++ [strCell v])[i]? = some c := by
    rw [List.getElem?_append_left hi, hc]
  have htot : (h ++ [strCell v]).total < 2 ^ 32 := by
    rw [Heap.total_append, Heap.total_singleton]
    exact hfit
  obtain ⟨o, buf₃, hget, hput, hs₃⟩ := hs₂.putObj hci htot (t := h.length)
    List.getElem?_concat_length hk hidx hi
  rw [h.offs_append _ (Nat.le_of_lt hi)] at hget
  rw [h.offs_append _ (Nat.le_refl _), h.offs_length] at hput
  refine ⟨o, buf₃, hget, ?_, ?_⟩
  · have hnew' : Py.new s.buf (v.length + 1) 1 0 = .ok (buf₁, ofShape (strShape v.length) h.total) := by
      rw [← hnelem]
      exact hnew
    rw [Obj.putStr, hnew', ok_bind]
    simp only
    rw [show (ofShape (strShape v.length) h.total).base = h.total + 8 from rfl, hpack, ok_bind]
    have hstr : (strCell v).toShape = strShape v.length := rfl
    rw [hstr] at hput
    rw [hput]
    rfl
  · rw [Nbuf.Call.apply_putStr h i k idx (strLength_length hn), if_neg (by rw [Nat.mod_eq_of_lt hn]; omega),
      List.take_length]
    exact hs₃

/-! ## Runs -/

theorem Client.step_putStr {i k idx : Nat} {v : List UInt8} {o e str : Obj} {buf : Bytes}
    (hobj : s.obj i = .ok o) (hget : o.getitem k = .ok e)
    (hput : e.putStr s.buf idx v = .ok (buf, str)) :
    s.step (.putStr i k idx v) = .ok ⟨buf, s.objs ++ [str]⟩ := by
  rw [Client.step, hobj, ok_bind, hget, ok_bind, hput]
  rfl

/-- **One call** of the Python writer does to the heap what the call of the plain writer does. -/
theorem Client.Rel.step (hs : s.Rel h) {call : Call} (hok : call.Valid h)
    (hfit : (call.plain.apply h).total < 2 ^ 32) :
    ∃ s', s.step call = .ok s' ∧ s'.Rel (call.plain.apply h) := by
  have htot : h.total < 2 ^ 32 := Nat.lt_of_le_of_lt (call.plain.total_le_apply h) hfit
  cases call with
  | new sh =>
      have hsum : (Nbuf.Call.apply h (.create sh)).total = h.total + sh.blockSize := by
        show Heap.total (h ++ _) = _
        rw [Heap.total_append, Heap.total_singleton]
        rfl
      have hfit' : (Nbuf.Call.apply h (.create sh)).total < 2 ^ 32 := hfit
      obtain ⟨buf, hnew, hrel⟩ := hs.new (show h.total + sh.blockSize < 2 ^ 63 by omega)
      refine ⟨_, ?_, hrel⟩
      simp only [Client.step, hnew, ok_bind, pure_eq_ok]
  | putInt i k offs size unsigned v =>
      obtain ⟨c, hc, hk, hin, hsize, hdvd, hrow, hv⟩ := hok
      obtain ⟨o, buf, hget, hput, hrel⟩ := hs.putInt hc (by omega) hk hin hsize hdvd hrow hv
      refine ⟨_, ?_, hrel⟩
      simp only [Client.step, hs.obj hc, ok_bind, hget, hput, pure_eq_ok]
  | putBool i k bitoffs v =>
      obtain ⟨c, hc, hk, hin⟩ := hok
      obtain ⟨o, buf, hget, hput, hrel⟩ := hs.putBool hc (by omega) v hk hin
      refine ⟨_, ?_, hrel⟩
      simp only [Client.step, hs.obj hc, ok_bind, hget, hput, pure_eq_ok]
  | putObj i k idx t =>
      obtain ⟨c, hc, hk, hidx, hit, ht⟩ := hok
      have hct : h[t]? = some h[t] := List.getElem?_eq_getElem ht
      obtain ⟨o, buf, hget, hput, hrel⟩ := hs.putObj hc htot hct hk hidx hit
      refine ⟨_, ?_, hrel⟩
      simp only [Client.step, hs.obj hc, hs.obj hct, ok_bind, hget, hput, pure_eq_ok]
  | putStr i k idx v =>
      obtain ⟨c, hc, hk, hidx, hn⟩ := hok
      have hlen := strLength_length hn
      have hfit' : (Nbuf.Call.apply h (.putStr i k idx v v.length)).total < 2 ^ 32 := hfit
      rw [Nbuf.Call.total_apply_putStr h hlen (Nat.le_refl _)] at hfit'
      obtain ⟨o, buf, hget, hput, hrel⟩ := hs.putStr hc hk hidx hn hfit'
      exact ⟨_, Client.step_putStr (hs.obj hc) hget hput, hrel⟩

end

theorem run_plain (h : Heap) (calls : List Call) :
    Run.run Call.step h calls = some ((calls.map Call.plain).foldl Nbuf.Call.apply h) := by
  induction calls generalizing h with
  | nil => rfl
  | cons call calls ih => exact ih (call.plain.apply h)

/-- **A run** of the Python writer -/
theorem Client.Rel.run {s : Client} {h : Heap} (hs : s.Rel h) {calls : List Call}
    (hok : AllSteps Call.step Call.Valid h calls)
    (hfit : Heap.total ((calls.map Call.plain).foldl Nbuf.Call.apply h) < 2 ^ 32) :
    ∃ s', calls.foldlM Client.step s = .ok s' ∧
      s'.Rel ((calls.map Call.plain).foldl Nbuf.Call.apply h) := by
  induction calls generalizing s h with
  | nil => exact ⟨s, rfl, hs⟩
  | cons call calls ih =>
      have hle := Nbuf.Call.total_le_run (run_step_eq (call.plain.apply h) (calls.map Call.plain))
      obtain ⟨s₁, hstep, hs₁⟩ := hs.step hok.1 (Nat.lt_of_le_of_lt hle hfit)
      obtain ⟨s', hrun, hs'⟩ := ih hs₁ (hok.2 _ rfl) hfit
      refine ⟨s', ?_, hs'⟩
      rw [List.foldlM_cons, hstep, ok_bind, hrun]

/-- A valid Python call is a valid call of the plain writer. -/
theorem Call.Valid.plain {h : Heap} {call : Call} (hok : call.Valid h) : call.plain.Ok h := by
  cases call with
  | new sh => exact ⟨trivial, trivial⟩
  | putInt i k offs size unsigned v =>
      obtain ⟨c, hc, hk, hin, hsize, hdvd, -, -⟩ := hok
      have hlt := c.ssize_lt
      exact ⟨⟨c, hc, hk, fun _ => hsize, (scalarSize_spec hsize).1, hdvd, by omega⟩,
        show offs + size < 2 ^ 64 by omega⟩
  | putBool i k bitoffs v =>
      obtain ⟨c, hc, hk, hin⟩ := hok
      have hlt := c.ssize_lt
      exact ⟨⟨c, hc, hk, by omega⟩, trivial⟩
  | putObj i k idx t => exact ⟨hok, trivial⟩
  | putStr i k idx v =>
      obtain ⟨c, hc, hk, hidx, hn⟩ := hok
      exact ⟨⟨c, hc, hk, hidx, v.length, strLength_length hn, Nat.le_refl _, Or.inl hn⟩, trivial⟩

/-- A message with numbers, a bit, a string and a list of two messages. -/
def sampleCalls : List Call :=
  [.new (.ofCounts 1 8 2 (Eq.refl true)),
    .putInt 0 0 0 4 false (-5), .putBool 0 0 33 true, .putStr 0 0 0 [104, 105],
    .new (.ofCounts 2 12 1 (Eq.refl true)), .putObj 0 0 1 2,
    .putInt 2 1 0 8 true 255]

end Nbuf.Py
