import Nbuf.Schema.Binary
import Nbuf.Schema.Compiled
import Nbuf.Wire.ReaderSafety
import Nbuf.Wire.RoundTrip
import Nbuf.Wire.Tables

set_option autoImplicit false

/-! # The records of a binary schema in the heap

What `nbuf_t2b` does for one enumeration, one field and one message: the setters fill in an element
of a table and make new objects for its name and its list.
-/

namespace Nbuf.Nb

open Align ByteMem

/-! ## The setters on the heap -/

/-- The buffer holds the heap. -/
def Out.Rel (w : Out) (h : Heap) : Prop := ∃ objs, Plain.Rel ⟨w.buf, objs⟩ h

section

variable {alloc : Nat → Realloc} {w : Out} {h : Heap} {i k x : Nat} {c : Cell}

theorem Out.Rel.holds (hw : w.Rel h) (hfit : h.total < 2 ^ 63) : h.Holds w.buf :=
  hw.choose_spec.holds hfit

theorem Out.Rel.create (hw : w.Rel h) (ha : ∀ n, (alloc n).Total) (sh : Shape)
    (hfit : h.total + sh.blockSize < 2 ^ 63) :
    ∃ w', w.create alloc sh.nelem sh.ssize sh.psize = some (w', sh.obj (h.total + 8)) ∧
      w'.Rel (h ++ [Cell.new sh]) := by
  obtain ⟨objs, hrel⟩ := hw
  obtain ⟨b', hcreate, hrel'⟩ := hrel.create (ha w.clock) (sh.ofFields_eq w.buf.len) hfit
  refine ⟨⟨w.clock + 1, b'⟩, ?_, _, hrel'⟩
  simp [Out.create, hcreate]

theorem strLength_cstr {s : Text} (hs : (0 : UInt8) ∉ s) :
    strLength (s ++ [0]) (2 ^ 64 - 1) = some s.length := by
  have hlen : sizeT (2 ^ 64 - 1 + 1) = 0 := by decide
  rw [strLength, if_pos hlen, strlen, if_pos (by simp), List.idxOf_append_of_notMem hs]
  simp

/-- A string for a slot of an element. -/
theorem Out.Rel.setStrField (hw : w.Rel h) (ha : ∀ n, (alloc n).Total) (hc : h[i]? = some c)
    (hk : k < c.nelem) (hx : x < c.psize) {s : Text} (hs : (0 : UInt8) ∉ s)
    (hlen : s.length + 1 < 2 ^ 32) (hfit : h.total + (strShape s.length).blockSize < 2 ^ 63) :
    ∃ w', w.setStrField alloc (getElem (h.handle i c) k) x s = some w' ∧
      w'.Rel (h.link i k x (strCell s)) := by
  obtain ⟨objs, hrel⟩ := hw
  have hstr := strLength_cstr hs
  obtain ⟨b', rr, hput, hrel'⟩ := hrel.putStr hc (ha w.clock) hk hx hstr (by simp) (Or.inl hlen) hfit
  refine ⟨⟨w.clock + 1, b'⟩, ?_, objs ++ [rr], ?_⟩
  · unfold Out.setStrField Heap.handle
    dsimp only at hput
    rw [hput]
    rfl
  · rw [Call.apply_putStr h i k x hstr, if_neg (by omega), List.take_left' rfl] at hrel'
    exact hrel'

/-- A table for a slot of an element. -/
theorem Out.Rel.initMsgField (hw : w.Rel h) (ha : ∀ n, (alloc n).Total) (hc : h[i]? = some c)
    (hk : k < c.nelem) (hx : x < c.psize) (sh : Shape)
    (hfit : h.total + sh.blockSize < 2 ^ 63) :
    ∃ w', w.initMsgField alloc (getElem (h.handle i c) k) x sh.nelem sh.ssize sh.psize = some w' ∧
      w'.Rel (h.link i k x (Cell.new sh)) := by
  obtain ⟨objs, hrel⟩ := hw
  have hi := (List.getElem?_eq_some_iff.mp hc).1
  obtain ⟨b', hcreate, hrel'⟩ := hrel.create (ha w.clock) (sh.ofFields_eq w.buf.len) hfit
  have hci : (h ++ [Cell.new sh])[i]? = some c := by rw [List.getElem?_append_left hi, hc]
  have htot : (h ++ [Cell.new sh]).total < 2 ^ 63 := by
    rw [Heap.total_append, Heap.total_singleton]
    exact hfit
  obtain ⟨b'', hput, hrel''⟩ := hrel'.putPtr hci htot (t := h.length)
    List.getElem?_concat_length hk hx hi
  rw [h.offs_append _ (Nat.le_of_lt hi), h.offs_append _ (Nat.le_refl _), h.offs_length] at hput
  refine ⟨⟨w.clock + 1, b''⟩, ?_, _, hrel''⟩
  unfold Out.initMsgField Out.create Heap.handle
  dsimp only at hput
  simp only [hcreate, Option.bind_eq_bind, Option.bind_some, Option.pure_def]
  rw [show (Cell.new sh).obj (h.total + 8) = sh.obj (h.total + 8) from rfl] at hput
  rw [hput]
  rfl

/-- A number for an element. -/
theorem Out.Rel.setUintField (hw : w.Rel h) (hc : h[i]? = some c) (htot : h.total < 2 ^ 63)
    (hk : k < c.nelem) {off sz : Nat} (hsz : scalarSize sz = true) (hdvd : sz ∣ off)
    (hoff : off < 2 ^ 16) (v : Nat) :
    ∃ w', w.setUintField (getElem (h.handle i c) k) off sz v = some w' ∧
      w'.Rel (h.modify i fun c => c.setInt k off sz (v % 256 ^ sz)) := by
  obtain ⟨objs, hrel⟩ := hw
  have hbounds := scalarSize_le hsz
  obtain ⟨b', hput, hrel'⟩ := hrel.putInt hc htot hk (fun _ => hsz) (by omega) hdvd (by omega)
    (v % 256 ^ sz)
  refine ⟨{ w with buf := b' }, ?_, objs, hrel'⟩
  unfold Out.setUintField Heap.handle
  simp [hput]

/-- A flag for an element. -/
theorem Out.Rel.fieldDescSetList (hw : w.Rel h) (hc : h[i]? = some c) (htot : h.total < 2 ^ 63)
    (hk : k < c.nelem) (v : Bool) :
    ∃ w', fieldDescSetList w (getElem (h.handle i c) k) v = some w' ∧
      w'.Rel (h.modify i fun c => c.setBit k 16 v) := by
  obtain ⟨objs, hrel⟩ := hw
  have hbit : ∃ b', putBit w.buf (getElem (c.obj (h.offs i + 8)) k) 16 v = some b' ∧
      Plain.Rel ⟨b', objs⟩ (h.modify i fun c => c.setBit k 16 v) := hrel.putBit hc htot hk v
  obtain ⟨b', hput, hrel'⟩ := hbit
  refine ⟨{ w with buf := b' }, ?_, objs, hrel'⟩
  unfold Nb.fieldDescSetList Heap.handle
  rw [hput]
  rfl

end

/-! ## Filling in one element -/

/-- Element `k` of object `i`, with handle `o`, is being filled in: since the heap was `h₀` nothing
else was changed. -/
structure Cursor (i k : Nat) (o : Obj) (h₀ : Heap) (c₀ : Cell) (w : Out) (h : Heap) (c : Cell) :
    Prop where
  rel : w.Rel h
  step : Heap.RowStep i k h₀ c₀ h c
  handle : getElem (h.handle i c) k = o
  inside : k < c.nelem
  row : c.row k = k
  old : i < h₀.length

/-- The bytes of a string in the heap. -/
theorem strShape_blockSize {s : Text} (hs : s.length + 1 < 2 ^ 32) :
    (strShape s.length).blockSize = T2b.textSize s := by
  have hbody : (strShape s.length).bodySize = s.length + 1 := by
    rw [Shape.bodySize, strShape_rows, strShape_nelem hs, Shape.stride_eq, strShape_width]
    exact Nat.mul_one _
  rw [Shape.blockSize, hbody]
  rfl

/-- The bytes of a table in the heap. -/
theorem table_blockSize {sh : Shape} (hne : ¬ (sh.ssize = 0 ∧ sh.psize = 0)) :
    sh.blockSize = T2b.tableSize sh.nelem (sh.ssize + sh.psize * 4) := by
  rw [Shape.blockSize, Shape.bodySize, sh.rows_eq, if_neg hne, sh.stride_eq, sh.width_eq, if_neg hne]
  rfl

namespace Cursor

variable {alloc : Nat → Realloc} {i k x t : Nat} {o : Obj} {h₀ h h' : Heap} {c₀ c ct ct' : Cell}
  {w w' : Out}

theorem start (hrel : w.Rel h) (hc : h[i]? = some c) (hk : k < c.nelem) (hrow : c.row k = k) :
    Cursor i k (getElem (h.handle i c) k) h c w h c :=
  ⟨hrel, ⟨.refl hc, fun _ _ => rfl, fun _ _ => rfl⟩, rfl, hk, hrow,
    (List.getElem?_eq_some_iff.mp hc).1⟩

/-- A setter that does a step. -/
theorem after (hcur : Cursor i k o h₀ c₀ w h c) {c' : Cell} (hrel : w'.Rel h')
    (hstep : Heap.RowStep i k h c h' c') : Cursor i k o h₀ c₀ w' h' c' where
  rel := hrel
  step := hcur.step.trans hstep
  handle := by rw [hstep.handle hcur.step.cell, hcur.handle]
  inside := by
    rw [show c'.nelem = c.nelem from congrArg Shape.nelem hstep.shape]
    exact hcur.inside
  row := by
    rw [show c'.row k = c.row k from congrArg (fun sh : Shape => sh.row k) hstep.shape]
    exact hcur.row
  old := hcur.old

/-- The number of scalar bytes stays the same. -/
theorem width_eq (hcur : Cursor i k o h₀ c₀ w h c) {n : Nat} (hne : ¬ (c₀.ssize = 0 ∧ c₀.psize = 0))
    (hn : c₀.ssize = n) : c.width = n := by
  rw [show c.width = c₀.width from congrArg Shape.width hcur.step.shape, c₀.width_eq, if_neg hne, hn]

/-- The number of pointers stays the same. -/
theorem psize_eq (hcur : Cursor i k o h₀ c₀ w h c) : c.psize = c₀.psize :=
  congrArg Shape.psize hcur.step.shape

/-- A new table is changed. -/
theorem andTable (hcur : Cursor i k o h₀ c₀ w h c) (hrel : w'.Rel h') (ht : h₀.length ≤ t)
    (htable : Heap.TableStep t h ct h' ct') : Cursor i k o h₀ c₀ w' h' c where
  rel := hrel
  step := hcur.step.andNew hcur.old ht htable
  handle := by
    have hold := hcur.old
    have hsame : h'.handle i c = h.handle i c := by
      have hi := (List.getElem?_eq_some_iff.mp hcur.step.cell).1
      have hoffs : h'.offs i = h.offs i := Heap.offs_congr fun j hj => by
        rw [htable.other j h[j] (by omega) (List.getElem?_eq_getElem (by omega)),
          List.getElem?_eq_getElem (by omega)]
      unfold Heap.handle
      rw [hoffs]
    rw [hsame, hcur.handle]
  inside := hcur.inside
  row := hcur.row
  old := hcur.old

/-- A name is put. -/
theorem setStr (hcur : Cursor i k o h₀ c₀ w h c) (ha : ∀ n, (alloc n).Total) (hx : x < c.psize)
    {s : Text} (hs : (0 : UInt8) ∉ s) (hfit : h.total + T2b.textSize s ≤ 2 ^ 32) :
    ∃ w' h' c', w.setStrField alloc o x s = some w' ∧ Cursor i k o h₀ c₀ w' h' c' ∧
      h'.total = h.total + T2b.textSize s ∧ c'.scal k = c.scal k ∧
      (∀ y, y ≠ x → c'.ptr k y = c.ptr k y) ∧ (∀ m, m ≤ h.length → h'.HasStr m c' k x s) ∧
      Heap.TableStep i h c h' c' := by
  have hc := hcur.step.cell
  -- a string that fits 32 bits with its header is counted in 32 bits
  have hlen : s.length + 1 < 2 ^ 32 := by
    have hle : 8 + (s.length + 1) ≤ T2b.textSize s := le_roundUp (by decide) _
    omega
  have hsize := strShape_blockSize hlen
  obtain ⟨w', hset, hrel⟩ := hcur.rel.setStrField ha hc hcur.inside hx hs hlen (by omega)
  rw [hcur.handle] at hset
  have hstep := Heap.link_step hc hcur.row x (strCell s)
  refine ⟨w', _, _, hset, hcur.after hrel hstep, ?_, rfl, fun y hy => ?_,
    fun m hm => ⟨h.length, strCell s, hm, ?_, Heap.link_new hc k x _, strCell_isStr hlen⟩,
    hstep.toTableStep⟩
  · rw [Heap.link_total]
    exact congrArg (h.total + ·) hsize
  · simp [Cell.putPtr, hy]
  · simp [Cell.putPtr]

/-- A table is made. -/
theorem initTable (hcur : Cursor i k o h₀ c₀ w h c) (ha : ∀ n, (alloc n).Total) (hx : x < c.psize)
    (sh : Shape) (hne : ¬ (sh.ssize = 0 ∧ sh.psize = 0))
    (hfit : h.total + T2b.tableSize sh.nelem (sh.ssize + sh.psize * 4) ≤ 2 ^ 32) :
    ∃ w' h' c', w.initMsgField alloc o x sh.nelem sh.ssize sh.psize = some w' ∧
      Cursor i k o h₀ c₀ w' h' c' ∧
      h'.total = h.total + T2b.tableSize sh.nelem (sh.ssize + sh.psize * 4) ∧
      c'.scal k = c.scal k ∧ (∀ y, y ≠ x → c'.ptr k y = c.ptr k y) ∧ c'.ptr k x = some h.length ∧
      h'[h.length]? = some (Cell.new sh) ∧ Heap.TableStep i h c h' c' := by
  have hc := hcur.step.cell
  have hsize := table_blockSize hne
  obtain ⟨w', hset, hrel⟩ := hcur.rel.initMsgField ha hc hcur.inside hx sh (by omega)
  rw [hcur.handle] at hset
  have hstep := Heap.link_step hc hcur.row x (Cell.new sh)
  refine ⟨w', _, _, hset, hcur.after hrel hstep, ?_, rfl, fun y hy => ?_, ?_, Heap.link_new hc k x _,
    hstep.toTableStep⟩
  · rw [Heap.link_total]
    exact congrArg (h.total + ·) hsize
  · simp [Cell.putPtr, hy]
  · simp [Cell.putPtr]

/-- A number is put. -/
theorem setUint (hcur : Cursor i k o h₀ c₀ w h c) (htot : h.total ≤ 2 ^ 32) {off sz : Nat}
    (hsz : scalarSize sz = true) (hdvd : sz ∣ off) (hin : off + sz ≤ c.width) (v : Nat) :
    ∃ w' h' c', w.setUintField o off sz v = some w' ∧ Cursor i k o h₀ c₀ w' h' c' ∧
      h'.total = h.total ∧ c'.scal k = (c.scal k).store off sz (v % 256 ^ sz) ∧
      c'.ptr k = c.ptr k ∧ Heap.TableStep i h c h' c' := by
  have hc := hcur.step.cell
  have hwidth := c.width_lt
  obtain ⟨w', hset, hrel⟩ := hcur.rel.setUintField hc (by omega) hcur.inside hsz hdvd (by omega) v
  rw [hcur.handle] at hset
  have hstep := Heap.setInt_step hc hcur.row hin (v % 256 ^ sz)
  refine ⟨w', _, _, hset, hcur.after hrel hstep, ?_, ?_, rfl, hstep.toTableStep⟩
  · exact Heap.total_modify h i fun c => c.setInt_toShape k off sz _
  · simp [Cell.putInt]

/-- A flag is put. -/
theorem setList (hcur : Cursor i k o h₀ c₀ w h c) (htot : h.total ≤ 2 ^ 32) (hin : 2 < c.width)
    (v : Bool) : ∃ w' h' c', fieldDescSetList w o v = some w' ∧ Cursor i k o h₀ c₀ w' h' c' ∧
      h'.total = h.total ∧ c'.scal k = (c.scal k).putBit 2 0 v ∧ c'.ptr k = c.ptr k ∧
      Heap.TableStep i h c h' c' := by
  have hc := hcur.step.cell
  obtain ⟨w', hset, hrel⟩ := hcur.rel.fieldDescSetList hc (by omega) hcur.inside v
  rw [hcur.handle] at hset
  have hstep : Heap.RowStep i k h c (h.modify i fun c => c.setBit k 16 v) (c.putBit k 16 v) :=
    Heap.setBit_step hc hcur.row hin v
  refine ⟨w', _, _, hset, hcur.after hrel hstep, ?_, ?_, rfl, hstep.toTableStep⟩
  · exact Heap.total_modify h i fun c => c.setBit_toShape k 16 v
  · simp [Cell.putBit]

/-- An element of a table. -/
theorem getMsg (hcur : Cursor i k o h₀ c₀ w h c) (htot : h.total ≤ 2 ^ 32) (hx : x < c.psize)
    (hptr : c.ptr k x = some t) (hct : h[t]? = some ct) (j : Nat) :
    getMsgField w.buf o x j = some (getElem (h.handle t ct) j) := by
  have hc := hcur.step.cell
  have hb := hcur.rel.holds (by omega)
  have hget := hb.getPtr hc hcur.inside hx fun t' ht' =>
    hb.near (by omega) hc (Shape.row_lt_rows hcur.inside) hx ht'
  rw [hcur.row, hptr, Heap.target_some hct, hcur.handle] at hget
  unfold getMsgField
  rw [hget]
  rfl

end Cursor

/-! ## The records in the heap -/

/-- An element is the record of a value of an enumeration. -/
def DescRow (d : EnumDesc) (m : Nat) (h : Heap) (c : Cell) (k : Nat) : Prop :=
  h.HasStr m c k 0 d.name ∧ (c.scal k).load 0 2 = d.value

/-- An element is the record of an enumeration. -/
def EnumRow (e : EnumType) (m : Nat) (h : Heap) (c : Cell) (k : Nat) : Prop :=
  h.HasStr m c k 0 e.name ∧ h.HasList DescRow m c k 1 4 1 e.values

/-- An element is the record of a field. -/
def FieldRow (f : FieldDesc) (m : Nat) (h : Heap) (c : Cell) (k : Nat) : Prop :=
  h.HasStr m c k 0 f.name ∧ (c.scal k).load 0 2 = f.kind.toNat ∧ (c.scal k).bit 2 0 = f.list ∧
    (c.scal k).load 4 4 = f.tag0 ∧ (c.scal k).load 8 4 = f.tag1

/-- An element is the record of a message. -/
def MsgRow (ms : MsgType) (m : Nat) (h : Heap) (c : Cell) (k : Nat) : Prop :=
  h.HasStr m c k 0 ms.name ∧ h.HasList FieldRow m c k 1 12 1 ms.fields ∧
    (c.scal k).load 0 2 = ms.ssize ∧ (c.scal k).load 2 2 = ms.psize

theorem descRow_local (d : EnumDesc) : RowLocal (DescRow d) := by
  rintro m m' h h' c c' k hm ⟨hname, hvalue⟩ hscal hptr hkeep
  exact ⟨hname.keep hm (by rw [hptr]) hkeep, by rw [hscal]; exact hvalue⟩

theorem enumRow_local (e : EnumType) : RowLocal (EnumRow e) := by
  rintro m m' h h' c c' k hm ⟨hname, hvalues⟩ hscal hptr hkeep
  exact ⟨hname.keep hm (by rw [hptr]) hkeep,
    hvalues.keep descRow_local hm (by rw [hptr]) hkeep⟩

theorem fieldRow_local (f : FieldDesc) : RowLocal (FieldRow f) := by
  rintro m m' h h' c c' k hm ⟨hname, hscalars⟩ hscal hptr hkeep
  exact ⟨hname.keep hm (by rw [hptr]) hkeep, by rw [hscal]; exact hscalars⟩

theorem msgRow_local (ms : MsgType) : RowLocal (MsgRow ms) := by
  rintro m m' h h' c c' k hm ⟨hname, hfields, hsizes⟩ hscal hptr hkeep
  exact ⟨hname.keep hm (by rw [hptr]) hkeep, hfields.keep fieldRow_local hm (by rw [hptr]) hkeep,
    by rw [hscal]; exact hsizes⟩

/-! ## The loops -/

section

variable {alloc : Nat → Realloc} {i k t n m : Nat} {o : Obj} {h₀ h : Heap} {c₀ c ct : Cell} {w : Out}

/-- The elements of a vector of messages. -/
structure Cursor.Table (i k x t : Nat) (o : Obj) (h₀ : Heap) (c₀ : Cell) (w : Out) (h : Heap)
    (c ct : Cell) : Prop where
  cursor : Cursor i k o h₀ c₀ w h c
  slot : x < c.psize
  ptr : c.ptr k x = some t
  new : h₀.length ≤ t
  cell : h[t]? = some ct
  noBits : ¬ (ct.ssize = 0 ∧ ct.psize = 0)

/-- Element `j` of the vector. -/
theorem Cursor.Table.elem {x : Nat} (ht : Cursor.Table i k x t o h₀ c₀ w h c ct)
    (htot : h.total ≤ 2 ^ 32) {j : Nat} (hj : j < ct.nelem) :
    ∃ oj, getMsgField w.buf o x j = some oj ∧ Cursor t j oj h ct w h ct :=
  ⟨_, ht.cursor.getMsg htot ht.slot ht.ptr ht.cell j,
    Cursor.start ht.cursor.rel ht.cell hj (ct.row_eq ht.noBits j)⟩

/-- **One value of an enumeration.** -/
theorem writeEnumDesc_step (ha : ∀ n, (alloc n).Total)
    (ht : Cursor.Table i k 1 t o h₀ c₀ w h c ct) (hss : ct.ssize = 4) (hps : ct.psize = 1) {j : Nat}
    (hj : j < ct.nelem) {d : T2b.EnumDesc} (hname : (0 : UInt8) ∉ d.name)
    (hfit : h.total + T2b.textSize d.name ≤ 2 ^ 32) (hm : m ≤ h.length) :
    ∃ w' h' ct', T2b.writeEnumDesc alloc o w (d, j) = some w' ∧ Cursor i k o h₀ c₀ w' h' c ∧
      Heap.RowStep t j h ct h' ct' ∧ h'.total = h.total + T2b.textSize d.name ∧
      DescRow ⟨d.name, d.val % 2 ^ 16⟩ m h' ct' j := by
  obtain ⟨oj, hget, hcur⟩ := ht.elem (by omega) hj
  obtain ⟨w₁, h₁, c₁, hw₁, hcur₁, htot₁, -, -, hstr, -⟩ :=
    hcur.setStr ha (show 0 < ct.psize by omega) hname hfit
  have hwidth : c₁.width = 4 := hcur₁.width_eq ht.noBits hss
  obtain ⟨w₂, h₂, c₂, hw₂, hcur₂, htot₂, hscal, hptr, htable⟩ :=
    hcur₁.setUint (by omega) (show scalarSize 2 = true by decide) (Nat.dvd_zero 2)
      (show 0 + 2 ≤ c₁.width by omega) d.val
  have hold := (List.getElem?_eq_some_iff.mp ht.cell).1
  refine ⟨w₂, h₂, c₂, ?_, ht.cursor.andTable hcur₂.rel ht.new hcur₂.step.toTableStep, hcur₂.step,
    by omega, (hstr h.length (Nat.le_refl _)).keep hm (by rw [hptr]) (htable.keepsFrom hold), ?_⟩
  · simp only [T2b.writeEnumDesc, enumTypeValues, hget, Option.bind_eq_bind, Option.bind_some,
      enumDescSetName, hw₁, enumDescSetValue, hw₂]
  · rw [hscal, load_store]
    exact Nat.mod_mod _ _

/-- A new table for a slot of the element. -/
theorem Cursor.newTable {x : Nat} (hcur : Cursor i k o h₀ c₀ w h c) (ha : ∀ n, (alloc n).Total)
    (hx : x < c.psize) (sh : Shape) (hne : ¬ (sh.ssize = 0 ∧ sh.psize = 0))
    (hfit : h.total + T2b.tableSize sh.nelem (sh.ssize + sh.psize * 4) ≤ 2 ^ 32) :
    ∃ w' h' c', w.initMsgField alloc o x sh.nelem sh.ssize sh.psize = some w' ∧
      Cursor.Table i k x h.length o h₀ c₀ w' h' c' (Cell.new sh) ∧
      h'.total = h.total + T2b.tableSize sh.nelem (sh.ssize + sh.psize * 4) ∧
      c'.scal k = c.scal k ∧ (∀ y, y ≠ x → c'.ptr k y = c.ptr k y) ∧ Heap.TableStep i h c h' c' := by
  obtain ⟨w', h', c', hw, hcur', htot, hscal, hother, hptr, hcell, htable⟩ :=
    hcur.initTable ha hx sh hne hfit
  refine ⟨w', h', c', hw, ⟨hcur', ?_, hptr, ?_, hcell, hne⟩, htot, hscal, hother, htable⟩
  · rw [hcur'.psize_eq, ← hcur.psize_eq]
    exact hx
  · exact hcur.step.length_le

/-- The table is changed by steps that keep the element which leads to it. -/
theorem Cursor.Table.after {x : Nat} (ht : Cursor.Table i k x t o h₀ c₀ w h c ct) {w' : Out}
    {h' : Heap} {ct' : Cell} (hcur : Cursor i k o h₀ c₀ w' h' c) (hct : h'[t]? = some ct')
    (hshape : ct'.toShape = ct.toShape) : Cursor.Table i k x t o h₀ c₀ w' h' c ct' where
  cursor := hcur
  slot := ht.slot
  ptr := ht.ptr
  new := ht.new
  cell := hct
  noBits := by
    rw [show ct'.ssize = ct.ssize from congrArg Shape.ssize hshape,
      show ct'.psize = ct.psize from congrArg Shape.psize hshape]
    exact ht.noBits

/-- **The loop over the elements of a table**: a step for `a` takes up `cost a` bytes and leaves an
element as `Row a` says. -/
theorem Cursor.Table.fill {x : Nat} {α : Type} (ht : Cursor.Table i k x t o h₀ c₀ w h c ct)
    (step : Out → α × Nat → Option Out) (Row : α → Nat → Heap → Cell → Nat → Prop) (Ok : α → Prop)
    (cost : α → Nat) (hlocal : ∀ a, RowLocal (Row a)) (htm : t < m) (hm : m ≤ h.length)
    (hstep : ∀ w' h' ct' a j, Cursor.Table i k x t o h₀ c₀ w' h' c ct' →
      ct'.toShape = ct.toShape → j < ct'.nelem → Ok a → h'.total + cost a ≤ 2 ^ 32 →
      m ≤ h'.length → ∃ w'' h'' ct'', step w' (a, j) = some w'' ∧ Cursor i k o h₀ c₀ w'' h'' c ∧
        Heap.RowStep t j h' ct' h'' ct'' ∧ h''.total = h'.total + cost a ∧ Row a m h'' ct'' j)
    {l : List α} (hok : ∀ a ∈ l, Ok a) (hlen : l.length = ct.nelem)
    (hfit : h.total + (l.map cost).sum ≤ 2 ^ 32) :
    ∃ w' h' ct', Run.run step w l.zipIdx = some w' ∧ Cursor i k o h₀ c₀ w' h' c ∧
      Heap.TableStep t h ct h' ct' ∧ h'.total = h.total + (l.map cost).sum ∧
      ∀ j a, l[j]? = some a → Row a m h' ct' j := by
  have hloop := fill_table (fun w' h' => Cursor i k o h₀ c₀ w' h' c) step Row Ok cost ct.toShape
    hlocal htm ?step hok 0 w h ct ht.cursor ht.cell hm rfl (by omega) hfit
  case step =>
    intro w' h' ct' a j hcur hct hm' hshape hj ha hfit'
    have hnelem : ct'.nelem = ct.nelem := congrArg Shape.nelem hshape
    exact hstep w' h' ct' a j (ht.after hcur hct hshape) hshape (by omega) ha hfit' hm'
  obtain ⟨w', h', ct', hrun, hcur, htable, htot, -, hrows⟩ := hloop
  refine ⟨w', h', ct', hrun, hcur, htable, htot, fun j a hj => ?_⟩
  have hrow := hrows j a hj
  rwa [Nat.zero_add] at hrow

/-- **A name and a list**: slot 0 of an element gets a string, and slot 1 a table that is then
filled in. -/
theorem Cursor.nameAndList {α β : Type} (ha : ∀ n, (alloc n).Total) (hcur : Cursor i k o h c w h c)
    (hps : c.psize = 2) {name : Text} (hname : (0 : UInt8) ∉ name) (sh : Shape)
    (hne : ¬ (sh.ssize = 0 ∧ sh.psize = 0)) (step : Out → α × Nat → Option Out)
    (Row : β → Nat → Heap → Cell → Nat → Prop) (f : α → β) (Ok : α → Prop) (cost : α → Nat)
    (hlocal : ∀ b, RowLocal (Row b))
    (hstep : ∀ t c' w' h' ct a j m, Cursor.Table i k 1 t o h c w' h' c' ct → ct.toShape = sh →
      j < ct.nelem → Ok a → h'.total + cost a ≤ 2 ^ 32 → m ≤ h'.length →
      ∃ w'' h'' ct', step w' (a, j) = some w'' ∧ Cursor i k o h c w'' h'' c' ∧
        Heap.RowStep t j h' ct h'' ct' ∧ h''.total = h'.total + cost a ∧ Row (f a) m h'' ct' j)
    {l : List α} (hok : ∀ a ∈ l, Ok a) (hlen : l.length = sh.nelem)
    (hfit : h.total + (T2b.textSize name + T2b.tableSize sh.nelem (sh.ssize + sh.psize * 4) +
      (l.map cost).sum) ≤ 2 ^ 32) (him : i < h.length) :
    ∃ w₁ w₂ w' h' c', w.setStrField alloc o 0 name = some w₁ ∧
      w₁.initMsgField alloc o 1 sh.nelem sh.ssize sh.psize = some w₂ ∧
      Run.run step w₂ l.zipIdx = some w' ∧ Cursor i k o h c w' h' c' ∧
      h'.total = h.total + (T2b.textSize name + T2b.tableSize sh.nelem (sh.ssize + sh.psize * 4) +
        (l.map cost).sum) ∧
      h'.HasStr h.length c' k 0 name ∧
      h'.HasList Row h.length c' k 1 sh.ssize sh.psize (l.map f) := by
  obtain ⟨w₁, h₁, c₁, hw₁, hcur₁, htot₁, -, -, hstr, -⟩ :=
    hcur.setStr ha (show 0 < c.psize by omega) hname (by omega)
  have hle₁ := hcur₁.step.length_le
  -- the elements are filled in behind the new table
  obtain ⟨w₂, h₂, c₂, hw₂, ht₂, htot₂, -, hother, hstep₂⟩ :=
    hcur₁.newTable ha (show 1 < c₁.psize by rw [hcur₁.psize_eq]; omega) sh hne (by omega)
  have hnew := (List.getElem?_eq_some_iff.mp ht₂.cell).1
  have hloop := ht₂.fill step (fun a => Row (f a)) Ok cost (fun a => hlocal (f a)) hnew
    (Nat.le_refl _) (fun w' h' ct a j ht' hsh hj ha' hfit' hm' =>
      hstep _ _ w' h' ct a j _ ht' hsh hj ha' hfit' hm') hok hlen (by omega)
  obtain ⟨w₃, h₃, ct₃, hw₃, hcur₃, htable₃, htot₃, hrows⟩ := hloop
  -- the name was there before the table
  have hkeep : Heap.KeepsFrom h.length h₁ h₃ := by
    intro r cr hr hcr
    have hlt := (List.getElem?_eq_some_iff.mp hcr).1
    exact htable₃.other r cr (by omega) (hstep₂.other r cr (by omega) hcr)
  have hlist := Heap.HasList.of_rows hlocal ht₂.ptr htable₃.cell
    (hlen.trans (congrArg Shape.nelem htable₃.shape).symm) hle₁ (by omega) hrows
  rw [congrArg Shape.ssize htable₃.shape, congrArg Shape.psize htable₃.shape] at hlist
  exact ⟨w₁, w₂, w₃, h₃, c₂, hw₁, hw₂, hw₃, hcur₃, by omega,
    (hstr h.length (Nat.le_refl _)).keep (Nat.le_refl _) (hother 0 (by decide)) hkeep, hlist⟩

/-- A table that fits 32 bits does not have too many elements. -/
theorem fits_of_tableSize {n ssize psize size : Nat} (hss : ssize < 2 ^ 16) (hdvd : ssize % 4 = 0)
    (hps : psize < 2 ^ 16) (hpos : 0 < psize) (hsize : size = ssize + psize * 4)
    (hb : T2b.tableSize n size ≤ 2 ^ 32) : Shape.fits n ssize psize = true := by
  have hle : 8 + n * size ≤ T2b.tableSize n size := le_roundUp (by decide) _
  have hn : n * 4 ≤ n * size := Nat.mul_le_mul_left n (by omega)
  simp [Shape.fits, hdvd]
  omega

/-- The names of an enumeration are C strings. -/
def EnumNames (e : T2b.EnumType) : Prop :=
  (0 : UInt8) ∉ e.name ∧ ∀ d ∈ e.vals, (0 : UInt8) ∉ d.name

/-- **One enumeration.** -/
theorem writeEnumType_step (ha : ∀ n, (alloc n).Total)
    (ht : Cursor.Table i k 1 t o h₀ c₀ w h c ct) (hps : ct.psize = 2) {j : Nat}
    (hj : j < ct.nelem) {e : T2b.EnumType} (hnames : EnumNames e)
    (hfit : h.total + T2b.enumTypeSize e ≤ 2 ^ 32) (hm : m ≤ h.length) :
    ∃ w' h' ct', T2b.writeEnumType alloc o w (e, j) = some w' ∧ Cursor i k o h₀ c₀ w' h' c ∧
      Heap.RowStep t j h ct h' ct' ∧ h'.total = h.total + T2b.enumTypeSize e ∧
      EnumRow (T2b.outenum e) m h' ct' j := by
  unfold T2b.enumTypeSize at hfit ⊢
  obtain ⟨oj, hget, hcur⟩ := ht.elem (by omega) hj
  have hshape : Shape.fits e.vals.length 4 1 = true :=
    fits_of_tableSize (by decide) rfl (by decide) (by decide) (show 8 = 4 + 1 * 4 from rfl)
      (by omega)
  have hboth := hcur.nameAndList ha hps hnames.1 (Shape.ofCounts e.vals.length 4 1 hshape)
    (fun h0 => nomatch h0.1) (T2b.writeEnumDesc alloc oj) DescRow (fun d => ⟨d.name, d.val % 2 ^ 16⟩)
    (fun d => (0 : UInt8) ∉ d.name) (fun d => T2b.textSize d.name) descRow_local ?step hnames.2 rfl
    hfit (List.getElem?_eq_some_iff.mp ht.cell).1
  case step =>
    intro t' c' w' h' ct' d r m' ht' hsh hr hd hfit' hm'
    exact writeEnumDesc_step ha ht' (congrArg Shape.ssize hsh) (congrArg Shape.psize hsh) hr hd hfit'
      hm'
  obtain ⟨w₁, w₂, w', h', c', hw₁, hw₂, hw', hcur', htot, hstr, hlist⟩ := hboth
  refine ⟨w', h', c', ?_, ht.cursor.andTable hcur'.rel ht.new hcur'.step.toTableStep, hcur'.step,
    htot, enumRow_local _ _ m h' h' c' c' j hm ⟨hstr, hlist⟩ rfl rfl fun _ _ _ hcj => hcj⟩
  have hinit : enumTypeInitValues alloc w₁ oj e.vals.length = some w₂ := hw₂
  simp only [T2b.writeEnumType, schemaEnumTypes, hget, Option.bind_eq_bind, Option.bind_some,
    enumTypeSetName, hw₁, hinit, hw']

/-- The numbers of a field do not overlap. -/
theorem fieldScalars (s : ByteMem) {f : FieldDesc} (h0 : f.tag0 < 2 ^ 32) (h1 : f.tag1 < 2 ^ 32) :
    let s' := ((((s.putBit 2 0 f.list).store 0 2 (f.kind.toNat % 256 ^ 2)).store 4 4
      (f.tag0 % 256 ^ 4)).store 8 4 (f.tag1 % 256 ^ 4))
    s'.load 0 2 = f.kind.toNat ∧ s'.bit 2 0 = f.list ∧ s'.load 4 4 = f.tag0 ∧ s'.load 8 4 = f.tag1 := by
  intro s'
  have hkind : f.kind.toNat < 2 ^ 16 := by cases f.kind <;> decide
  refine ⟨?kind, ?list, ?tag0, ?tag1⟩
  case kind =>
    rw [load_store_disjoint _ (by omega), load_store_disjoint _ (by omega), load_store, Nat.mod_mod]
    exact Nat.mod_eq_of_lt hkind
  case list =>
    -- the three numbers are in other bytes
    have hbyte : s' 2 = (s.putBit 2 0 f.list) 2 := by
      unfold s'
      rw [store_outside _ (by omega), store_outside _ (by omega), store_outside _ (by omega)]
    have hbit : s'.bit 2 0 = (s.putBit 2 0 f.list).bit 2 0 := by
      unfold ByteMem.bit
      rw [hbyte]
    rw [hbit, bit_putBit _ _ (by decide), if_pos ⟨rfl, rfl⟩]
  case tag0 =>
    rw [load_store_disjoint _ (by omega), load_store, Nat.mod_mod]
    exact Nat.mod_eq_of_lt h0
  case tag1 =>
    rw [load_store, Nat.mod_mod]
    exact Nat.mod_eq_of_lt h1

/-- One field of a compiled message. -/
def writeField (alloc : Nat → Realloc) (ms : Obj) (w : Out) (f : FieldDesc × Nat) : Option Out := do
  let de ← msgTypeFields w.buf ms f.2
  T2b.setFieldDesc alloc de w f.1

/-- A name is a C string, and the tags have 32 bits. -/
structure FieldOk (f : FieldDesc) : Prop where
  name : (0 : UInt8) ∉ f.name
  tag0 : f.tag0 < 2 ^ 32
  tag1 : f.tag1 < 2 ^ 32

/-- **One field.** -/
theorem writeField_step (ha : ∀ n, (alloc n).Total)
    (ht : Cursor.Table i k 1 t o h₀ c₀ w h c ct) (hss : ct.ssize = 12) (hps : ct.psize = 1) {j : Nat}
    (hj : j < ct.nelem) {f : FieldDesc} (hf : FieldOk f)
    (hfit : h.total + T2b.textSize f.name ≤ 2 ^ 32) (hm : m ≤ h.length) :
    ∃ w' h' ct', writeField alloc o w (f, j) = some w' ∧ Cursor i k o h₀ c₀ w' h' c ∧
      Heap.RowStep t j h ct h' ct' ∧ h'.total = h.total + T2b.textSize f.name ∧
      FieldRow f m h' ct' j := by
  obtain ⟨oj, hget, hcur⟩ := ht.elem (by omega) hj
  obtain ⟨w₁, h₁, c₁, hw₁, hcur₁, htot₁, -, -, hstr, -⟩ :=
    hcur.setStr ha (show 0 < ct.psize by omega) hf.name hfit
  have hwidth₁ : c₁.width = 12 := hcur₁.width_eq ht.noBits hss
  obtain ⟨w₂, h₂, c₂, hw₂, hcur₂, htot₂, hscal₂, hptr₂, hstep₂⟩ :=
    hcur₁.setList (by omega) (by omega) f.list
  have hwidth₂ : c₂.width = 12 := hcur₂.width_eq ht.noBits hss
  obtain ⟨w₃, h₃, c₃, hw₃, hcur₃, htot₃, hscal₃, hptr₃, hstep₃⟩ :=
    hcur₂.setUint (by omega) (show scalarSize 2 = true by decide) (Nat.dvd_zero 2)
      (show 0 + 2 ≤ c₂.width by omega) f.kind.toNat
  have hwidth₃ : c₃.width = 12 := hcur₃.width_eq ht.noBits hss
  obtain ⟨w₄, h₄, c₄, hw₄, hcur₄, htot₄, hscal₄, hptr₄, hstep₄⟩ :=
    hcur₃.setUint (by omega) (show scalarSize 4 = true by decide) (Nat.dvd_refl 4)
      (show 4 + 4 ≤ c₃.width by omega) f.tag0
  have hwidth₄ : c₄.width = 12 := hcur₄.width_eq ht.noBits hss
  obtain ⟨w₅, h₅, c₅, hw₅, hcur₅, htot₅, hscal₅, hptr₅, hstep₅⟩ :=
    hcur₄.setUint (by omega) (show scalarSize 4 = true by decide) (show 4 ∣ 8 by decide)
      (show 8 + 4 ≤ c₄.width by omega) f.tag1
  -- the setters of numbers leave the name alone
  have hold := (List.getElem?_eq_some_iff.mp ht.cell).1
  have hsteps := ((hstep₂.trans hstep₃).trans hstep₄).trans hstep₅
  refine ⟨w₅, h₅, c₅, ?_, ht.cursor.andTable hcur₅.rel ht.new hcur₅.step.toTableStep, hcur₅.step,
    by omega, (hstr h.length (Nat.le_refl _)).keep hm (by rw [hptr₅, hptr₄, hptr₃, hptr₂])
      (hsteps.keepsFrom hold), ?_⟩
  · simp only [writeField, msgTypeFields, hget, Option.bind_eq_bind, Option.bind_some,
      T2b.setFieldDesc, fieldDescSetName, hw₁, hw₂, fieldDescSetKind, hw₃, fieldDescSetTag0, hw₄,
      fieldDescSetTag1, hw₅]
  · rw [hscal₅, hscal₄, hscal₃, hscal₂]
    exact fieldScalars _ hf.tag0 hf.tag1

/-- One compiled message. -/
def writeMessage (alloc : Nat → Realloc) (o : Obj) (w : Out) (ms : MsgType × Nat) : Option Out := do
  let mo ← schemaMsgTypes w.buf o ms.2
  let w ← msgTypeSetName alloc w mo ms.1.name
  let w ← msgTypeInitFields alloc w mo ms.1.fields.length
  let w ← Run.run (writeField alloc mo) w ms.1.fields.zipIdx
  let w ← msgTypeSetSsize w mo ms.1.ssize
  msgTypeSetPsize w mo ms.1.psize

/-- The bytes of a compiled message. -/
def messageSize (ms : MsgType) : Nat :=
  T2b.textSize ms.name + T2b.tableSize ms.fields.length 16 +
    (ms.fields.map fun f => T2b.textSize f.name).sum

/-- The names are C strings, and the numbers fit their fields. -/
structure MessageOk (ms : MsgType) : Prop where
  name : (0 : UInt8) ∉ ms.name
  fields : ∀ f ∈ ms.fields, FieldOk f
  ssize : ms.ssize < 2 ^ 16
  psize : ms.psize < 2 ^ 16

/-- **One message.** -/
theorem writeMessage_step (ha : ∀ n, (alloc n).Total)
    (ht : Cursor.Table i k 0 t o h₀ c₀ w h c ct) (hss : ct.ssize = 4) (hps : ct.psize = 2) {j : Nat}
    (hj : j < ct.nelem) {ms : MsgType} (hms : MessageOk ms)
    (hfit : h.total + messageSize ms ≤ 2 ^ 32) (hm : m ≤ h.length) :
    ∃ w' h' ct', writeMessage alloc o w (ms, j) = some w' ∧ Cursor i k o h₀ c₀ w' h' c ∧
      Heap.RowStep t j h ct h' ct' ∧ h'.total = h.total + messageSize ms ∧ MsgRow ms m h' ct' j := by
  unfold messageSize at hfit ⊢
  obtain ⟨oj, hget, hcur⟩ := ht.elem (by omega) hj
  have hold := (List.getElem?_eq_some_iff.mp ht.cell).1
  have hshape : Shape.fits ms.fields.length 12 1 = true :=
    fits_of_tableSize (by decide) rfl (by decide) (by decide) (show 16 = 12 + 1 * 4 from rfl)
      (by omega)
  have hboth := hcur.nameAndList ha hps hms.name (Shape.ofCounts ms.fields.length 12 1 hshape)
    (fun h0 => nomatch h0.1) (writeField alloc oj) FieldRow id FieldOk (fun f => T2b.textSize f.name)
    fieldRow_local ?step hms.fields rfl hfit hold
  case step =>
    intro t' c' w' h' ct' f r m' ht' hsh hr hf hfit' hm'
    exact writeField_step ha ht' (congrArg Shape.ssize hsh) (congrArg Shape.psize hsh) hr hf hfit'
      hm'
  obtain ⟨w₁, w₂, w₃, h₃, c₃, hw₁, hw₂, hw₃, hcur₃, htot₃, hstr, hlist⟩ := hboth
  have htot₃' : h₃.total = h.total + (T2b.textSize ms.name + T2b.tableSize ms.fields.length 16 +
    (ms.fields.map fun f => T2b.textSize f.name).sum) := htot₃
  rw [List.map_id] at hlist
  have hwidth₃ : c₃.width = 4 := hcur₃.width_eq ht.noBits hss
  obtain ⟨w₄, h₄, c₄, hw₄, hcur₄, htot₄, hscal₄, hptr₄, hstep₄⟩ :=
    hcur₃.setUint (by omega) (show scalarSize 2 = true by decide) (Nat.dvd_zero 2)
      (show 0 + 2 ≤ c₃.width by omega) ms.ssize
  have hwidth₄ : c₄.width = 4 := hcur₄.width_eq ht.noBits hss
  obtain ⟨w₅, h₅, c₅, hw₅, hcur₅, htot₅, hscal₅, hptr₅, hstep₅⟩ :=
    hcur₄.setUint (by omega) (show scalarSize 2 = true by decide) (Nat.dvd_refl 2)
      (show 2 + 2 ≤ c₄.width by omega) ms.psize
  -- the sizes come last and leave the name and the fields alone
  have hkeep := (hstep₄.trans hstep₅).keepsFrom hold
  have hptr : c₅.ptr j = c₃.ptr j := hptr₅.trans hptr₄
  refine ⟨w₅, h₅, c₅, ?_, ht.cursor.andTable hcur₅.rel ht.new hcur₅.step.toTableStep, hcur₅.step,
    by omega, hstr.keep hm (by rw [hptr]) hkeep, hlist.keep fieldRow_local hm (by rw [hptr]) hkeep,
    ?ssize, ?psize⟩
  · have hinit : msgTypeInitFields alloc w₁ oj ms.fields.length = some w₂ := hw₂
    simp only [writeMessage, schemaMsgTypes, hget, Option.bind_eq_bind, Option.bind_some,
      msgTypeSetName, hw₁, hinit, hw₃, msgTypeSetSsize, hw₄, msgTypeSetPsize, hw₅]
  case ssize =>
    rw [hscal₅, hscal₄, load_store_disjoint _ (by omega), load_store, Nat.mod_mod]
    exact Nat.mod_eq_of_lt hms.ssize
  case psize =>
    rw [hscal₅, load_store, Nat.mod_mod]
    exact Nat.mod_eq_of_lt hms.psize

end

/-! ## The loop over the messages

`outmsgs` lays a field out and writes its record at once. What is written is what a loop over the
compiled messages writes. -/

section

variable {alloc : Nat → Realloc} {types : List T2b.LookupEntry}

/-- One round of the loop over the fields. -/
theorem writeFieldDesc_emits (ms : Obj) {st st' : T2b.MsgState} {d : T2b.FldDesc}
    (hst : T2b.outfield types st d = some st') : ∃ f : FieldDesc, f.name = d.name ∧
      st'.fields = st.fields ++ [f] ∧ ∀ w k, T2b.writeFieldDesc alloc types ms (w, st) (d, k) =
        (writeField alloc ms w (f, k)).map fun w' => (w', st') := by
  have hfield : ∃ f : FieldDesc, f.name = d.name ∧ st'.fields = st.fields ++ [f] := by
    obtain ⟨ent, -, ⟨-, rfl⟩ | ⟨-, offset, _, _, -, rfl⟩⟩ := T2b.outfield_eq_some hst
    · exact ⟨T2b.fieldOf d.name ent d.list st.psize, rfl, rfl⟩
    · exact ⟨T2b.fieldOf d.name ent d.list offset, rfl, rfl⟩
  obtain ⟨f, hname, hfields⟩ := hfield
  refine ⟨f, hname, hfields, fun w k => ?_⟩
  unfold T2b.writeFieldDesc writeField
  cases hget : msgTypeFields w.buf ms k with
  | none => simp
  | some de => simp [hst, hfields, Option.map_eq_bind]

/-- The low 16 bits of a size are stored. -/
theorem msgTypeSetSsize_mod (w : Out) (o : Obj) (v : Nat) :
    msgTypeSetSsize w o (v % 2 ^ 16) = msgTypeSetSsize w o v := by
  have hmod : v % 2 ^ 16 % 256 ^ 2 = v % 256 ^ 2 := Nat.mod_mod v (2 ^ 16)
  unfold msgTypeSetSsize Out.setUintField
  rw [hmod]

/-- Records of equal sizes have one sum. -/
theorem sizes_congr {α β : Type} (size : β → Nat) (size' : α → Nat) {l : List α} {l' : List β}
    (h : List.Forall₂ (fun a b => size b = size' a) l l') : l'.map size = l.map size' := by
  induction h with
  | nil => rfl
  | cons hab _ ih => rw [List.map_cons, List.map_cons, hab, ih]

/-- The compiled message has the names of the source. -/
def SameNames (m : T2b.MsgType) (ms : MsgType) : Prop :=
  ms.name = m.name ∧ List.Forall₂ (fun (d : T2b.FldDesc) (f : FieldDesc) => f.name = d.name)
    m.flds ms.fields

theorem SameNames.size_eq {m : T2b.MsgType} {ms : MsgType} (h : SameNames m ms) :
    messageSize ms = T2b.msgTypeSize m := by
  have hsizes := sizes_congr (fun f : FieldDesc => T2b.textSize f.name)
    (fun d : T2b.FldDesc => T2b.textSize d.name) (h.2.imp fun d f hname => by rw [hname])
  unfold messageSize T2b.msgTypeSize
  rw [hsizes, h.1, h.2.length_eq]

variable (alloc) in
/-- One round of the loop over the messages. -/
theorem writeMsgType_emits (o : Obj) {st st' : T2b.OutState} {m : T2b.MsgType}
    (hst : T2b.outmsg types st m = some st') : ∃ ms : MsgType, SameNames m ms ∧
      st'.msgs = st.msgs ++ [ms] ∧ ∀ w k,
      T2b.writeMsgType alloc types o (w, st.alignment) (m, k) =
        (writeMessage alloc o w (ms, k)).map fun w' => (w', st'.alignment) := by
  obtain ⟨lay, hlay, halign, hmsgs⟩ := T2b.outmsg_eq_some hst
  -- the records are those of the layout, whatever message they are written to
  have hemit : ∀ mo, List.Forall₂ (fun (d : T2b.FldDesc) (f : FieldDesc) => f.name = d.name)
      m.flds lay.fields ∧ ∀ w k, Run.run (T2b.writeFieldDesc alloc types mo)
        (w, T2b.MsgState.start st.alignment) (m.flds.zipIdx k) =
          (Run.run (writeField alloc mo) w (lay.fields.zipIdx k)).map fun w' => (w', lay) := by
    intro mo
    obtain ⟨fs, hnames, hfs, hrun⟩ := Run.run_emits T2b.MsgState.fields id
      (fun t d t' ht => writeFieldDesc_emits mo ht) hlay
    have hlayfs : lay.fields = fs := hfs
    rw [hlayfs]
    exact ⟨hnames, hrun⟩
  have hnames := (hemit Obj.null).1
  have hlen := hnames.length_eq
  refine ⟨_, ⟨rfl, hnames⟩, hmsgs, fun w k => ?_⟩
  unfold T2b.writeMsgType writeMessage
  cases hget : schemaMsgTypes w.buf o k with
  | none => rfl
  | some mo =>
      obtain ⟨-, hrun⟩ := hemit mo
      simp only [Option.bind_eq_bind, Option.bind_some, hlen, hrun, msgTypeSetSsize_mod, halign,
        Option.map_eq_bind, Option.bind_assoc, Option.pure_def, Function.comp_def]

end

end Nbuf.Nb
