import Nbuf.Wire.BlockOps
import Nbuf.Wire.Builder
import Nbuf.Wire.Heap

set_option autoImplicit false

/-! # The builder represents the heap

The buffers of a pool are the objects of a heap, with the ids of the targets in the pointer slots.
Every call that keeps to the interface does to the pool what it does to the heap.
-/

namespace Nbuf

open Run ByteMem

/-! ## The relation -/

/-- The word of a pointer in a pool: the id of its target. -/
def Cell.idWord (c : Cell) (row x : Nat) : Nat := (c.ptr row x).getD 0

/-- The buffer of object `i`: its `objmeta` and its block. -/
structure ObjBuf (addr i : Nat) (b : Buffer) (c : Cell) : Prop where
  len_eq : b.len = metaSize + c.blockSize
  len_le_cap : b.len ≤ b.cap
  cap_lt : b.cap < 2 ^ 64
  pool_eq : b.mem.load 0 8 = addr
  id_eq : b.mem.load 12 4 = i
  block : Block b.mem metaSize c c.idWord

/-- A word from `2 ^ 31` on reads as a negative number. -/
theorem bmod_word_neg {n : Nat} (hn : n < 256 ^ 4) (h : 2 ^ 31 ≤ n) :
    ((n : Int).bmod (256 ^ 4)) < 0 := by
  rw [Int.bmod_def, if_neg]
  · rw [Int.emod_eq_of_lt] <;> omega
  · rw [Int.emod_eq_of_lt] <;> omega

/-- The pool holds the objects of the heap. -/
structure Pool.Rep (p : Pool) (h : Heap) : Prop where
  length_eq : p.bufs.length = h.length
  obj : ∀ (i : Nat) (c : Cell), h[i]? = some c → ∃ b, p.bufs[i]? = some b ∧ ObjBuf p.addr i b c
  forward : h.Forward

/-- The handle that the builder has for an object. -/
def Cell.handle (c : Cell) : Obj := c.obj (metaSize + 8)

section

variable {addr i : Nat} {b : Buffer} {c : Cell}

theorem ObjBuf.len_lt (hb : ObjBuf addr i b c) : b.len < 2 ^ 63 := by
  have hlt := c.blockSize_lt
  have hlen := hb.len_eq
  unfold metaSize at hlen
  omega

theorem ObjBuf.extent_le (hb : ObjBuf addr i b c) : 24 ≤ b.extent := by
  have hle := c.le_blockSize
  have hlen := hb.len_eq
  have hext := len_le_extent b
  unfold metaSize at hlen
  omega

theorem ObjBuf.writable (hb : ObjBuf addr i b c) : c.handle.Writable b := by
  have hle := c.le_blockSize
  have hlen := hb.len_eq
  refine ⟨?_, hb.len_le_cap, hb.len_lt⟩
  show metaSize + 8 + c.bodySize ≤ b.len
  omega

theorem ObjBuf.metaPool_eq (hb : ObjBuf addr i b c) : metaPool b = some addr := by
  have hext := hb.extent_le
  unfold metaPool
  rw [assertC_pos (by omega), hb.pool_eq]
  rfl

theorem ObjBuf.metaId_eq (hb : ObjBuf addr i b c) : metaId b = some i := by
  have hext := hb.extent_le
  unfold metaId
  rw [assertC_pos (by omega), hb.id_eq]
  rfl

/-- `getobj` gives the handle of the object. -/
theorem ObjBuf.getobj_eq (hb : ObjBuf addr i b c) : getobj b = some c.handle :=
  hb.block.objInit hb.len_lt (Nat.le_of_eq hb.len_eq.symm) Obj.null

/-- An update of the object in its buffer. -/
theorem ObjBuf.update (hb : ObjBuf addr i b c) {m : ByteMem} {c' : Cell}
    (hsh : c'.toShape = c.toShape)
    (hm : ∀ p, (p < metaSize ∨ metaSize + c.blockSize ≤ p) → m p = b.mem p)
    (hblock : Block m metaSize c' c'.idWord) : ObjBuf addr i { b with mem := m } c' where
  len_eq := by rw [hsh]; exact hb.len_eq
  len_le_cap := hb.len_le_cap
  cap_lt := hb.cap_lt
  pool_eq := by
    have hkept : m.load 0 8 = b.mem.load 0 8 :=
      load_congr fun p _ hp => hm p (by unfold metaSize; omega)
    exact hkept.trans hb.pool_eq
  id_eq := by
    have hkept : m.load 12 4 = b.mem.load 12 4 :=
      load_congr fun p _ hp => hm p (by unfold metaSize; omega)
    exact hkept.trans hb.id_eq
  block := hblock

/-- The buffer of a new object, once its `objmeta` is filled in. -/
theorem ObjBuf.new {sh : Shape} (haddr : addr < 2 ^ 64) (hi : i < 2 ^ 32)
    (hlen : b.len = metaSize + sh.blockSize) (hcap : b.len ≤ b.cap) (hcap' : b.cap < 2 ^ 64)
    (hblock : Block b.mem metaSize (Cell.new sh) fun _ _ => 0) :
    ObjBuf addr i { b with mem := (b.mem.store 0 8 addr).store 12 4 i } (Cell.new sh) where
  len_eq := hlen
  len_le_cap := hcap
  cap_lt := hcap'
  pool_eq := by
    show load ((b.mem.store 0 8 addr).store 12 4 i) 0 8 = _
    rw [load_store_disjoint _ (by omega), load_store]
    exact Nat.mod_eq_of_lt haddr
  id_eq := by
    show load ((b.mem.store 0 8 addr).store 12 4 i) 12 4 = _
    rw [load_store]
    exact Nat.mod_eq_of_lt hi
  block := by
    refine hblock.congr fun q hq _ => ?_
    unfold metaSize at hq
    show ((b.mem.store 0 8 addr).store 12 4 i) q = _
    rw [store_outside _ (by omega), store_outside _ (by omega)]

end

theorem Cell.idWord_congr {c c' : Cell} (h : c'.ptr = c.ptr) : c'.idWord = c.idWord := by
  funext row x
  unfold Cell.idWord
  rw [h]

section

variable {p : Pool} {h : Heap} {i : Nat} {c : Cell}

/-- An update of one object. -/
theorem Pool.Rep.modify (hp : p.Rep h) (hc : h[i]? = some c) {f : Cell → Cell} {b : Buffer}
    (hb : ObjBuf p.addr i b (f c)) (hfwd : Heap.Forward (h.modify i f)) :
    (p.setBuf i b).Rep (h.modify i f) where
  length_eq := by
    show (p.bufs.set i b).length = _
    rw [List.length_set, List.length_modify, hp.length_eq]
  obj := by
    intro j cj hj
    show ∃ b', (p.bufs.set i b)[j]? = some b' ∧ _
    have hi : i < p.bufs.length := by
      rw [hp.length_eq]
      exact (List.getElem?_eq_some_iff.mp hc).1
    by_cases hij : i = j
    · subst hij
      rw [Heap.getElem?_modify_self hc, Option.some.injEq] at hj
      exact ⟨b, List.getElem?_set_self hi, hj ▸ hb⟩
    · rw [List.getElem?_modify_ne _ _ hij] at hj
      rw [List.getElem?_set_ne hij]
      exact hp.obj j cj hj
  forward := hfwd

/-- One more object. -/
theorem Pool.Rep.append (hp : p.Rep h) {sh : Shape} {b : Buffer}
    (hb : ObjBuf p.addr h.length b (Cell.new sh)) :
    Pool.Rep { p with bufs := p.bufs ++ [b] } (h ++ [Cell.new sh]) where
  length_eq := by
    show (p.bufs ++ [_]).length = (h ++ [_]).length
    rw [List.length_append, List.length_append, hp.length_eq]
    rfl
  obj := by
    intro j cj hj
    show ∃ b', (p.bufs ++ [_])[j]? = some b' ∧ _
    rcases Nat.lt_trichotomy j h.length with hlt | rfl | hgt
    · rw [List.getElem?_append_left hlt] at hj
      rw [List.getElem?_append_left (by rw [hp.length_eq]; exact hlt)]
      exact hp.obj j cj hj
    · rw [List.getElem?_concat_length, Option.some.injEq] at hj
      rw [← hp.length_eq, List.getElem?_concat_length, hp.length_eq]
      exact ⟨_, rfl, hj ▸ hb⟩
    · rw [List.getElem?_eq_none (by simp; omega)] at hj
      cases hj
  forward := hp.forward.append fun _ _ => rfl

/-- **Creating an object.** -/
theorem Pool.Rep.create (hp : p.Rep h) {a : Realloc} (ha : a.Total) {sh : Shape}
    {nelem ssize psize : Nat}
    (hobj : ∀ base, Obj.ofFields base nelem ssize psize = sh.obj base)
    (hcount : h.length < 2 ^ 32) :
    ∃ b, p.create a nelem ssize psize
        = some ({ p with bufs := p.bufs ++ [b] }, (Cell.new sh).handle) ∧
      ObjBuf p.addr h.length b (Cell.new sh) ∧
      Pool.Rep { p with bufs := p.bufs ++ [b] } (h ++ [Cell.new sh]) := by
  have hblt := sh.blockSize_lt
  have hle := sh.le_blockSize
  obtain ⟨b0, hres, hlen0, hroom0, -, hcap0, -⟩ := reserve_spec ha
    (b := ⟨fun _ => 0, 0, 0⟩) (Nat.le_refl _) (by decide) (show 0 + metaSize ≤ 2 ^ 63 by decide)
  have hlen0' : b0.len = 0 := hlen0
  have hroom0' : metaSize ≤ b0.cap := by
    have := hroom0
    dsimp only at this
    omega
  let b1 : Buffer := { b0 with len := metaSize }
  obtain ⟨b2, hcreate, hlen2, hcap2, hcap2', -, hblock2⟩ := create_spec ha (b := b1)
    (hobj metaSize) hroom0' hcap0 (by show 8 ∣ metaSize; decide)
    (by show metaSize + _ < _; unfold metaSize; omega)
  have hlen2' : b2.len = metaSize + sh.blockSize := hlen2
  have hext := len_le_extent b2
  have hid : h.length % 2 ^ 32 = h.length := Nat.mod_eq_of_lt hcount
  let m := (b2.mem.store 0 8 p.addr).store 12 4 h.length
  have hbuf : ObjBuf p.addr h.length { b2 with mem := m } (Cell.new sh) :=
    ObjBuf.new p.addr_lt hcount hlen2' hcap2 hcap2' hblock2
  refine ⟨{ b2 with mem := m }, ?_, hbuf, hp.append hbuf⟩
  have hsum : b0.len + metaSize = metaSize := by omega
  have hcreate' : Nbuf.create a { b0 with len := b0.len + metaSize } nelem ssize psize
      = some (b2, sh.obj (metaSize + 8)) := by
    rw [hsum]
    exact hcreate
  unfold Pool.create
  simp only [hres, Option.bind_eq_bind, Option.bind_some, Bool.true_eq_false, if_false, hcreate',
    Pool.buffercount, hp.length_eq, hid, assertC_pos]
  rw [assertC_pos (by unfold metaSize at hlen2'; omega)]
  rfl

/-- **Putting a pointer.** -/
theorem Pool.Rep.putPtr (hp : p.Rep h) (hc : h[i]? = some c) {k x t : Nat} (hk : k < c.nelem)
    (hx : x < c.psize) (hit : i < t) (ht : t < h.length) (hcount : h.length < 2 ^ 32) :
    ∃ p', p.putPtr i (getElem c.handle k) x t = some p' ∧ p'.addr = p.addr ∧
      p'.Rep (h.modify i fun c => c.putPtr (c.row k) x t) := by
  obtain ⟨b, hb, hbuf⟩ := hp.obj i c hc
  obtain ⟨bt, hbt, hbuft⟩ := hp.obj t _ (List.getElem?_eq_getElem ht)
  have hrow := Shape.row_lt_rows hk
  have hpos := c.rowPos_inside metaSize hrow
  have hin := c.slotPos_inside metaSize (c.row k) hx
  have hle := c.le_blockSize
  have hlen := hbuf.len_eq
  have hlt := hbuf.len_lt
  have hslot : (getElem c.handle k).slot x = c.slotPos metaSize (c.row k) x :=
    slot_getElem (by omega) hk hx
  have hblock := hbuf.block.putPtr hrow hx t t
  have hword : (c.putPtr (c.row k) x t).idWord = Function.update c.idWord (c.row k)
      (Function.update (c.idWord (c.row k)) x (t % 2 ^ 32)) := by
    rw [Nat.mod_eq_of_lt (by omega)]
    funext row' x'
    unfold Cell.idWord Cell.putPtr
    dsimp only
    by_cases hr : row' = c.row k
    · subst hr
      by_cases hxx : x' = x
      · subst hxx
        simp
      · simp [hxx]
    · simp [hr]
  rw [← hword] at hblock
  have hupd := hbuf.update (c.putPtr_toShape (c.row k) x t)
    (fun q hq => store_outside _ (by omega)) hblock
  refine ⟨p.setBuf i _, ?_, rfl, hp.modify (f := fun c => c.putPtr (c.row k) x t) hc hupd
    (hp.forward.modify_ptr hit ht)⟩
  unfold Pool.putPtr Pool.getbuffer
  simp only [hb, hbt, Option.bind_eq_bind, Option.bind_some, hbuf.metaPool_eq, hbuft.metaPool_eq,
    hbuft.metaId_eq, assertC_pos, Pool.buffercount, hp.length_eq, ht, hslot]
  rw [writeIntSafe_of_le _ rfl (by omega) (by omega)]
  rfl

/-- The word that `get_ptr` reads is the id, sign-extended. -/
theorem Pool.Rep.readSlot (hp : p.Rep h) (hc : h[i]? = some c) {k x : Nat} (hk : k < c.nelem)
    (hx : x < c.psize) : ∃ b, p.bufs[i]? = some b ∧ ObjBuf p.addr i b c ∧
      readIntSafe b ((getElem c.handle k).slot x) 4
        = some ((c.idWord (c.row k) x : Int).bmod (256 ^ 4)) := by
  obtain ⟨b, hb, hbuf⟩ := hp.obj i c hc
  have hrow := Shape.row_lt_rows hk
  have hpos := c.rowPos_inside metaSize hrow
  have hin := c.slotPos_inside metaSize (c.row k) hx
  have hle := c.le_blockSize
  have hblen := hbuf.len_eq
  have hlt := hbuf.len_lt
  have hslot : (getElem c.handle k).slot x = c.slotPos metaSize (c.row k) x :=
    slot_getElem (by omega) hk hx
  refine ⟨b, hb, hbuf, ?_⟩
  rw [hslot, readIntSafe_of_le rfl (by omega) (by omega), hbuf.block.slot _ hrow x hx]

/-- `get_ptr` on a slot without a pointer. -/
theorem Pool.Rep.getPtr_none (hp : p.Rep h) (hc : h[i]? = some c) {k x : Nat} (hk : k < c.nelem)
    (hx : x < c.psize) (hptr : c.ptr (c.row k) x = none) :
    p.getPtr i (getElem c.handle k) x = some (i, Obj.null) := by
  obtain ⟨b, hb, hbuf, hread⟩ := hp.readSlot hc hk hx
  have hzero : c.idWord (c.row k) x = 0 := by
    unfold Cell.idWord
    rw [hptr]
    rfl
  rw [hzero] at hread
  unfold Pool.getPtr Pool.getbuffer
  simp only [hb, hbuf.metaPool_eq, assertC_pos, Option.bind_eq_bind, Option.bind_some]
  rw [getElem_psize hk, if_neg (by exact Nat.not_le.mpr hx), hread, Option.bind_some]
  exact if_pos rfl

/-- **`get_ptr` follows an id** that a signed word can hold; its assertion fails on others. -/
theorem Pool.Rep.getPtr_some (hp : p.Rep h) (hc : h[i]? = some c) {k x t : Nat} (hk : k < c.nelem)
    (hx : x < c.psize) (hptr : c.ptr (c.row k) x = some t) {ct : Cell} (hct : h[t]? = some ct) :
    p.getPtr i (getElem c.handle k) x = if t < 2 ^ 31 then some (t, ct.handle) else none := by
  obtain ⟨b, hb, hbuf, hread⟩ := hp.readSlot hc hk hx
  obtain ⟨hit, ht⟩ := hp.forward i c hc _ (Shape.row_lt_rows hk) x hx t hptr
  obtain ⟨bt, hbt, hbuft⟩ := hp.obj t ct hct
  have hid : c.idWord (c.row k) x = t := by
    unfold Cell.idWord
    rw [hptr]
    rfl
  have hword : t < 256 ^ 4 := by
    rw [← hid, ← hbuf.block.slot _ (Shape.row_lt_rows hk) x hx]
    exact load_lt _ _ _
  rw [hid] at hread
  have hcount : p.buffercount = h.length := hp.length_eq
  unfold Pool.getPtr Pool.getbuffer
  simp only [hb, hbuf.metaPool_eq, assertC_pos, Option.bind_eq_bind, Option.bind_some]
  rw [getElem_psize hk, if_neg (by exact Nat.not_le.mpr hx), hread, Option.bind_some]
  by_cases hsmall : t < 2 ^ 31
  · have hpos : ((t : Int).bmod (256 ^ 4)) = t := Int.bmod_eq_of_le (by omega) (by omega)
    have hassert : (0 : Int) < t ∧ (t : Int) < p.buffercount := by omega
    rw [hpos, if_neg (by omega), assertC_pos hassert, Option.bind_some, Int.toNat_natCast, hbt,
      Option.bind_some, hbuft.getobj_eq, if_pos hsmall]
    rfl
  · have hneg : ((t : Int).bmod (256 ^ 4)) < 0 := bmod_word_neg hword (by omega)
    rw [if_neg (by omega), assertC_neg (by omega), if_neg hsmall]
    rfl

/-- `get_ptr` follows ids. -/
theorem Pool.Rep.getPtr (hp : p.Rep h) (hlen : h.length < 2 ^ 31) (hc : h[i]? = some c) {k x : Nat}
    (hk : k < c.nelem) (hx : x < c.psize) :
    p.getPtr i (getElem c.handle k) x = match c.ptr (c.row k) x with
      | none => some (i, Obj.null)
      | some t => (h[t]?).map fun ct => (t, ct.handle) := by
  cases hptr : c.ptr (c.row k) x with
  | none => exact hp.getPtr_none hc hk hx hptr
  | some t =>
      have ht := (hp.forward i c hc _ (Shape.row_lt_rows hk) x hx t hptr).2
      have hct : h[t]? = some h[t] := List.getElem?_eq_getElem ht
      rw [hp.getPtr_some hc hk hx hptr hct, if_pos (by omega)]
      dsimp only
      rw [hct]
      rfl

/-- A length whose count is cut to `0`: the object stays empty, and no pointer is put. -/
theorem Pool.Rep.putStr_empty (hp : p.Rep h) {a : Realloc} (ha : a.Total) {n len : Nat}
    {str : List UInt8} (hlen : strLength str len = some n) (hzero : (n + 1) % 2 ^ 32 = 0)
    (hcount : h.length < 2 ^ 32) :
    ∃ b, (∀ i r x, p.putStr a i r x str len
        = some ({ p with bufs := p.bufs ++ [b] }, (Cell.new (strShape n)).handle)) ∧
      Pool.Rep { p with bufs := p.bufs ++ [b] } (h ++ [Cell.new (strShape n)]) := by
  obtain ⟨b, hcreate, -, hrel⟩ := hp.create ha (fun base => ofFields_strShape base n) hcount
  have hnelem : (Cell.new (strShape n)).handle.nelem = (n + 1) % 2 ^ 32 := rfl
  refine ⟨b, fun i r x => ?_, hrel⟩
  unfold Pool.putStr
  rw [hlen]
  simp only [Option.bind_eq_bind, Option.bind_some, hcreate, hnelem, if_pos hzero]
  rfl

/-- The object of a string is created and filled in; then the pointer to it is put. -/
theorem Pool.Rep.putStr_eq (hp : p.Rep h) {a : Realloc} (ha : a.Total) {n len : Nat}
    {str : List UInt8} (hlen : strLength str len = some n) (hstr : n ≤ str.length)
    (hn : n + 1 < 2 ^ 32) (hcount : h.length < 2 ^ 32) :
    ∃ b, Pool.Rep { p with bufs := p.bufs ++ [b] } (h ++ [strCell (str.take n)]) ∧
      ∀ i r x, p.putStr a i r x str len
        = (Pool.putPtr { p with bufs := p.bufs ++ [b] } i r x h.length).map fun p' =>
            (p', (Cell.new (strShape n)).handle) := by
  obtain ⟨b, hcreate, hbuf, hrel⟩ := hp.create ha (fun base => ofFields_strShape base n) hcount
  have hcell := strCell_take_toShape hstr
  have hstrc : strCell (str.take n) = (Cell.new (strShape n)).putBytes (str.take n) := by
    unfold strCell
    rw [List.length_take, Nat.min_eq_left hstr]
  obtain ⟨m, hfill, hout, hblock⟩ :=
    fillStr_block hn hstr (Nat.le_of_eq hbuf.len_eq.symm) hbuf.block
  have hupd : ObjBuf p.addr h.length { b with mem := m } (strCell (str.take n)) :=
    hbuf.update hcell hout (by rw [hstrc] at hblock ⊢; exact hblock)
  have hnew : (h ++ [Cell.new (strShape n)])[h.length]? = some (Cell.new (strShape n)) :=
    List.getElem?_concat_length
  have hrel2 := hrel.modify (f := fun c => c.putBytes (str.take n)) hnew (by rw [← hstrc]; exact hupd)
    (hrel.forward.modify_scal (fun _ => rfl) fun _ => rfl)
  have hset : (p.bufs ++ [b]).set h.length { b with mem := m } = p.bufs ++ [{ b with mem := m }] := by
    rw [← hp.length_eq, List.set_append_right _ _ (Nat.le_refl _), Nat.sub_self]
    rfl
  rw [Heap.modify_last, ← hstrc] at hrel2
  unfold Pool.setBuf at hrel2
  dsimp only at hrel2
  rw [hset] at hrel2
  refine ⟨{ b with mem := m }, hrel2, fun i r x => ?_⟩
  have hnelem : (Cell.new (strShape n)).handle.nelem = n + 1 := Nat.mod_eq_of_lt hn
  have hassert : (Cell.new (strShape n)).handle.nelem = sizeT (n + 1) := by
    rw [hnelem, sizeT_of_lt (by omega)]
  have hlast : (p.bufs ++ [b]).length - 1 = h.length := by
    rw [List.length_append, hp.length_eq]
    rfl
  have hget : (p.bufs ++ [b])[h.length]? = some b := by
    rw [← hp.length_eq]
    exact List.getElem?_concat_length
  have hfill' : fillStr b (Cell.new (strShape n)).handle str n = some { b with mem := m } := hfill
  unfold Pool.putStr
  rw [hlen]
  simp only [Option.bind_eq_bind, Option.bind_some, hcreate]
  rw [if_neg (by omega), assertC_pos hassert]
  simp only [Option.bind_some, Pool.buffercount, Pool.getbuffer, hlast, hget]
  rw [hfill', Option.bind_some, Pool.setBuf]
  dsimp only
  rw [hset]
  cases Pool.putPtr { p with bufs := p.bufs ++ [{ b with mem := m }] } i r x h.length <;> rfl

/-- **A string**, and a pointer to it. -/
theorem Pool.Rep.putStr (hp : p.Rep h) (hc : h[i]? = some c) {a : Realloc} (ha : a.Total)
    {k x n len : Nat} {str : List UInt8} (hk : k < c.nelem) (hx : x < c.psize)
    (hlen : strLength str len = some n) (hstr : n ≤ str.length)
    (hn : n + 1 < 2 ^ 32 ∨ (n + 1) % 2 ^ 32 = 0 ∧ n + 1 < 2 ^ 64) (hcount : h.length + 1 < 2 ^ 32) :
    ∃ p', p.putStr a i (getElem c.handle k) x str len
        = some (p', (Cell.new (strShape n)).handle) ∧
      p'.Rep (Call.apply h (.putStr i k x str len)) := by
  have happly := Call.apply_putStr h i k x hlen
  by_cases hzero : (n + 1) % 2 ^ 32 = 0
  · obtain ⟨b, hput, hrel⟩ := hp.putStr_empty ha hlen hzero (Nat.lt_of_succ_lt hcount)
    exact ⟨_, hput i _ x, by rw [happly, if_pos hzero]; exact hrel⟩
  · obtain ⟨b, hrel, hput⟩ := hp.putStr_eq ha hlen hstr (by omega) (Nat.lt_of_succ_lt hcount)
    have hi : i < h.length := (List.getElem?_eq_some_iff.mp hc).1
    have hci : (h ++ [strCell (str.take n)])[i]? = some c := by
      rw [List.getElem?_append_left hi, hc]
    obtain ⟨p', hput', -, hrel'⟩ := hrel.putPtr hci hk hx hi
      (show h.length < (h ++ [strCell (str.take n)]).length by simp) (by simp; omega)
    exact ⟨p', by rw [hput, hput']; rfl, by rw [happly, if_neg hzero]; exact hrel'⟩

/-- **Growing an object.** -/
theorem Pool.Rep.resize (hp : p.Rep h) (hc : h[i]? = some c) {a : Realloc} (ha : a.Total) {n : Nat}
    (hn : c.CanHave n) (hle : c.nelem ≤ n) :
    ∃ b b', p.getbuffer i = some b ∧ Nbuf.resize a b c.handle n = some (b', (c.setNelem n).handle) ∧
      (p.setBuf i b').Rep (h.modify i fun c => c.setNelem n) := by
  obtain ⟨b, hb, hbuf⟩ := hp.obj i c hc
  have hlt := (c.toShape.withNelem n hn).blockSize_lt
  obtain ⟨b', hres, hlen, hcap, hcap', hmem, hblock⟩ := resize_block ha hbuf.block hbuf.len_eq
    hbuf.len_le_cap hbuf.cap_lt (by decide) hn hle
    (by show metaSize + (c.toShape.withNelem n hn).blockSize < _; unfold metaSize; omega)
  have hkept : ∀ k sz, k + sz ≤ metaSize → b'.mem.load k sz = b.mem.load k sz :=
    fun k sz hk => load_congr fun q _ hq => hmem q (by omega)
  have hbuf' : ObjBuf p.addr i b' (c.resize n hn) := by
    refine ⟨hlen, hcap, hcap', ?_, ?_, hblock.congr_words fun row hrow x hx => ?_⟩
    · rw [hkept 0 8 (by decide)]
      exact hbuf.pool_eq
    · rw [hkept 12 4 (by decide)]
      exact hbuf.id_eq
    · show ((if row < c.rows then c.ptr row else fun _ => none) x).getD 0 = _
      split_ifs <;> rfl
  refine ⟨b, b', hb, by rw [Cell.setNelem_eq hn]; exact hres, ?_⟩
  refine hp.modify hc (by rw [Cell.setNelem_eq hn]; exact hbuf') ?_
  refine hp.forward.modify fun c0 hc0 row hrow x hx t ht => ?_
  obtain rfl : c0 = c := Option.some.inj (hc0.symm.trans hc)
  rw [Cell.setNelem_eq hn] at hrow hx ht
  have ht' : (if row < c0.rows then c0.ptr row else fun _ => none) x = some t := ht
  by_cases hr : row < c0.rows
  · rw [if_pos hr] at ht'
    exact hp.forward i c0 hc row hr x hx t ht'
  · rw [if_neg hr] at ht'
    cases ht'

/-- **Putting a number** into an element. -/
theorem Pool.Rep.putInt (hp : p.Rep h) (hc : h[i]? = some c) {k off sz : Nat} (hk : k < c.nelem)
    (hsz : off + sz ≤ c.width → scalarSize sz = true) (hpos : sz ≠ 0) (hdvd : sz ∣ off)
    (hwrap : off + sz < 2 ^ 64) (v : Nat) :
    ∃ b b', p.getbuffer i = some b ∧ Nbuf.putInt b (getElem c.handle k) off sz v = some b' ∧
      (p.setBuf i b').Rep (h.modify i fun c => c.setInt k off sz v) := by
  obtain ⟨b, hb, hbuf⟩ := hp.obj i c hc
  obtain ⟨m, hput, hout, hblock⟩ := putInt_block hbuf.writable hbuf.block hk hsz hpos hdvd hwrap v
  have hsh := fun c : Cell => c.setInt_toShape k off sz v
  have hptr := fun c : Cell => c.setInt_ptr k off sz v
  have hupd := hbuf.update (hsh c) hout (by rw [Cell.idWord_congr (hptr c)]; exact hblock)
  exact ⟨b, { b with mem := m }, hb, hput,
    hp.modify (f := fun c => c.setInt k off sz v) hc hupd (hp.forward.modify_scal hsh hptr)⟩

/-- **Putting a bit** into an element. -/
theorem Pool.Rep.putBit (hp : p.Rep h) (hc : h[i]? = some c) {k : Nat} (hk : k < c.nelem)
    (off : Nat) (v : Bool) :
    ∃ b b', p.getbuffer i = some b ∧ Nbuf.putBit b (getElem c.handle k) off v = some b' ∧
      (p.setBuf i b').Rep (h.modify i fun c => c.setBit k off v) := by
  obtain ⟨b, hb, hbuf⟩ := hp.obj i c hc
  obtain ⟨m, hput, hout, hblock⟩ := putBit_block hbuf.writable hbuf.block hk v
  have hsh := fun c : Cell => c.setBit_toShape k off v
  have hptr := fun c : Cell => c.setBit_ptr k off v
  have hupd := hbuf.update (hsh c) hout (by rw [Cell.idWord_congr (hptr c)]; exact hblock)
  exact ⟨b, { b with mem := m }, hb, hput,
    hp.modify (f := fun c => c.setBit k off v) hc hupd (hp.forward.modify_scal hsh hptr)⟩

end

/-! ## Clients -/

/-- A client of a builder, with its current handles; the handle of object `i` is in buffer `i`. -/
structure Build where
  pool : Pool
  objs : List Obj
  clock : Nat

/-- One call. `alloc` gives the answers of `realloc`, which may differ from call to call. -/
def Build.step (alloc : Nat → Realloc) (s : Build) : Edit → Option Build
  | .call (.create sh) => do
      let (p, r) ← s.pool.create (alloc s.clock) sh.nelem sh.ssize sh.psize
      pure ⟨p, s.objs ++ [r], s.clock + 1⟩
  | .call (.putInt i k off sz v) => do
      let r ← s.objs[i]?
      let b ← s.pool.getbuffer i
      let b ← putInt b (getElem r k) off sz v
      pure ⟨s.pool.setBuf i b, s.objs, s.clock + 1⟩
  | .call (.putBit i k off v) => do
      let r ← s.objs[i]?
      let b ← s.pool.getbuffer i
      let b ← putBit b (getElem r k) off v
      pure ⟨s.pool.setBuf i b, s.objs, s.clock + 1⟩
  | .call (.putPtr i k x t) => do
      let r ← s.objs[i]?
      let p ← s.pool.putPtr i (getElem r k) x t
      pure ⟨p, s.objs, s.clock + 1⟩
  | .call (.putStr i k x str len) => do
      let r ← s.objs[i]?
      let (p, rr) ← s.pool.putStr (alloc s.clock) i (getElem r k) x str len
      pure ⟨p, s.objs ++ [rr], s.clock + 1⟩
  | .resize i n => do
      let r ← s.objs[i]?
      let b ← s.pool.getbuffer i
      let (b, r) ← resize (alloc s.clock) b r n
      pure ⟨s.pool.setBuf i b, s.objs.set i r, s.clock + 1⟩

/-- The pool and the handles are those of the heap. -/
structure Build.Rel (s : Build) (h : Heap) : Prop where
  rep : s.pool.Rep h
  objs_eq : s.objs = h.map Cell.handle

/-- A fresh builder represents the empty heap. -/
theorem Build.rel_init (addr : Nat) (haddr : addr < 2 ^ 64) :
    Build.Rel ⟨initBuilder addr haddr, [], 0⟩ [] where
  rep := ⟨rfl, fun i c hi => by simp at hi, fun i c hi => by simp at hi⟩
  objs_eq := rfl

theorem Heap.map_handle_modify (h : Heap) (i : Nat) {f : Cell → Cell}
    (hf : ∀ c, (f c).toShape = c.toShape) :
    (h.modify i f).map Cell.handle = h.map Cell.handle := by
  apply List.ext_getElem?
  intro j
  rw [List.getElem?_map, List.getElem?_map, List.getElem?_modify]
  by_cases hij : i = j
  · cases h[j]? with
    | none => simp
    | some c => simp [hij, Cell.handle, hf]
  · simp [hij]

section

variable {s : Build} {h : Heap} {i : Nat} {c : Cell}

theorem Build.Rel.obj (hs : s.Rel h) (hc : h[i]? = some c) : s.objs[i]? = some c.handle := by
  rw [hs.objs_eq, List.getElem?_map, hc]
  rfl

/-- **One call** of a builder does what it does to the heap. -/
theorem Build.Rel.step (hs : s.Rel h) {alloc : Nat → Realloc} (ha : ∀ n, (alloc n).Total)
    {e : Edit} (hok : e.Ok h) (hcount : (e.apply h).length < 2 ^ 32) :
    ∃ s', s.step alloc e = some s' ∧ s'.Rel (e.apply h) := by
  cases e with
  | resize i n =>
      obtain ⟨c, hc, hle, hn⟩ := hok
      obtain ⟨b, b', hb, hres, hrel⟩ := hs.rep.resize hc (ha s.clock) hn hle
      refine ⟨_, by simp [Build.step, hs.obj hc, hb, hres]; rfl, hrel, ?_⟩
      show s.objs.set i _ = List.map Cell.handle (List.modify h i _)
      rw [hs.objs_eq]
      apply List.ext_getElem?
      intro j
      by_cases hij : i = j
      · subst hij
        rw [List.getElem?_map, Heap.getElem?_modify_self hc, List.getElem?_set_self]
        · rfl
        · rw [List.length_map]
          exact (List.getElem?_eq_some_iff.mp hc).1
      · rw [List.getElem?_set_ne hij, List.getElem?_map, List.getElem?_map,
          List.getElem?_modify_ne _ _ hij]
  | call call =>
      cases call with
      | create sh =>
          have hlen : h.length < 2 ^ 32 := by
            have hsum : (Edit.apply h (.call (.create sh))).length = h.length + 1 :=
              List.length_append
            omega
          obtain ⟨b, hcreate, -, hrel⟩ := hs.rep.create (ha s.clock) sh.ofFields_eq hlen
          refine ⟨_, by simp [Build.step, hcreate]; rfl, hrel, ?_⟩
          show s.objs ++ [_] = List.map Cell.handle (h ++ [_])
          rw [hs.objs_eq, List.map_append]
          rfl
      | putInt i k off sz v =>
          obtain ⟨⟨c, hc, hk, hsz, hpos, hdvd, -⟩, hwrap⟩ := hok
          obtain ⟨b, b', hb, hput, hrel⟩ := hs.rep.putInt hc hk hsz hpos hdvd hwrap v
          have hsh := fun c : Cell => c.setInt_toShape k off sz v
          exact ⟨⟨s.pool.setBuf i b', s.objs, s.clock + 1⟩,
            by simp [Build.step, hs.obj hc, hb, hput], hrel,
            hs.objs_eq.trans (h.map_handle_modify i hsh).symm⟩
      | putBit i k off v =>
          obtain ⟨⟨c, hc, hk, -⟩, -⟩ := hok
          obtain ⟨b, b', hb, hput, hrel⟩ := hs.rep.putBit hc hk off v
          have hsh := fun c : Cell => c.setBit_toShape k off v
          exact ⟨⟨s.pool.setBuf i b', s.objs, s.clock + 1⟩,
            by simp [Build.step, hs.obj hc, hb, hput], hrel,
            hs.objs_eq.trans (h.map_handle_modify i hsh).symm⟩
      | putPtr i k x t =>
          obtain ⟨⟨c, hc, hk, hx, hit, ht⟩, -⟩ := hok
          have hlen : h.length < 2 ^ 32 := by
            have hsum : (Edit.apply h (.call (.putPtr i k x t))).length = h.length :=
              List.length_modify _ _ _
            omega
          obtain ⟨p', hput, -, hrel⟩ := hs.rep.putPtr hc hk hx hit ht hlen
          have hsh := fun c : Cell => c.putPtr_toShape (c.row k) x t
          exact ⟨⟨p', s.objs, s.clock + 1⟩, by simp [Build.step, hs.obj hc, hput], hrel,
            hs.objs_eq.trans (h.map_handle_modify i hsh).symm⟩
      | putStr i k x str len =>
          obtain ⟨⟨c, hc, hk, hx, n, hlen, hstr, hn⟩, -⟩ := hok
          have happly := Call.apply_putStr h i k x hlen
          have hcnt : h.length + 1 < 2 ^ 32 := by
            have hsum : (Edit.apply h (.call (.putStr i k x str len))).length = h.length + 1 := by
              show (Call.apply h (.putStr i k x str len)).length = _
              rw [happly]
              split_ifs
              · exact List.length_append
              · rw [List.length_modify]
                exact List.length_append
            omega
          obtain ⟨p', hput, hrel⟩ := hs.rep.putStr hc (ha s.clock) hk hx hlen hstr hn hcnt
          refine ⟨⟨p', s.objs ++ [(Cell.new (strShape n)).handle], s.clock + 1⟩,
            by simp [Build.step, hs.obj hc, hput], hrel, ?_⟩
          show s.objs ++ [_] = List.map Cell.handle (Call.apply h (.putStr i k x str len))
          rw [happly, hs.objs_eq]
          have hcell : (strCell (str.take n)).handle = (Cell.new (strShape n)).handle := by
            show (strShape (str.take n).length).obj _ = _
            rw [List.length_take, Nat.min_eq_left hstr]
            rfl
          split_ifs
          · rw [List.map_append]
            rfl
          · have hsh := fun c : Cell => c.putPtr_toShape (c.row k) x h.length
            rw [Heap.map_handle_modify _ i hsh, List.map_append, ← hcell]
            rfl

/-- **A run of a builder** does what it does to the heap, as long as the ids have 32 bits. -/
theorem Build.Rel.run_of_length (hs : s.Rel h) {alloc : Nat → Realloc} (ha : ∀ n, (alloc n).Total)
    {edits : List Edit} (hok : AllSteps Edit.step Edit.Ok h edits) {h' : Heap}
    (hrun : Run.run Edit.step h edits = some h') (hcount : h'.length < 2 ^ 32) :
    ∃ s', Run.run (Build.step alloc) s edits = some s' ∧ s'.Rel h' := by
  induction edits generalizing s h with
  | nil =>
      cases hrun
      exact ⟨s, rfl, hs⟩
  | cons e edits ih =>
      have hrest : Run.run Edit.step (e.apply h) edits = some h' := hrun
      have hle := Edit.length_le_run hrest
      obtain ⟨s1, hs1, hrel1⟩ := hs.step ha hok.1 (by omega)
      obtain ⟨s', hs', hrel'⟩ := ih hrel1 (hok.2 _ rfl) hrest
      exact ⟨s', by rw [run_cons_of_eq hs1, hs'], hrel'⟩

theorem Build.Rel.run (hs : s.Rel h) {alloc : Nat → Realloc} (ha : ∀ n, (alloc n).Total)
    {edits : List Edit} (hok : AllSteps Edit.step Edit.Ok h edits) {h' : Heap}
    (hrun : Run.run Edit.step h edits = some h') (hfit : h'.total < 2 ^ 35) :
    ∃ s', Run.run (Build.step alloc) s edits = some s' ∧ s'.Rel h' := by
  have hcount := h'.length_le_total
  exact hs.run_of_length ha hok hrun (by omega)

end

end Nbuf
