import Nbuf.Wire.BuilderHeap
import Nbuf.Wire.PlainReader

set_option autoImplicit false

/-! # `nbuf_serialize`

The first pass gives each object the offset it has when the objects are laid out one behind the
other; the second pass copies the objects there and turns ids into distances. The output holds
the heap that the pool represents. Offsets are kept in words in a `uint32_t`, so that objects must
start below `2 ^ 34`.
-/

namespace Nbuf

open Align Run ByteMem

/-! ## The first pass -/

/-- Object `i` has its offset in its `objmeta`. -/
def Pool.Placed (p : Pool) (h : Heap) (i : Nat) : Prop :=
  ∃ b, p.bufs[i]? = some b ∧ b.mem.load 8 4 = h.offs i / 4 % 2 ^ 32

/-- Writing the offset leaves the rest of the buffer alone. -/
theorem ObjBuf.place {addr i : Nat} {b : Buffer} {c : Cell} (hb : ObjBuf addr i b c) (v : Nat) :
    ObjBuf addr i { b with mem := b.mem.store 8 4 v } c where
  len_eq := hb.len_eq
  len_le_cap := hb.len_le_cap
  cap_lt := hb.cap_lt
  pool_eq := by
    show load (b.mem.store 8 4 v) 0 8 = addr
    rw [load_store_disjoint _ (by omega)]
    exact hb.pool_eq
  id_eq := by
    show load (b.mem.store 8 4 v) 12 4 = i
    rw [load_store_disjoint _ (by omega)]
    exact hb.id_eq
  block := hb.block.congr fun q hq _ => store_outside _ (by unfold metaSize at hq; omega)

/-- **The first pass** places every object. -/
theorem place_spec {p : Pool} {h : Heap} (hp : p.Rep h) (htot : h.total < 2 ^ 63) :
    ∃ p', run placeObj (p, 0) (List.range p.buffercount) = some (p', h.total) ∧ p'.Rep h ∧
      p'.buffercount = p.buffercount ∧ ∀ i, i < h.length → p'.Placed h i := by
  have hcount : p.buffercount = h.length := hp.length_eq
  have hloop := run_range placeObj
    (fun k s => s.1.Rep h ∧ s.2 = h.offs k ∧ ∀ i, i < k → s.1.Placed h i) (n := h.length)
    (s := (p, 0)) ⟨hp, rfl, fun i hi => absurd hi (Nat.not_lt_zero i)⟩ ?_
  · obtain ⟨⟨p', size⟩, hrun, hrep, hsize, hplaced⟩ := hloop
    dsimp only at hrep hsize hplaced
    rw [h.offs_length] at hsize
    refine ⟨p', by rw [hcount, hrun, hsize], hrep, ?_, hplaced⟩
    rw [hcount]
    exact hrep.length_eq
  · rintro k ⟨q, cursor⟩ hk ⟨hq, hcursor, hplaced⟩
    dsimp only at hq hcursor hplaced
    subst hcursor
    have hc : h[k]? = some h[k] := List.getElem?_eq_getElem hk
    obtain ⟨b, hb, hbuf⟩ := hq.obj k _ hc
    have hext := hbuf.extent_le
    have hend := Heap.offs_add_le_total hc
    have hk' : k < q.bufs.length := by rw [hq.length_eq]; exact hk
    have hsize : nbufRoundup (sizeT (h.offs k + 8 + (h[k]).handle.totalsz)) 8 = h.offs (k + 1) := by
      have htotal : (h[k]).handle.totalsz = (h[k]).bodySize := (h[k]).totalsz_eq _
      rw [htotal, (h[k]).endOf_eq (h.dvd_offs k) (by omega), Heap.offs_succ hc]
    have hrep := hq.modify (f := id) hc (hbuf.place (h.offs k / 4)) (by rw [List.modify_id]; exact hq.forward)
    rw [List.modify_id] at hrep
    refine ⟨(q.setBuf k { b with mem := b.mem.store 8 4 (h.offs k / 4) }, h.offs (k + 1)), ?_,
      hrep, rfl, fun i hi => ?_⟩
    · unfold placeObj Pool.getbuffer
      simp only [hb, hbuf.getobj_eq, Option.bind_eq_bind, Option.bind_some, hsize]
      rw [assertC_pos (by omega)]
      rfl
    · by_cases hik : i = k
      · subst hik
        exact ⟨_, List.getElem?_set_self hk', load_store _ _ _ _⟩
      · obtain ⟨b', hb', hoff⟩ := hplaced i (by omega)
        exact ⟨b', by rw [← hb']; exact List.getElem?_set_ne (Ne.symm hik), hoff⟩

/-! ## Copying one object -/

/-- A state of the second pass after writes to `lo, …, hi - 1` only. -/
structure Ser.Wrote (s s' : Ser) (lo hi : Nat) : Prop where
  len_eq : s'.out.len = s.out.len
  cap_eq : s'.out.cap = s.out.cap
  frame : ∀ q, (q < lo ∨ hi ≤ q) → s'.out.mem q = s.out.mem q

theorem Ser.Wrote.refl (s : Ser) (lo hi : Nat) : s.Wrote s lo hi := ⟨rfl, rfl, fun _ _ => rfl⟩

theorem Ser.Wrote.trans {s s' s'' : Ser} {lo mid hi : Nat} (h : s.Wrote s' lo mid)
    (h' : s'.Wrote s'' mid hi) (h1 : lo ≤ mid) (h2 : mid ≤ hi) : s.Wrote s'' lo hi where
  len_eq := h'.len_eq.trans h.len_eq
  cap_eq := h'.cap_eq.trans h.cap_eq
  frame := fun q hq => by rw [h'.frame q (by omega), h.frame q (by omega)]

theorem Ser.Wrote.extent_eq {s s' : Ser} {lo hi : Nat} (h : s.Wrote s' lo hi) :
    s'.out.extent = s.out.extent := by
  unfold Buffer.extent
  rw [h.len_eq, h.cap_eq]

theorem Ser.copy_spec {s : Ser} {b : Buffer} {n : Nat} (hsrc : s.src + n ≤ b.extent)
    (hout : s.cursor + n ≤ s.out.extent) : ∃ s', s.copy b n = some s' ∧
      s'.cursor = s.cursor + n ∧ s'.src = s.src + n ∧ s.Wrote s' s.cursor (s.cursor + n) ∧
      ∀ j, j < n → s'.out.mem (s.cursor + j) = b.mem (s.src + j) := by
  refine ⟨⟨{ s.out with mem := s.out.mem.copy s.cursor b.mem s.src n }, s.cursor + n, s.src + n⟩,
    ?_, rfl, rfl, ⟨rfl, rfl, fun q hq => copy_outside _ _ _ (by omega)⟩, fun j hj => ?_⟩
  · unfold Ser.copy
    rw [assertC_pos hsrc, assertC_pos hout]
    rfl
  · show s.out.mem.copy s.cursor b.mem s.src n (s.cursor + j) = _
    rw [copy_inside _ _ _ (by omega) (by omega), Nat.add_sub_cancel_left]

/-- The padding behind an object. -/
theorem Ser.pad_spec (fuel : Nat) : ∀ (s : Ser), roundUp s.cursor 8 - s.cursor < fuel →
    roundUp s.cursor 8 ≤ s.out.extent → ∃ s', s.pad fuel = some s' ∧
      s'.cursor = roundUp s.cursor 8 ∧ s.Wrote s' s.cursor (roundUp s.cursor 8) ∧
      ∀ q, s.cursor ≤ q → q < roundUp s.cursor 8 → s'.out.mem q = 0 := by
  induction fuel with
  | zero => intro s hfuel
            omega
  | succ fuel ih =>
      intro s hfuel hext
      have hle := le_roundUp (show 0 < 8 by decide) s.cursor
      unfold Ser.pad
      by_cases hmod : s.cursor % 8 = 0
      · have hround : roundUp s.cursor 8 = s.cursor :=
          roundUp_of_dvd (by decide) (Nat.dvd_of_mod_eq_zero hmod)
        refine ⟨s, if_pos hmod, hround.symm, Ser.Wrote.refl s _ _, fun q h1 h2 => ?_⟩
        omega
      · have hlt : s.cursor < roundUp s.cursor 8 := by
          refine Nat.lt_of_le_of_ne hle fun heq => hmod ?_
          rw [heq]
          exact Nat.mod_eq_zero_of_dvd (dvd_roundUp _ _)
        have hround : roundUp (s.cursor + 1) 8 = roundUp s.cursor 8 :=
          Nat.le_antisymm (roundUp_le (dvd_roundUp _ _) hlt)
            (roundUp_mono (by decide) (Nat.le_succ _))
        let s1 : Ser := ⟨{ s.out with mem := s.out.mem.fill s.cursor 1 0 }, s.cursor + 1, s.src⟩
        have hset : memsetC s.out s.cursor 0 1
            = some { s.out with mem := s.out.mem.fill s.cursor 1 0 } := by
          unfold memsetC
          rw [assertC_pos (by omega)]
          rfl
        obtain ⟨s', hpad, hcursor, hwrote, hzero⟩ := ih s1
          (by show roundUp (s.cursor + 1) 8 - (s.cursor + 1) < fuel; omega)
          (by show roundUp (s.cursor + 1) 8 ≤ s.out.extent; omega)
        have hstep : s.Wrote s1 s.cursor (s.cursor + 1) :=
          ⟨rfl, rfl, fun q hq => fill_outside _ _ hq⟩
        change s'.cursor = roundUp (s.cursor + 1) 8 at hcursor
        change s1.Wrote s' (s.cursor + 1) (roundUp (s.cursor + 1) 8) at hwrote
        rw [hround] at hcursor hwrote
        refine ⟨s', ?_, hcursor, hstep.trans hwrote (Nat.le_succ _) hlt, fun q h1 h2 => ?_⟩
        · rw [if_neg hmod, hset]
          exact hpad
        · by_cases hq : q = s.cursor
          · rw [hwrote.frame q (Or.inl (by omega)), hq]
            exact fill_inside _ _ (Nat.le_refl _) (by omega)
          · exact hzero q (by show s.cursor + 1 ≤ q; omega) (by
              show q < roundUp (s.cursor + 1) 8
              omega)

section

variable {p : Pool} {h : Heap} {i : Nat} {b : Buffer} {c : Cell}

/-- Row `row` of the object at `base` is copied. -/
def RowDone (h : Heap) (i : Nat) (c : Cell) (m : ByteMem) (row : Nat) : Prop :=
  (∀ j, j < c.width → m (c.rowPos (h.offs i) row + j) = c.scal row j) ∧
    ∀ x, x < c.psize → m.load (h.slotPos i c row x) 4 = h.relWord i c row x

/-- The word that takes the place of an id. -/
theorem Pool.Rep.relTo_eq (hp : p.Rep h) (hplaced : ∀ t, t < h.length → p.Placed h t)
    (htot : h.total < 2 ^ 34) (hc : h[i]? = some c) {row x : Nat} (hrow : row < c.rows)
    (hx : x < c.psize) : ∃ rel, p.relTo i (h.slotPos i c row x) (c.idWord row x) = some rel ∧
      rel % 2 ^ 32 = h.relWord i c row x := by
  have hcount : p.buffercount = h.length := hp.length_eq
  have hpos := c.rowPos_inside (h.offs i) hrow
  have hin := c.slotPos_inside (h.offs i) row hx
  have hle := c.le_blockSize
  have hdvd := h.dvd_slotPos i row hx
  have hslot : h.slotPos i c row x = c.slotPos (h.offs i) row x := rfl
  unfold Pool.relTo Cell.idWord Heap.relWord
  cases hptr : c.ptr row x with
  | none => exact ⟨0, rfl, rfl⟩
  | some t =>
      obtain ⟨hit, ht⟩ := hp.forward i c hc row hrow x hx t hptr
      obtain ⟨bt, hbt, hoff⟩ := hplaced t ht
      obtain ⟨bt', hbt', hbuft⟩ := hp.obj t _ (List.getElem?_eq_getElem ht)
      obtain rfl : bt = bt' := Option.some.inj (hbt.symm.trans hbt')
      have hexts := hbuft.extent_le
      have hafter := Heap.offs_add_le hc hit
      have hend := Heap.offs_add_le_total (List.getElem?_eq_getElem ht)
      have hlet := (h[t]).le_blockSize
      have hdvdt := h.dvd_offs t
      have hoffset : metaOffset bt = some (h.offs t / 4) := by
        unfold metaOffset
        rw [assertC_pos (by omega), hoff, Nat.mod_eq_of_lt (by omega)]
        rfl
      have hsub : szSub (h.offs t / 4) (h.slotPos i c row x / 4)
          = (h.offs t - h.slotPos i c row x) / 4 := by
        rw [szSub_of_le (by omega) (by omega)]
        omega
      refine ⟨(h.offs t - h.slotPos i c row x) / 4, ?_, rfl⟩
      rw [Option.getD_some, if_pos (by omega), assertC_pos (by omega)]
      simp only [Pool.getbuffer, hbt, hoffset, hsub, Option.bind_eq_bind, Option.bind_some]
      rfl

/-- An id is read back as it was written. -/
theorem Pool.Rep.toU64_idWord (hp : p.Rep h) (hlen : h.length < 2 ^ 31) (hc : h[i]? = some c)
    {row x : Nat} (hrow : row < c.rows) (hx : x < c.psize) :
    toU64 ((c.idWord row x : Int).bmod (256 ^ 4)) = c.idWord row x := by
  have hlt : c.idWord row x < 2 ^ 31 := by
    unfold Cell.idWord
    cases hptr : c.ptr row x with
    | none => decide
    | some t => exact Nat.lt_trans (hp.forward i c hc row hrow x hx t hptr).2 hlen
  rw [Int.bmod_eq_of_le (by omega) (by omega)]
  unfold toU64
  omega

/-- **One pointer** of the second pass. -/
theorem Ser.copyPtr_spec (hp : p.Rep h) (hplaced : ∀ t, t < h.length → p.Placed h t)
    (htot : h.total < 2 ^ 34) (hc : h[i]? = some c) (hbuf : ObjBuf p.addr i b c) {row x : Nat}
    (hrow : row < c.rows) (hx : x < c.psize) {s : Ser} (hcursor : s.cursor = h.slotPos i c row x)
    (hsrc : s.src = c.slotPos metaSize row x) (hext : s.cursor + 4 ≤ s.out.extent) :
    ∃ s', s.copyPtr p i b = some s' ∧ s'.cursor = s.cursor + 4 ∧ s'.src = s.src + 4 ∧
      s.Wrote s' s.cursor (s.cursor + 4) ∧
      s'.out.mem.load (h.slotPos i c row x) 4 = h.relWord i c row x := by
  have hpos := c.rowPos_inside metaSize hrow
  have hin := c.slotPos_inside metaSize row hx
  have hle := c.le_blockSize
  have hlen := hbuf.len_eq
  have hbext := len_le_extent b
  have hlength := h.length_le_total
  have hsize : scalarSize 4 = true := rfl
  have hword : b.mem.load s.src 4 = c.idWord row x := by
    rw [hsrc]
    exact hbuf.block.slot row hrow x hx
  have hread : (readIntUnsafe b s.src 4).map toU64 = some (c.idWord row x) := by
    unfold readIntUnsafe
    rw [assertC_pos hsize, assertC_pos (by omega), hword,
      ← hp.toU64_idWord (by omega) hc hrow hx]
    exact congrArg some (congrArg toU64 (by rw [hp.toU64_idWord (by omega) hc hrow hx]))
  obtain ⟨rel, hrel, hval⟩ := hp.relTo_eq hplaced htot hc hrow hx
  rw [← hcursor] at hrel
  refine ⟨⟨{ s.out with mem := s.out.mem.store s.cursor 4 rel }, s.cursor + 4, s.src + 4⟩, ?_, rfl,
    rfl, ⟨rfl, rfl, fun q hq => store_outside _ hq⟩, ?_⟩
  · unfold Ser.copyPtr
    simp only [hread, Option.bind_eq_bind, Option.bind_some, hrel]
    unfold writeIntUnsafe
    rw [assertC_pos hsize, assertC_pos hext]
    rfl
  · rw [← hcursor]
    show load (s.out.mem.store s.cursor 4 rel) s.cursor 4 = _
    rw [load_store]
    exact hval

/-- A row that is done stays done when only bytes behind it are written. -/
theorem RowDone.frame {m m' : ByteMem} {row : Nat} (hd : RowDone h i c m row)
    (hm : ∀ q, q < c.rowPos (h.offs i) (row + 1) → m' q = m q) : RowDone h i c m' row := by
  have hst := c.stride_eq
  have hnext : c.rowPos (h.offs i) (row + 1) = c.rowPos (h.offs i) row + c.stride :=
    Obj.rowPos_add_stride _ _
  constructor
  · intro j hj
    rw [hm _ (by omega)]
    exact hd.1 j hj
  · intro x hx
    have hin := c.slotPos_inside (h.offs i) row hx
    rw [← hd.2 x hx]
    exact load_congr fun q _ hq => hm q (by unfold Heap.slotPos at hq; omega)

/-- **One element** of an object with pointers. -/
theorem Ser.copyElem_spec (hp : p.Rep h) (hplaced : ∀ t, t < h.length → p.Placed h t)
    (htot : h.total < 2 ^ 34) (hc : h[i]? = some c) (hbuf : ObjBuf p.addr i b c)
    (hpsize : c.psize ≠ 0) {row : Nat} (hrow : row < c.rows) {s : Ser}
    (hcursor : s.cursor = c.rowPos (h.offs i) row) (hsrc : s.src = c.rowPos metaSize row)
    (hext : s.cursor + c.stride ≤ s.out.extent) :
    ∃ s', s.copyElem p i b c.handle = some s' ∧ s'.cursor = c.rowPos (h.offs i) (row + 1) ∧
      s'.src = c.rowPos metaSize (row + 1) ∧
      s.Wrote s' s.cursor (c.rowPos (h.offs i) (row + 1)) ∧ RowDone h i c s'.out.mem row := by
  have hwidth : c.width = c.ssize := by rw [c.width_eq, if_neg (by omega)]
  have hst := c.stride_eq
  have hle := c.le_blockSize
  have hlen := hbuf.len_eq
  have hbext := len_le_extent b
  have hin := c.rowPos_inside metaSize hrow
  have hnext : c.rowPos (h.offs i) (row + 1) = c.rowPos (h.offs i) row + c.stride :=
    Obj.rowPos_add_stride _ _
  have hnext' : c.rowPos metaSize (row + 1) = c.rowPos metaSize row + c.stride :=
    Obj.rowPos_add_stride _ _
  obtain ⟨s1, hcopy, hcursor1, hsrc1, hwrote1, hmem1⟩ := Ser.copy_spec (s := s) (b := b)
    (n := c.ssize) (by omega) (by omega)
  -- after `x` slots the scalar bytes and these slots are done
  have hloop := run_range (fun t (_ : Nat) => Ser.copyPtr p i b t)
    (fun x t => t.cursor = h.slotPos i c row x ∧ t.src = c.slotPos metaSize row x ∧
      s1.Wrote t s1.cursor t.cursor ∧
      ∀ y, y < x → t.out.mem.load (h.slotPos i c row y) 4 = h.relWord i c row y)
    (n := c.psize) (s := s1) ?_ ?_
  · obtain ⟨s', hrun, hcursor', hsrc', hwrote', hslots⟩ := hloop
    have hend : h.slotPos i c row c.psize = c.rowPos (h.offs i) (row + 1) := by
      unfold Heap.slotPos Shape.slotPos
      omega
    have hend' : c.slotPos metaSize row c.psize = c.rowPos metaSize (row + 1) := by
      unfold Shape.slotPos
      omega
    rw [hend] at hcursor'
    rw [hend'] at hsrc'
    rw [hcursor', hcursor1] at hwrote'
    refine ⟨s', ?_, hcursor', hsrc', hwrote1.trans hwrote' (by omega) (by omega), ?_, hslots⟩
    · unfold Ser.copyElem
      have hcopy' : s.copy b c.handle.ssize = some s1 := hcopy
      rw [hcopy']
      exact hrun
    · intro j hj
      have hblock := hbuf.block.scal row hrow j hj
      rw [hwrote'.frame _ (Or.inl (by omega)), ← hcursor, hmem1 j (by omega), hsrc]
      exact hblock
  · refine ⟨?_, ?_, Ser.Wrote.refl s1 _ _, fun y hy => absurd hy (Nat.not_lt_zero y)⟩
    · unfold Heap.slotPos Shape.slotPos
      omega
    · unfold Shape.slotPos
      omega
  · rintro x t hx ⟨hcursor', hsrc', hwrote', hslots⟩
    have hin' := c.slotPos_inside (h.offs i) row hx
    have hpos : h.slotPos i c row x = c.slotPos (h.offs i) row x := rfl
    have hnext2 : h.slotPos i c row (x + 1) = h.slotPos i c row x + 4 := by
      unfold Heap.slotPos Shape.slotPos
      omega
    have hnext2' : c.slotPos metaSize row (x + 1) = c.slotPos metaSize row x + 4 := by
      unfold Shape.slotPos
      omega
    have hext1 : t.out.extent = s.out.extent := by rw [hwrote'.extent_eq, hwrote1.extent_eq]
    obtain ⟨t', hptr, hcursor2, hsrc2, hwrote2, hload⟩ := Ser.copyPtr_spec hp hplaced htot hc hbuf
      hrow hx hcursor' hsrc' (by omega)
    have hlt : s1.cursor ≤ t.cursor := by
      rw [hcursor1, hcursor', hcursor]
      unfold Heap.slotPos Shape.slotPos
      omega
    refine ⟨t', hptr, by omega, by omega, ?_, fun y hy => ?_⟩
    · rw [hcursor2]
      exact hwrote'.trans hwrote2 hlt (by omega)
    · by_cases hyx : y = x
      · rw [hyx]
        exact hload
      · rw [← hslots y (by omega)]
        refine load_congr fun q _ hq => hwrote2.frame q (Or.inl ?_)
        rw [hcursor']
        unfold Heap.slotPos Shape.slotPos at hq ⊢
        omega

/-- **The body of an object**: both ways of copying do all rows. -/
theorem Ser.copyBody_spec (hp : p.Rep h) (hplaced : ∀ t, t < h.length → p.Placed h t)
    (htot : h.total < 2 ^ 34) (hc : h[i]? = some c) (hbuf : ObjBuf p.addr i b c) {s : Ser}
    (hcursor : s.cursor = h.offs i + 8) (hsrc : s.src = metaSize + 8)
    (hext : s.cursor + c.bodySize ≤ s.out.extent) :
    ∃ s', s.copyBody p i b c.handle = some s' ∧ s'.cursor = h.offs i + 8 + c.bodySize ∧
      s.Wrote s' s.cursor (h.offs i + 8 + c.bodySize) ∧
      ∀ row, row < c.rows → RowDone h i c s'.out.mem row := by
  have hle := c.le_blockSize
  have hlen := hbuf.len_eq
  have hbext := len_le_extent b
  have hst := c.stride_eq
  have htotal : c.handle.totalsz = c.bodySize := c.totalsz_eq _
  by_cases hps : c.psize = 0
  · obtain ⟨s', hcopy, hcursor', -, hwrote, hmem⟩ := Ser.copy_spec (s := s) (b := b)
      (n := c.bodySize) (by omega) hext
    rw [hcursor] at hcursor' hwrote
    refine ⟨s', ?_, hcursor', by rw [hcursor]; exact hwrote, fun row hrow => ⟨fun j hj => ?_,
      fun x hx => by omega⟩⟩
    · have hps' : c.handle.psize = 0 := hps
      unfold Ser.copyBody
      rw [if_pos hps', htotal]
      exact hcopy
    · have hin := c.rowPos_inside (h.offs i) hrow
      have hblock := hbuf.block.scal row hrow j hj
      have hbyte := hmem (row * c.stride + j) (by rw [c.rowPos_eq] at hin; omega)
      rw [hcursor, hsrc] at hbyte
      have hidx : ∀ base, c.rowPos base row + j = base + 8 + (row * c.stride + j) := by
        intro base
        rw [c.rowPos_eq, Nat.add_assoc]
      rw [← hblock, hidx, hidx]
      exact hbyte
  · have hrows : c.handle.nelem = c.rows := by rw [c.rows_eq, if_neg (by omega)]; rfl
    have hps' : ¬ c.handle.psize = 0 := hps
    have hbody : c.rowPos (h.offs i) c.rows = h.offs i + 8 + c.bodySize := c.rowPos_eq _ _
    have hloop := run_range (fun t (_ : Nat) => Ser.copyElem p i b c.handle t)
      (fun row t => t.cursor = c.rowPos (h.offs i) row ∧ t.src = c.rowPos metaSize row ∧
        s.Wrote t s.cursor t.cursor ∧ ∀ r, r < row → RowDone h i c t.out.mem r)
      (n := c.rows) (s := s) ?_ ?_
    · obtain ⟨s', hrun, hcursor', -, hwrote, hdone⟩ := hloop
      rw [hbody] at hcursor'
      rw [hcursor'] at hwrote
      refine ⟨s', ?_, hcursor', hwrote, hdone⟩
      unfold Ser.copyBody
      rw [if_neg hps', hrows]
      exact hrun
    · refine ⟨?_, ?_, Ser.Wrote.refl s _ _, fun r hr => absurd hr (Nat.not_lt_zero r)⟩
      · rw [hcursor, c.rowPos_eq, Nat.zero_mul]
      · rw [hsrc, c.rowPos_eq, Nat.zero_mul]
    · rintro row t hrow ⟨hcursor', hsrc', hwrote, hdone⟩
      have hin := c.rowPos_inside (h.offs i) hrow
      have hext' := hwrote.extent_eq
      obtain ⟨t', helem, hcursor2, hsrc2, hwrote2, hdone2⟩ := Ser.copyElem_spec hp hplaced htot hc
        hbuf hps hrow hcursor' hsrc' (by omega)
      have hnext : c.rowPos (h.offs i) (row + 1) = c.rowPos (h.offs i) row + c.stride :=
        Obj.rowPos_add_stride _ _
      refine ⟨t', helem, hcursor2, hsrc2, ?_, fun r hr => ?_⟩
      · rw [hcursor2]
        exact hwrote.trans hwrote2 (by omega) (by omega)
      · by_cases hrr : r = row
        · rw [hrr]
          exact hdone2
        · refine (hdone r (by omega)).frame fun q hq => hwrote2.frame q (Or.inl ?_)
          have hmono : c.rowPos (h.offs i) (r + 1) ≤ c.rowPos (h.offs i) row :=
            Obj.rowPos_le (by omega)
          omega

/-- **One object** of the second pass: its block is laid out at its offset. -/
theorem Ser.copyObj_spec (hp : p.Rep h) (hplaced : ∀ t, t < h.length → p.Placed h t)
    (htot : h.total < 2 ^ 34) (hc : h[i]? = some c) {s : Ser} (hcursor : s.cursor = h.offs i)
    (hext : h.total ≤ s.out.extent) :
    ∃ s', Ser.copyObj p s i = some s' ∧ s'.cursor = h.offs (i + 1) ∧
      s.Wrote s' (h.offs i) (h.offs (i + 1)) ∧
      Block s'.out.mem (h.offs i) c (h.relWord i c) := by
  obtain ⟨b, hb, hbuf⟩ := hp.obj i c hc
  have hi : i < h.length := (List.getElem?_eq_some_iff.mp hc).1
  have hbext := hbuf.extent_le
  have hle := c.le_blockSize
  have hend := Heap.offs_add_le_total hc
  have hdvd := h.dvd_offs i
  have hround : roundUp (h.offs i + 8 + c.bodySize) 8 = h.offs (i + 1) := by
    rw [Heap.offs_succ hc, Nat.add_assoc, roundUp_add_left (by decide) hdvd]
    rfl
  have hsucc := Heap.offs_succ hc
  have hsmall := roundUp_lt (show 0 < 8 by decide) (h.offs i + 8 + c.bodySize)
  -- the offset of the first pass is where the cursor is
  have hoffset : metaOffset b = some (h.offs i / 4) := by
    obtain ⟨b', hb', hoff⟩ := hplaced i hi
    obtain rfl : b' = b := Option.some.inj (hb'.symm.trans hb)
    unfold metaOffset
    rw [assertC_pos (by omega), hoff, Nat.mod_eq_of_lt (by omega)]
    rfl
  have hassert : s.cursor = h.offs i / 4 * 4 := by omega
  have hsrc0 : szSub c.handle.base 8 = metaSize := by
    show szSub (metaSize + 8) 8 = _
    rw [szSub_of_le (by omega) (by decide)]
    omega
  obtain ⟨s1, hcopy, hcursor1, hsrc1, hwrote1, hmem1⟩ := Ser.copy_spec
    (s := { s with src := metaSize }) (b := b) (n := 8) (by show metaSize + 8 ≤ _; exact hbext)
    (by show s.cursor + 8 ≤ s.out.extent; omega)
  change s1.cursor = s.cursor + 8 at hcursor1
  change Ser.Wrote { s with src := metaSize } s1 s.cursor (s.cursor + 8) at hwrote1
  have hext1 : s1.out.extent = s.out.extent := hwrote1.extent_eq
  obtain ⟨s2, hbody, hcursor2, hwrote2, hrows⟩ := Ser.copyBody_spec hp hplaced htot hc hbuf
    (s := s1) (by omega) hsrc1 (by omega)
  have hext2 := hwrote2.extent_eq
  obtain ⟨s3, hpad, hcursor3, hwrote3, hzero⟩ := Ser.pad_spec 8 s2
    (by rw [hcursor2]; omega) (by rw [hcursor2, hround]; omega)
  rw [hcursor2, hround] at hcursor3 hwrote3 hzero
  have hwrote : s.Wrote s3 (h.offs i) (h.offs (i + 1)) := by
    have h12 := hwrote1.trans (by rw [← hcursor1]; exact hwrote2) (Nat.le_add_right _ _) (by omega)
    have h123 := h12.trans hwrote3 (by omega) (by omega)
    rw [hcursor] at h123
    exact ⟨h123.len_eq, h123.cap_eq, h123.frame⟩
  refine ⟨s3, ?_, hcursor3, hwrote, ?_⟩
  · unfold Ser.copyObj Pool.getbuffer
    rw [hb, Option.bind_eq_bind, Option.bind_some, hbuf.getobj_eq]
    simp only [Option.bind_eq_bind, Option.bind_some]
    rw [hoffset, Option.bind_some, assertC_pos hassert, Option.bind_some, hsrc0, hcopy,
      Option.bind_some, hbody]
    exact hpad
  · constructor
    case hdr =>
      have hhdr := hbuf.block.hdr
      rw [← hhdr]
      refine load_shift fun j hj => ?_
      rw [hwrote3.frame _ (Or.inl (by omega)), hwrote2.frame _ (Or.inl (by omega)), ← hcursor]
      exact hmem1 j hj
    case scal =>
      intro row hrow j hj
      have hin := c.rowPos_inside (h.offs i) hrow
      have hst := c.stride_eq
      rw [hwrote3.frame _ (Or.inl (by omega))]
      exact (hrows row hrow).1 j hj
    case slot =>
      intro row hrow x hx
      have hin := c.rowPos_inside (h.offs i) hrow
      have hslot := c.slotPos_inside (h.offs i) row hx
      rw [← (hrows row hrow).2 x hx]
      exact load_congr fun q _ hq => hwrote3.frame q (Or.inl (by omega))
    case pad =>
      intro q h1 h2
      exact hzero q h1 (by omega)

end

/-! ## The whole -/

/-- **`nbuf_serialize`** of a pool whose objects start below `2 ^ 34`: no assertion fails, and the
output holds the heap that the pool represents. -/
theorem Pool.Rep.serialize {p : Pool} {h : Heap} (hp : p.Rep h) (htot : h.total < 2 ^ 34)
    {a : Realloc} (ha : a.Total) : ∃ b, p.serialize a = some (some b) ∧ h.Holds b ∧
      b.len = b.cap := by
  obtain ⟨p', hplace, hrep, hcount, hplaced⟩ := place_spec hp (by omega)
  obtain ⟨m, hm⟩ := Option.isSome_iff_exists.mp (ha h.total)
  have hlen : p'.buffercount = h.length := hrep.length_eq
  have hloop := run_range (Ser.copyObj p')
    (fun k s => s.cursor = h.offs k ∧ s.out.len = h.total ∧ s.out.cap = h.total ∧
      ∀ i c, i < k → h[i]? = some c → Block s.out.mem (h.offs i) c (h.relWord i c))
    (n := h.length) (s := ⟨⟨m, h.total, h.total⟩, 0, 0⟩) ⟨rfl, rfl, rfl, fun i c hi => absurd hi (Nat.not_lt_zero i)⟩ ?_
  · obtain ⟨s, hrun, hcursor, -, -, hblocks⟩ := hloop
    rw [h.offs_length] at hcursor
    refine ⟨{ s.out with len := s.cursor, cap := s.cursor }, ?_, ⟨hcursor, ?_, fun i c hc => ?_,
      hp.forward⟩, rfl⟩
    · unfold Pool.serialize
      simp only [hplace, Option.bind_eq_bind, Option.bind_some, hm, hlen, hrun]
      rfl
    · show s.cursor < _
      omega
    · exact hblocks i c (List.getElem?_eq_some_iff.mp hc).1 hc
  · rintro k s hk ⟨hcursor, hlens, hcaps, hblocks⟩
    have hc : h[k]? = some h[k] := List.getElem?_eq_getElem hk
    have hext : h.total ≤ s.out.extent := by
      have := len_le_extent s.out
      omega
    obtain ⟨s', hcopy, hcursor', hwrote, hblock⟩ :=
      Ser.copyObj_spec hrep hplaced htot hc hcursor hext
    refine ⟨s', hcopy, hcursor', hwrote.len_eq.trans hlens, hwrote.cap_eq.trans hcaps,
      fun i c hi hci => ?_⟩
    by_cases hik : i = k
    · subst hik
      obtain rfl : h[i] = c := Option.some.inj (hc.symm.trans hci)
      exact hblock
    · have hend := Heap.offs_add_le hci (show i < k by omega)
      exact (hblocks i c (by omega) hci).congr fun q _ hq => hwrote.frame q (Or.inl (by omega))

end Nbuf
