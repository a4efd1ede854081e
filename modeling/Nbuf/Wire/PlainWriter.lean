import Nbuf.Wire.PlainReader

set_option autoImplicit false

/-! # The plain writer represents the heap

`Plain` is a client of the plain writer: a buffer and the handles of the objects it created.
Every call that keeps to the interface succeeds and does to the bytes what `Call.apply` does to
the heap.
-/

namespace Nbuf

open Align Run ByteMem

/-! ## Clients -/

/-- A client of the plain writer. The handle of a string is kept, too, although `nbuf_put_str`
does not return it. -/
structure Plain where
  buf : Buffer
  objs : List Obj

/-- One call. `alloc` gives the answers of `realloc`, which may differ from call to call. -/
def Plain.step (alloc : Nat → Realloc) (s : Plain) : Call → Option Plain
  | .create sh => do
      let (b, r) ← create (alloc s.objs.length) s.buf sh.nelem sh.ssize sh.psize
      pure ⟨b, s.objs ++ [r]⟩
  | .putInt i k off sz v => do
      let r ← s.objs[i]?
      let b ← putInt s.buf (getElem r k) off sz v
      pure { s with buf := b }
  | .putBit i k off v => do
      let r ← s.objs[i]?
      let b ← putBit s.buf (getElem r k) off v
      pure { s with buf := b }
  | .putPtr i k slot t => do
      let r ← s.objs[i]?
      let v ← s.objs[t]?
      let b ← putPtr s.buf (getElem r k) slot v
      pure { s with buf := b }
  | .putStr i k slot str len => do
      let r ← s.objs[i]?
      let (b, rr) ← putStr (alloc s.objs.length) s.buf (getElem r k) slot str len
      pure ⟨b, s.objs ++ [rr]⟩

/-- The buffer and the handles are those of the heap. -/
structure Plain.Rel (s : Plain) (h : Heap) : Prop where
  len_eq : s.buf.len = h.total
  len_le_cap : s.buf.len ≤ s.buf.cap
  cap_lt : s.buf.cap < 2 ^ 64
  objs_eq : ∀ i, s.objs[i]? = h[i]?.map fun (c : Cell) => c.obj (h.offs i + 8)
  rep : h.Rep s.buf.mem
  forward : h.Forward

/-- An empty write buffer represents the empty heap. -/
theorem Plain.rel_init {b : Buffer} (h0 : b.len = 0) (hcap : b.cap < 2 ^ 64) :
    Plain.Rel ⟨b, []⟩ [] where
  len_eq := h0
  len_le_cap := by show b.len ≤ b.cap; omega
  cap_lt := hcap
  objs_eq := fun i => by simp
  rep := fun i c hi => by simp at hi
  forward := fun i c hi => by simp at hi

section

variable {s : Plain} {h : Heap} {i : Nat} {c : Cell}

theorem Plain.Rel.handles (hs : s.Rel h) :
    h.Handles (fun sh offs => sh.obj (offs + 8)) s.objs := hs.objs_eq

theorem Plain.Rel.obj (hs : s.Rel h) (hc : h[i]? = some c) :
    s.objs[i]? = some (c.obj (h.offs i + 8)) := hs.handles.get hc

theorem Plain.Rel.writable (hs : s.Rel h) (hc : h[i]? = some c) (htot : h.total < 2 ^ 63) :
    (c.obj (h.offs i + 8)).Writable s.buf := by
  have hend := Heap.offs_add_le_total hc
  have hle := c.le_blockSize
  refine ⟨?_, hs.len_le_cap, by rw [hs.len_eq]; exact htot⟩
  show h.offs i + 8 + c.bodySize ≤ s.buf.len
  rw [hs.len_eq]
  omega

/-- An update of one object in place. -/
theorem Plain.Rel.modify (hs : s.Rel h) (hc : h[i]? = some c) {f : Cell → Cell}
    (hf : ∀ c, (f c).toShape = c.toShape) {m : ByteMem}
    (hm : ∀ p, (p < h.offs i ∨ h.offs i + c.blockSize ≤ p) → m p = s.buf.mem p)
    (hb : Block m (h.offs i) (f c) (h.relWord i (f c))) (hfwd : Heap.Forward (h.modify i f)) :
    Plain.Rel { s with buf := { s.buf with mem := m } } (h.modify i f) where
  len_eq := by rw [Heap.total_modify h i hf]; exact hs.len_eq
  len_le_cap := hs.len_le_cap
  cap_lt := hs.cap_lt
  objs_eq := hs.handles.modify i hf
  rep := hs.rep.modify hc hf hm hb
  forward := hfwd

/-! ## The calls, one by one -/

/-- A new object behind the others. -/
theorem Plain.Rel.append (hs : s.Rel h) {b' : Buffer} {sh : Shape}
    (hlen : b'.len = h.total + sh.blockSize) (hcap : b'.len ≤ b'.cap) (hcap' : b'.cap < 2 ^ 64)
    (hmem : ∀ p, p < h.total → b'.mem p = s.buf.mem p)
    (hblock : Block b'.mem h.total (Cell.new sh) fun _ _ => 0) :
    Plain.Rel ⟨b', s.objs ++ [sh.obj (h.total + 8)]⟩ (h ++ [Cell.new sh]) := by
  refine ⟨?_, hcap, hcap', hs.handles.append (Cell.new sh),
    hs.rep.append hs.forward hmem hblock fun _ _ => rfl, hs.forward.append fun _ _ => rfl⟩
  rw [hlen, Heap.total_append, Heap.total_singleton]
  rfl

/-- A new object. -/
theorem Plain.Rel.create (hs : s.Rel h) {a : Realloc} (ha : a.Total) {sh : Shape}
    {nelem ssize psize : Nat}
    (hobj : Obj.ofFields s.buf.len nelem ssize psize = sh.obj s.buf.len)
    (hfit : h.total + sh.blockSize < 2 ^ 63) :
    ∃ b', Nbuf.create a s.buf nelem ssize psize = some (b', sh.obj (h.total + 8)) ∧
      Plain.Rel ⟨b', s.objs ++ [sh.obj (h.total + 8)]⟩ (h ++ [Cell.new sh]) := by
  have hdvd : 8 ∣ s.buf.len := hs.len_eq ▸ h.dvd_total
  obtain ⟨b', hcreate, hlen, hcap, hcap', hmem, hblock⟩ := create_spec ha hobj hs.len_le_cap
    hs.cap_lt hdvd (by rw [hs.len_eq]; exact hfit)
  rw [hs.len_eq] at hcreate hlen hmem hblock
  exact ⟨b', hcreate, hs.append hlen hcap hcap' hmem hblock⟩

/-- A number in a row. -/
theorem Plain.Rel.putInt (hs : s.Rel h) (hc : h[i]? = some c) (htot : h.total < 2 ^ 63)
    {k off sz : Nat} (hk : k < c.nelem) (hsz : off + sz ≤ c.width → scalarSize sz = true)
    (hpos : sz ≠ 0) (hdvd : sz ∣ off) (hwrap : off + sz < 2 ^ 64) (v : Nat) :
    ∃ b', Nbuf.putInt s.buf (getElem (c.obj (h.offs i + 8)) k) off sz v = some b' ∧
      Plain.Rel { s with buf := b' } (h.modify i fun c => c.setInt k off sz v) := by
  obtain ⟨m, hput, hout, hblock⟩ :=
    putInt_block (hs.writable hc htot) (hs.rep i c hc) hk hsz hpos hdvd hwrap v
  refine ⟨_, hput, hs.modify hc (fun c => c.setInt_toShape k off sz v) hout ?_
    (hs.forward.modify_scal (fun c => c.setInt_toShape k off sz v)
      fun c => c.setInt_ptr k off sz v)⟩
  exact hblock.congr_words fun row _ x _ => by
    rw [Heap.relWord_congr h i (c.setInt_toShape k off sz v) (c.setInt_ptr k off sz v)]

/-- A bit in a row. -/
theorem Plain.Rel.putBit (hs : s.Rel h) (hc : h[i]? = some c) (htot : h.total < 2 ^ 63)
    {k off : Nat} (hk : k < c.nelem) (v : Bool) :
    ∃ b', Nbuf.putBit s.buf (getElem (c.obj (h.offs i + 8)) k) off v = some b' ∧
      Plain.Rel { s with buf := b' } (h.modify i fun c => c.setBit k off v) := by
  obtain ⟨m, hput, hout, hblock⟩ := putBit_block (hs.writable hc htot) (hs.rep i c hc) hk v
  refine ⟨_, hput, hs.modify hc (fun c => c.setBit_toShape k off v) hout ?_
    (hs.forward.modify_scal (fun c => c.setBit_toShape k off v) fun c => c.setBit_ptr k off v)⟩
  exact hblock.congr_words fun row _ x _ => by
    rw [Heap.relWord_congr h i (c.setBit_toShape k off v) (c.setBit_ptr k off v)]

/-- The word of a pointer in its slot. -/
theorem Plain.Rel.storePtr (hs : s.Rel h) (hc : h[i]? = some c) {k x t : Nat} (hk : k < c.nelem)
    (hx : x < c.psize) (hit : i < t) (ht : t < h.length) :
    Plain.Rel { s with buf := { s.buf with
        mem := s.buf.mem.store (h.slotPos i c (c.row k) x) 4
          ((h.offs t - h.slotPos i c (c.row k) x) / 4) } }
      (h.modify i fun c => c.putPtr (c.row k) x t) := by
  have hrow := Shape.row_lt_rows hk
  have hin := h.slotPos_inside i hrow hx
  have hshape : ∀ c : Cell, (c.putPtr (c.row k) x t).toShape = c.toShape := fun _ => rfl
  refine hs.modify hc hshape (fun p hp => ?_) ?_ (hs.forward.modify_ptr hit ht)
  · exact store_outside _ (by omega)
  · rw [Heap.relWord_putPtr]
    exact (hs.rep i c hc).putPtr hrow hx t _

/-- A pointer in a row. -/
theorem Plain.Rel.putPtr (hs : s.Rel h) (hc : h[i]? = some c) (htot : h.total < 2 ^ 63)
    {k x t : Nat} {ct : Cell} (hct : h[t]? = some ct) (hk : k < c.nelem) (hx : x < c.psize)
    (hit : i < t) :
    ∃ b', Nbuf.putPtr s.buf (getElem (c.obj (h.offs i + 8)) k) x (ct.obj (h.offs t + 8)) = some b' ∧
      Plain.Rel { s with buf := b' } (h.modify i fun c => c.putPtr (c.row k) x t) := by
  have hlt := Heap.slotPos_lt_offs hc (Shape.row_lt_rows hk) hx hit
  have hendt := Heap.offs_add_le_total hct
  have hlet := ct.le_blockSize
  have hdvd := h.dvd_slotPos i (c.row k) hx
  have hdvdt := h.dvd_offs t
  have hslot : (c.obj (h.offs i + 8)).slotPos k x = h.slotPos i c (c.row k) x := rfl
  have hhdr : (ct.obj (h.offs t + 8)).base - 8 = h.offs t := Nat.add_sub_cancel _ _
  have hput := (hs.writable hc htot).putPtr (v := ct.obj (h.offs t + 8)) hk hx
    (by rw [hslot, hhdr]; omega) (by rw [hs.len_eq, Shape.obj_base]; omega)
    (by rw [hslot, hhdr]; omega)
  rw [hslot, hhdr] at hput
  exact ⟨_, hput, hs.storePtr hc hk hx hit (List.getElem?_eq_some_iff.mp hct).1⟩

/-- The bytes of a string in the new object. -/
theorem Plain.Rel.fillStr {n : Nat} {str : List UInt8} (hn : n + 1 < 2 ^ 32)
    (hstr : n ≤ str.length) (hs : s.Rel (h ++ [Cell.new (strShape n)])) :
    ∃ b', Nbuf.fillStr s.buf ((strShape n).obj (h.total + 8)) str n = some b' ∧
      Plain.Rel { s with buf := b' } (h ++ [strCell (str.take n)]) := by
  have hlen : s.buf.len = h.total + (strShape n).blockSize := by
    rw [hs.len_eq, Heap.total_append, Heap.total_singleton]
    rfl
  have hcell : (h ++ [Cell.new (strShape n)])[h.length]? = some (Cell.new (strShape n)) :=
    List.getElem?_concat_length
  have hoffs : Heap.offs (h ++ [Cell.new (strShape n)]) h.length = h.total := by
    rw [h.offs_append _ (Nat.le_refl _), h.offs_length]
  have hblock := hs.rep _ _ hcell
  rw [hoffs] at hblock
  obtain ⟨m, hfill, hout, hnew⟩ := fillStr_block hn hstr (by omega) hblock
  have hstrc : strCell (str.take n) = (Cell.new (strShape n)).putBytes (str.take n) := by
    unfold strCell
    rw [List.length_take, Nat.min_eq_left hstr]
  have hupd := hs.modify hcell (f := fun c => c.putBytes (str.take n)) (m := m) (fun _ => rfl)
    (by rw [hoffs]; exact hout) (by rw [hoffs, ← hstrc]; exact hnew)
    (hs.forward.modify_scal (fun _ => rfl) fun _ => rfl)
  rw [Heap.modify_last, ← hstrc] at hupd
  exact ⟨_, hfill, hupd⟩

/-- A string, and a pointer to it. -/
theorem Plain.Rel.putStr (hs : s.Rel h) (hc : h[i]? = some c) {a : Realloc} (ha : a.Total)
    {k x n len : Nat} {str : List UInt8} (hk : k < c.nelem) (hx : x < c.psize)
    (hlen : strLength str len = some n) (hstr : n ≤ str.length)
    (hn : n + 1 < 2 ^ 32 ∨ (n + 1) % 2 ^ 32 = 0 ∧ n + 1 < 2 ^ 64)
    (hfit : h.total + (strShape n).blockSize < 2 ^ 63) :
    ∃ b' rr, Nbuf.putStr a s.buf (getElem (c.obj (h.offs i + 8)) k) x str len = some (b', rr) ∧
      Plain.Rel ⟨b', s.objs ++ [rr]⟩ (Call.apply h (.putStr i k x str len)) := by
  obtain ⟨b1, hcreate, hrel⟩ := hs.create ha (ofFields_strShape s.buf.len n) hfit
  have happly := Call.apply_putStr h i k x hlen
  have hnelem : ((strShape n).obj (h.total + 8)).nelem = (n + 1) % 2 ^ 32 := rfl
  by_cases hzero : (n + 1) % 2 ^ 32 = 0
  · -- the count is cut to `0`: the object stays empty
    refine ⟨b1, (strShape n).obj (h.total + 8), ?_, ?_⟩
    · unfold Nbuf.putStr
      rw [hlen]
      simp only [Option.bind_eq_bind, Option.bind_some, hcreate, hnelem, if_pos hzero]
      rfl
    · rw [happly, if_pos hzero]
      exact hrel
  · have hsmall : n + 1 < 2 ^ 32 := by omega
    have hi : i < h.length := (List.getElem?_eq_some_iff.mp hc).1
    obtain ⟨b2, hfill, hrel2⟩ := hrel.fillStr hsmall hstr
    have hci : (h ++ [strCell (str.take n)])[i]? = some c := by
      rw [List.getElem?_append_left hi, hc]
    have hcell := strCell_take_toShape hstr
    have htot : (h ++ [strCell (str.take n)]).total < 2 ^ 63 := by
      rw [Heap.total_append, Heap.total_singleton, hcell]
      exact hfit
    obtain ⟨b3, hput, hrel3⟩ := hrel2.putPtr hci htot (t := h.length)
      List.getElem?_concat_length hk hx hi
    rw [h.offs_append _ (Nat.le_of_lt hi), h.offs_append _ (Nat.le_refl _), h.offs_length,
      hcell] at hput
    refine ⟨b3, (strShape n).obj (h.total + 8), ?_, ?_⟩
    · have hassert : ((strShape n).obj (h.total + 8)).nelem = sizeT (n + 1) := by
        rw [sizeT_of_lt (by omega)]
        exact Nat.mod_eq_of_lt hsmall
      unfold Nbuf.putStr
      rw [hlen]
      simp only [Option.bind_eq_bind, Option.bind_some, hcreate]
      rw [if_neg (by rw [hnelem]; exact hzero), assertC_pos hassert, Option.bind_some, hfill,
        Option.bind_some]
      dsimp only at hput
      rw [hput]
      rfl
    · rw [happly, if_neg hzero]
      exact hrel3

/-! ## Runs -/

/-- **One call** of the plain writer does what it does to the heap. -/
theorem Plain.Rel.step (hs : s.Rel h) {alloc : Nat → Realloc} (ha : ∀ n, (alloc n).Total)
    {call : Call} (hok : call.Ok h) (hfit : (call.apply h).total < 2 ^ 63) :
    ∃ s', s.step alloc call = some s' ∧ s'.Rel (call.apply h) := by
  have htot : h.total < 2 ^ 63 := Nat.lt_of_le_of_lt (call.total_le_apply h) hfit
  cases call with
  | create sh =>
      have hfit' : h.total + sh.blockSize < 2 ^ 63 := by
        have hsum : (Call.apply h (.create sh)).total = h.total + sh.blockSize := by
          show Heap.total (h ++ _) = _
          rw [Heap.total_append, Heap.total_singleton]
          rfl
        omega
      obtain ⟨b', hcreate, hrel⟩ :=
        hs.create (ha s.objs.length) (sh.ofFields_eq s.buf.len) hfit'
      exact ⟨_, by simp [Plain.step, hcreate], hrel⟩
  | putInt i k off sz v =>
      obtain ⟨⟨c, hc, hk, hsz, hpos, hdvd, -⟩, hwrap⟩ := hok
      obtain ⟨b', hput, hrel⟩ := hs.putInt hc htot hk hsz hpos hdvd hwrap v
      exact ⟨_, by simp [Plain.step, hs.obj hc, hput], hrel⟩
  | putBit i k off v =>
      obtain ⟨⟨c, hc, hk, -⟩, -⟩ := hok
      obtain ⟨b', hput, hrel⟩ := hs.putBit hc htot hk v
      exact ⟨_, by simp [Plain.step, hs.obj hc, hput], hrel⟩
  | putPtr i k x t =>
      obtain ⟨⟨c, hc, hk, hx, hit, ht⟩, -⟩ := hok
      have hct : h[t]? = some h[t] := List.getElem?_eq_getElem ht
      obtain ⟨b', hput, hrel⟩ := hs.putPtr hc htot hct hk hx hit
      exact ⟨_, by simp [Plain.step, hs.obj hc, hs.obj hct, hput], hrel⟩
  | putStr i k x str len =>
      obtain ⟨⟨c, hc, hk, hx, n, hlen, hstr, hn⟩, -⟩ := hok
      rw [Call.total_apply_putStr h hlen hstr] at hfit
      obtain ⟨b', rr, hput, hrel⟩ := hs.putStr hc (ha s.objs.length) hk hx hlen hstr hn hfit
      exact ⟨_, by simp [Plain.step, hs.obj hc, hput], hrel⟩

/-- **A run of the plain writer** does what it does to the heap. -/
theorem Plain.Rel.run (hs : s.Rel h) {alloc : Nat → Realloc} (ha : ∀ n, (alloc n).Total)
    {calls : List Call} (hok : AllSteps Call.step Call.Ok h calls) {h' : Heap}
    (hrun : Run.run Call.step h calls = some h') (hfit : h'.total < 2 ^ 63) :
    ∃ s', Run.run (Plain.step alloc) s calls = some s' ∧ s'.Rel h' := by
  induction calls generalizing s h with
  | nil =>
      cases hrun
      exact ⟨s, rfl, hs⟩
  | cons call calls ih =>
      have hrest : Run.run Call.step (call.apply h) calls = some h' := hrun
      have htot := Call.total_le_run hrest
      obtain ⟨s1, hs1, hrel1⟩ := hs.step ha hok.1 (by omega)
      obtain ⟨s', hs', hrel'⟩ := ih hrel1 (hok.2 _ rfl) hrest
      exact ⟨s', by rw [run_cons_of_eq hs1, hs'], hrel'⟩

end

theorem Plain.Rel.holds {s : Plain} {h : Heap} (hs : s.Rel h) (hfit : h.total < 2 ^ 63) :
    h.Holds s.buf := ⟨hs.len_eq, by rw [hs.len_eq]; exact hfit, hs.rep, hs.forward⟩

/-- **The plain writer** leaves the objects that the calls build. -/
theorem plain_run {alloc : Nat → Realloc} (ha : ∀ n, (alloc n).Total) {b : Buffer}
    (h0 : b.len = 0) (hcap : b.cap < 2 ^ 64) {calls : List Call}
    (hok : AllSteps Call.step Call.Ok [] calls) (hfit : (build calls).total < 2 ^ 63) :
    ∃ s, Run.run (Plain.step alloc) ⟨b, []⟩ calls = some s ∧ s.Rel (build calls) :=
  (Plain.rel_init h0 hcap).run ha hok (run_step_eq [] calls) hfit

end Nbuf
