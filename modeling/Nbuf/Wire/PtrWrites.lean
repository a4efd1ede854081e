import Nbuf.Wire.BuilderHeap

set_option autoImplicit false

/-! # Pointer writes out of range

A pointer is put through an ops table: `_nbuf_put_ptr` on a plain buffer, `put_ptr` on a builder.
The first drops a write to a slot that the handle does not have. The second writes it, and the slot
of an empty handle is at the start of the buffer, where a builder keeps the pool and the id of
the object.
-/

namespace Nbuf

open ByteMem

/-! ## Write buffers -/

/-- A buffer that is written: a plain one, or a builder. -/
inductive WriteBuffer where
  | plain (b : Buffer)
  | builder (p : Pool)

/-- A handle. In a builder it also tells the buffer it points into. -/
structure Handle where
  buf : Nat
  obj : Obj

/-- `nbuf_create` -/
def nbufCreate (a : Realloc) (nelem ssize psize : Nat) :
    WriteBuffer → Option (WriteBuffer × Handle)
  | .plain b => (create a b nelem ssize psize).map fun (b, o) => (.plain b, ⟨0, o⟩)
  | .builder p => (p.create a nelem ssize psize).map fun (q, o) => (.builder q, ⟨p.buffercount, o⟩)

/-- `nbuf_put_ptr` -/
def nbufPutPtr (r : Handle) (x : Nat) (v : Handle) : WriteBuffer → Option WriteBuffer
  | .plain b => (putPtr b r.obj x v.obj).map .plain
  | .builder p => (p.putPtr r.buf r.obj x v.buf).map .builder

/-- `nbuf_put_str` -/
def nbufPutStr (a : Realloc) (r : Handle) (x : Nat) (s : List UInt8) (len : Nat) :
    WriteBuffer → Option WriteBuffer
  | .plain b => (putStr a b r.obj x s len).map fun (b, _) => .plain b
  | .builder p => (p.putStr a r.buf r.obj x s len).map fun (p, _) => .builder p

/-- A call that writes a pointer: `nbuf_put_ptr`, `nbuf_put_str` (all that a generated setter
of a string does), or a generated initer, which creates an object and puts a pointer to it. -/
inductive PtrWrite where
  | putPtr (v : Handle)
  | putStr (s : List UInt8) (len : Nat)
  | init (sh : Shape)

/-- The call on slot `x` of the handle `r`. -/
def PtrWrite.run (a : Realloc) (w : WriteBuffer) (r : Handle) (x : Nat) :
    PtrWrite → Option WriteBuffer
  | putPtr v => nbufPutPtr r x v w
  | putStr s len => nbufPutStr a r x s len w
  | init sh => do
      let (w, oo) ← nbufCreate a sh.nelem sh.ssize sh.psize w
      nbufPutPtr r x oo w

/-! ## What is promised -/

/-- A plain buffer as the writer keeps it, or a builder that holds objects. -/
def WriteBuffer.Good : WriteBuffer → Prop
  | plain b => b.len ≤ b.cap ∧ b.cap < 2 ^ 64 ∧ 8 ∣ b.len ∧ b.len < 2 ^ 62
  | builder p => ∃ h : Heap, p.Rep h ∧ h.length + 1 < 2 ^ 32

/-- The buffer of the handle exists. -/
def WriteBuffer.Has (r : Handle) : WriteBuffer → Prop
  | plain _ => True
  | builder p => r.buf < p.bufs.length

/-- The target of the pointer exists, and the block of a string is long enough. -/
def PtrWrite.Ok (w : WriteBuffer) : PtrWrite → Prop
  | putPtr v => w.Has v
  | putStr s len => ∃ n, strLength s len = some n ∧ n ≤ s.length ∧
      (n + 1 < 2 ^ 32 ∨ (n + 1) % 2 ^ 32 = 0 ∧ n + 1 < 2 ^ 64)
  | init _ => True

/-- No byte of an object changes, and at most one new object is added, without pointers. In a builder
every buffer is as it was, with its metadata. -/
def WriteBuffer.Keeps : WriteBuffer → WriteBuffer → Prop
  | plain b, plain b' => (∀ k, k < b.len → b'.mem k = b.mem k) ∧
      (b'.len = b.len ∨ ∃ c : Cell, Block b'.mem b.len c (fun _ _ => 0) ∧
        b'.len = b.len + c.blockSize)
  | builder p, builder p' => p'.addr = p.addr ∧
      ∃ new : List Buffer, new.length ≤ 1 ∧ p'.bufs = p.bufs ++ new
  | _, _ => False

/-- The id that the call puts in a builder. A length whose count is cut to `0` puts none. -/
def PtrWrite.id (p : Pool) : PtrWrite → Option Nat
  | putPtr v => some v.buf
  | putStr s len =>
      if ((strLength s len).getD 0 + 1) % 2 ^ 32 = 0 then none else some p.buffercount
  | init _ => some p.buffercount

/-- The word at position `k` of buffer `i` lies in the buffer and is `v`. -/
def Pool.WordIs (p : Pool) (i k v : Nat) : Prop :=
  ∃ b, p.bufs[i]? = some b ∧ k + 4 ≤ b.len ∧ b.mem.load k 4 = v

/-- The buffer is plain, or the word at the place of the slot is already the id that is put. -/
def WriteBuffer.Spared (r : Handle) (x : Nat) (op : PtrWrite) : WriteBuffer → Prop
  | plain _ => True
  | builder p => ∀ id, op.id p = some id → p.WordIs r.buf (r.obj.slot x) id

/-! ## Plain buffers -/

theorem putPtr_of_ge {b : Buffer} {r : Obj} {x : Nat} (hx : r.psize ≤ x) (v : Obj) :
    putPtr b r x v = some b := if_pos hx

/-- **A plain buffer drops the pointer.** -/
theorem plain_keeps {a : Realloc} (ha : a.Total) {b : Buffer} (hb : (WriteBuffer.plain b).Good)
    {r : Handle} {x : Nat} (hx : r.obj.psize ≤ x) {op : PtrWrite} (hop : op.Ok (.plain b)) :
    ∃ w', op.run a (.plain b) r x = some w' ∧ (WriteBuffer.plain b).Keeps w' := by
  obtain ⟨hlen, hcap, h8, hlt⟩ := hb
  cases op with
  | putPtr v =>
      refine ⟨.plain b, ?_, fun _ _ => rfl, Or.inl rfl⟩
      show (putPtr b r.obj x v.obj).map WriteBuffer.plain = _
      rw [putPtr_of_ge hx]
      rfl
  | putStr s len =>
      obtain ⟨n, hn, hs, hcount⟩ := hop
      have hblk := (strShape n).blockSize_lt
      obtain ⟨b1, hcreate, hlen1, -, -, hmem1, hblock1⟩ :=
        create_spec ha (ofFields_strShape b.len n) hlen hcap h8 (by omega)
      by_cases hzero : (n + 1) % 2 ^ 32 = 0
      · refine ⟨.plain b1, ?_, hmem1, Or.inr ⟨_, hblock1, hlen1⟩⟩
        have hnelem : ((strShape n).obj (b.len + 8)).nelem = 0 := hzero
        show (putStr a b r.obj x s len).map _ = _
        unfold putStr
        rw [hn]
        simp only [Option.bind_eq_bind, Option.bind_some, hcreate]
        rw [if_pos hnelem]
        rfl
      · have hsmall : n + 1 < 2 ^ 32 := by omega
        obtain ⟨m, hfill, hout, hblock⟩ :=
          fillStr_block hsmall hs (Nat.le_of_eq hlen1.symm) hblock1
        have hnelem : ((strShape n).obj (b.len + 8)).nelem = n + 1 := Nat.mod_eq_of_lt hsmall
        have hblk' : (strCell (s.take n)).blockSize = (strShape n).blockSize := by
          rw [strCell_take_toShape hs]
        refine ⟨.plain { b1 with mem := m }, ?_, fun k hk => ?_, Or.inr ⟨_, hblock, ?_⟩⟩
        · show (putStr a b r.obj x s len).map _ = _
          unfold putStr
          rw [hn]
          simp only [Option.bind_eq_bind, Option.bind_some, hcreate]
          rw [if_neg (by omega), assertC_pos (by rw [hnelem, sizeT_of_lt (by omega)])]
          simp only [Option.bind_some, hfill, putPtr_of_ge hx]
          rfl
        · exact (hout k (Or.inl hk)).trans (hmem1 k hk)
        · rw [hblk']
          exact hlen1
  | init sh =>
      have hblk := sh.blockSize_lt
      obtain ⟨b1, hcreate, hlen1, -, -, hmem1, hblock1⟩ :=
        create_spec ha (sh.ofFields_eq b.len) hlen hcap h8 (by omega)
      refine ⟨.plain b1, ?_, hmem1, Or.inr ⟨_, hblock1, hlen1⟩⟩
      unfold PtrWrite.run nbufCreate
      simp only [hcreate, Option.map_some, Option.bind_eq_bind, Option.bind_some]
      show (putPtr b1 r.obj x _).map WriteBuffer.plain = _
      rw [putPtr_of_ge hx]
      rfl

/-! ## Builders -/

/-- The checked write of a word. -/
theorem writeIntSafe_eq_some_iff {b b' : Buffer} {k v : Nat} (hlen : b.len < 2 ^ 63) :
    writeIntSafe b k 4 v = some b' ↔ k + 4 ≤ b.len ∧ b' = { b with mem := b.mem.store k 4 v } := by
  constructor
  · intro h
    have hin : k + 4 ≤ b.len := by
      rw [writeIntSafe, assertC_bind_eq_some] at h
      exact (boundsCheck_of_len_lt hlen (by decide)).mp h.1
    rw [writeIntSafe_of_le v rfl hin (by omega), Option.some.injEq] at h
    exact ⟨hin, h.symm⟩
  · rintro ⟨hin, rfl⟩
    exact writeIntSafe_of_le v rfl hin (by omega)

/-- `put_ptr` writes the id wherever the slot is. -/
theorem Pool.Rep.putPtr_eq {p : Pool} {h : Heap} (hp : p.Rep h) {i t : Nat} (ht : t < h.length)
    {b : Buffer} {c : Cell} (hb : p.bufs[i]? = some b) (hbuf : ObjBuf p.addr i b c) (r : Obj) (x : Nat) :
    p.putPtr i r x t = (writeIntSafe b (r.slot x) 4 t).map (p.setBuf i) := by
  obtain ⟨bt, hbt, hbuft⟩ := hp.obj t _ (List.getElem?_eq_getElem ht)
  unfold Pool.putPtr Pool.getbuffer
  simp only [hb, hbt, Option.bind_eq_bind, Option.bind_some, hbuf.metaPool_eq, hbuft.metaPool_eq,
    hbuft.metaId_eq, assertC_pos, Pool.buffercount, hp.length_eq, ht]
  cases writeIntSafe b (r.slot x) 4 t <;> rfl

/-- **`put_ptr` out of range** leaves a builder alone exactly when the id is already there. The
pool `q` may have got a new object before. -/
theorem Pool.Rep.putPtr_keeps_iff {q : Pool} {h : Heap} (hq : q.Rep h) (p : Pool)
    {new : List Buffer} (hnew : new.length ≤ 1) (haddr : q.addr = p.addr) (hbufs : q.bufs = p.bufs ++ new) {i t : Nat}
    (hi : i < p.bufs.length) (ht : t < h.length) (hcount : h.length < 2 ^ 32) (r : Obj) (x : Nat) :
    (∃ w', (q.putPtr i r x t).map WriteBuffer.builder = some w' ∧
      (WriteBuffer.builder p).Keeps w') ↔ p.WordIs i (r.slot x) t := by
  have hlen : i < h.length := by
    have := hq.length_eq
    rw [hbufs, List.length_append] at this
    omega
  obtain ⟨b, hb, hbuf⟩ := hq.obj i _ (List.getElem?_eq_getElem hlen)
  have hb' : p.bufs[i]? = some b := by
    rwa [hbufs, List.getElem?_append_left hi] at hb
  rw [hq.putPtr_eq ht hb hbuf, Option.map_map]
  constructor
  · rintro ⟨w', hput, hkeeps⟩
    obtain ⟨b1, hb1, rfl⟩ := Option.map_eq_some_iff.mp hput
    obtain ⟨hin, rfl⟩ := (writeIntSafe_eq_some_iff hbuf.len_lt).mp hb1
    obtain ⟨-, new', -, hset⟩ := hkeeps
    -- the buffer of the handle is among those that are kept
    have hset' : q.bufs.set i { b with mem := b.mem.store (r.slot x) 4 t } = p.bufs ++ new' := hset
    have hget : (q.bufs.set i _)[i]? = (p.bufs ++ new')[i]? := congrArg (fun l => l[i]?) hset'
    rw [List.getElem?_set_self (List.getElem?_eq_some_iff.mp hb).1, List.getElem?_append_left hi, hb',
      Option.some.injEq] at hget
    refine ⟨b, hb', hin, ?_⟩
    calc b.mem.load (r.slot x) 4 = (b.mem.store (r.slot x) 4 t).load (r.slot x) 4 := by
          have hmem : b.mem.store (r.slot x) 4 t = b.mem := congrArg Buffer.mem hget
          rw [hmem]
      _ = t % 256 ^ 4 := load_store _ _ _ _
      _ = t := Nat.mod_eq_of_lt (by omega)
  · rintro ⟨b0, hb0, hin, hword⟩
    obtain rfl : b0 = b := Option.some.inj (hb0.symm.trans hb')
    have hsame : b0.mem.store (r.slot x) 4 t = b0.mem := by
      rw [← hword]
      exact store_load _ _ _
    refine ⟨.builder (q.setBuf i b0), ?_, haddr, new, hnew, ?_⟩
    · rw [(writeIntSafe_eq_some_iff hbuf.len_lt).mpr ⟨hin, rfl⟩, hsame]
      rfl
    · show q.bufs.set i b0 = p.bufs ++ new
      obtain ⟨hin', hget⟩ := List.getElem?_eq_some_iff.mp hb
      rw [← hbufs, ← hget]
      exact List.set_getElem_self hin'

/-- **Pointer writes out of range.** On every plain buffer and every builder, a pointer write through
a handle without the slot leaves every object alone if and only if the buffer is plain or the word
at the place of the slot is already the id that is put. -/
theorem outOfRange_keeps_iff {a : Realloc} (ha : a.Total) {w : WriteBuffer} (hw : w.Good)
    {r : Handle} (hr : w.Has r) {x : Nat} (hx : r.obj.psize ≤ x) {op : PtrWrite} (hop : op.Ok w) :
    (∃ w', op.run a w r x = some w' ∧ w.Keeps w') ↔ w.Spared r x op := by
  cases w with
  | plain b => exact iff_of_true (plain_keeps ha hw hx hop) trivial
  | builder p =>
      obtain ⟨h, hp, hcount⟩ := hw
      have hlen : p.bufs.length = h.length := hp.length_eq
      have hnew : ∀ c : Cell, h.length < (h ++ [c]).length := fun c => by simp
      have hsucc : ∀ c : Cell, (h ++ [c]).length < 2 ^ 32 := fun c => by simpa using hcount
      cases op with
      | putPtr v =>
          have ht : v.buf < h.length := hlen ▸ (show v.buf < p.bufs.length from hop)
          have hiff := hp.putPtr_keeps_iff p (Nat.zero_le _) rfl (List.append_nil _).symm hr ht
            (by omega) r.obj x
          exact hiff.trans ⟨fun hword id hid => by cases hid; exact hword, fun hall => hall _ rfl⟩
      | putStr s len =>
          obtain ⟨n, hn, hs, hsize⟩ := hop
          have hid : (PtrWrite.putStr s len).id p
              = if (n + 1) % 2 ^ 32 = 0 then none else some p.buffercount := by
            simp only [PtrWrite.id, hn, Option.getD_some]
          by_cases hzero : (n + 1) % 2 ^ 32 = 0
          · obtain ⟨b, hput, -⟩ := hp.putStr_empty ha hn hzero (by omega)
            refine iff_of_true ⟨.builder { p with bufs := p.bufs ++ [b] }, ?_, rfl, [b],
              Nat.le_refl _, rfl⟩ fun id hid' => ?_
            · show (p.putStr a r.buf r.obj x s len).map _ = _
              rw [hput]
              rfl
            · rw [hid, if_pos hzero] at hid'
              cases hid'
          · obtain ⟨b, hrel, hput⟩ := hp.putStr_eq ha hn hs (by omega) (by omega)
            have hiff := hrel.putPtr_keeps_iff p (Nat.le_refl [b].length) rfl rfl hr (hnew _) (hsucc _)
              r.obj x
            have hrun : (PtrWrite.putStr s len).run a (.builder p) r x
                = (Pool.putPtr { p with bufs := p.bufs ++ [b] } r.buf r.obj x h.length).map
                    WriteBuffer.builder := by
              show (p.putStr a r.buf r.obj x s len).map _ = _
              rw [hput, Option.map_map]
              rfl
            rw [hrun, hiff]
            rw [if_neg hzero] at hid
            constructor
            · intro hword id hid'
              rw [hid, Option.some.injEq] at hid'
              rwa [← hid', Pool.buffercount, hlen]
            · intro hall
              have := hall _ hid
              rwa [Pool.buffercount, hlen] at this
      | init sh =>
          obtain ⟨b, hcreate, -, hrel⟩ := hp.create ha sh.ofFields_eq (by omega)
          have hiff := hrel.putPtr_keeps_iff p (Nat.le_refl [b].length) rfl rfl hr (hnew _) (hsucc _)
            r.obj x
          have hrun : (PtrWrite.init sh).run a (.builder p) r x
              = (Pool.putPtr { p with bufs := p.bufs ++ [b] } r.buf r.obj x h.length).map
                  WriteBuffer.builder := by
            unfold PtrWrite.run nbufCreate
            simp only [hcreate, Option.map_some, Option.bind_eq_bind, Option.bind_some,
              Pool.buffercount, hlen]
            rfl
          rw [hrun, hiff]
          constructor
          · intro hword id hid
            cases hid
            rwa [Pool.buffercount, hlen]
          · intro hall
            have := hall _ rfl
            rwa [Pool.buffercount, hlen] at this

/-- A vector of one message with a pointer, and a number. -/
def twoObjects : List Edit :=
  [.call (.create (.ofCounts 1 0 1 (Eq.refl true))),
    .call (.create (.ofCounts 1 8 0 (Eq.refl true)))]

/-- A builder at the address `4096` with these objects. -/
def twoObjectsPool : Option Pool :=
  (Run.run (Build.step granting) ⟨initBuilder 4096 (by decide), [], 0⟩ twoObjects).map Build.pool

/-- What `nbuf_get_elem` returns for element `3` of the vector. -/
def beyondHandle : Handle := ⟨0, getElem (Obj.ofFields 24 1 0 1) 3⟩

theorem twoObjects_spared_iff : ∃ p, twoObjectsPool = some p ∧
    ((∃ w', (PtrWrite.putPtr ⟨1, Obj.null⟩).run (granting 0) (.builder p) beyondHandle 0 = some w' ∧
      (WriteBuffer.builder p).Keeps w') ↔ p.WordIs 0 0 1) := by
  have halloc : ∀ n, Realloc.Total (granting n) := fun _ _ => rfl
  obtain ⟨s, hs, hrel⟩ := (Build.rel_init 4096 (by decide)).run halloc
    (show Run.AllSteps Edit.step Edit.Ok [] twoObjects by decide) (run_edits_eq [] twoObjects)
    (by decide)
  have hlen : s.pool.bufs.length = 2 := hrel.rep.length_eq
  have hgood : (WriteBuffer.builder s.pool).Good := ⟨_, hrel.rep, by decide⟩
  have hiff := outOfRange_keeps_iff (halloc 0) hgood
    (show (WriteBuffer.builder s.pool).Has beyondHandle by show 0 < s.pool.bufs.length; omega)
    (show beyondHandle.obj.psize ≤ 0 by decide)
    (show (PtrWrite.putPtr ⟨1, Obj.null⟩).Ok (.builder s.pool) by
      show 1 < s.pool.bufs.length; omega)
  refine ⟨s.pool, ?_, hiff.trans ⟨fun hall => hall 1 rfl, fun hword id hid => ?_⟩⟩
  · unfold twoObjectsPool
    rw [hs]
    rfl
  · cases hid
    exact hword

/-- **An empty handle destroys the metadata of a builder**: the pointer to the pool at the start of
the buffer is overwritten with the id. -/
theorem emptyHandle_overwrites : ∃ p w', twoObjectsPool = some p ∧
    (PtrWrite.putPtr ⟨1, Obj.null⟩).run (granting 0) (.builder p) beyondHandle 0 = some w' ∧
    ¬ (WriteBuffer.builder p).Keeps w' := by
  have hpool : (twoObjectsPool.bind fun p => p.bufs[0]?.bind metaPool) = some 4096 := by
    decide +kernel
  have hput : (twoObjectsPool.bind fun p => (p.putPtr 0 beyondHandle.obj 0 1).bind fun q =>
      q.bufs[0]?.bind metaPool) = some 1 := by decide +kernel
  obtain ⟨p, hp, hp0⟩ := Option.bind_eq_some_iff.mp hpool
  rw [hp, Option.bind_some] at hput
  obtain ⟨q, hq, hq0⟩ := Option.bind_eq_some_iff.mp hput
  obtain ⟨b, hb, hb0⟩ := Option.bind_eq_some_iff.mp hp0
  refine ⟨p, .builder q, hp, ?_, ?_⟩
  · show (p.putPtr 0 beyondHandle.obj 0 1).map WriteBuffer.builder = _
    rw [hq]
    rfl
  · rintro ⟨-, new, -, hbufs⟩
    rw [hbufs, List.getElem?_append_left (List.getElem?_eq_some_iff.mp hb).1, hb,
      Option.bind_some, hb0] at hq0
    cases hq0

end Nbuf
