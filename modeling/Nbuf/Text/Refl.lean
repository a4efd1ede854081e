import Nbuf.Text.Print
import Nbuf.Wire.BuilderHeap

set_option autoImplicit false

/-! # Field references on a builder (`include/libnbuf.h`, `lib/refl.c`)

The parser fills a message in through references to its fields. `nbuf_ref_init_ptr` makes the
object of a list or submessage when there is none yet, and otherwise adds one element to the list.
-/

namespace Nbuf

open Run ByteMem

/-! ## References -/

/-- `_nbuf_get_size`: the `ssize` and `psize` of the elements of a field. -/
def getSize (schema : Schema) (kind : Kind) (tag1 : Nat) : Nat × Nat :=
  match kind with
  | .enum => (2, 0)
  | .bool | .int | .uint | .float => (tag1 % 2 ^ 16, 0)
  | .str => (0, 1)
  | .ptr => ((schema.msgType tag1).ssize, (schema.msgType tag1).psize)

/-- `nbuf_ref_init_ptr` for a field that has an object: its list gets one more element. -/
def Pool.appendElem (a : Realloc) (p : Pool) (i : Nat) (ref : Ref) : Option (Pool × Nat × Ref) := do
  assertC (ref.list = true)
  let (j, list) ← p.getPtr i ref.o ref.tag0
  let n := list.nelem
  let b ← p.getbuffer j
  let (b, list) ← resize a b list (n + 1)
  pure (p.setBuf j b, j, { ref with
    o := getElem list n
    tag0 := if ref.kind = .bool then n % 8 else 0
    list := false })

/-- `nbuf_ref_init_ptr` for a field without an object: one is created with one element. A handle
without a buffer, which `create` returns when there is no memory, cannot be put. -/
def Pool.createElem (a : Realloc) (schema : Schema) (p : Pool) (i : Nat) (ref : Ref) :
    Option (Pool × Nat × Ref) := do
  assertC (ref.list = true ∨ ref.kind = .ptr)
  let size := getSize schema ref.kind ref.tag1
  let (p', list) ← p.create a 1 size.1 size.2
  assertC (p'.buffercount = p.buffercount + 1)
  let p'' ← p'.putPtr i ref.o ref.tag0 p.buffercount
  pure (p'', p.buffercount, { ref with o := list, tag0 := 0, list := false })

/-- `nbuf_ref_init_ptr` on a reference into buffer `i`, with the buffer of the new reference. -/
def Pool.refInitPtr (a : Realloc) (schema : Schema) (p : Pool) (i : Nat) (ref : Ref) :
    Option (Pool × Nat × Ref) := do
  let b ← p.getbuffer i
  let has ← hasPtr b ref.o ref.tag0
  if has = true then p.appendElem a i ref else p.createElem a schema i ref

/-- `nbuf_get_ref`, and `nbuf_ref_init_ptr` when the field is a list or a submessage. -/
def Pool.fieldRef (a : Realloc) (schema : Schema) (p : Pool) (i : Nat) (o : Obj) (f : FieldDesc) :
    Option (Pool × Nat × Ref) :=
  let ref := getRef o f
  if ref.list = true ∨ ref.kind = .ptr then p.refInitPtr a schema i ref else some (p, i, ref)

/-- A put in one buffer of a pool. -/
def Pool.onBuf (p : Pool) (i : Nat) (put : Buffer → Option Buffer) : Option Pool := do
  let b ← p.getbuffer i
  let b ← put b
  pure (p.setBuf i b)

/-- `nbuf_ref_put_int` -/
def refPutInt (b : Buffer) (ref : Ref) (v : Int) : Option Buffer := do
  assertC (ref.kind = .int ∨ ref.kind = .uint ∨ ref.kind = .enum)
  putInt b ref.o ref.tag0 ref.sz (toU64 v)

/-- `nbuf_ref_put_bit` -/
def refPutBit (b : Buffer) (ref : Ref) (v : Bool) : Option Buffer := do
  assertC (ref.kind = .bool)
  putBit b ref.o ref.tag0 v

/-- `nbuf_ref_put_float`. `bits` gives the number as a `float` (width 4) or `double` (width 8). -/
def refPutFloat (b : Buffer) (ref : Ref) (bits : Nat → Nat) : Option Buffer := do
  assertC (ref.kind = .float)
  assertC (ref.tag1 = 4 ∨ ref.tag1 = 8)
  putInt b ref.o ref.tag0 ref.tag1 (bits ref.tag1)

/-- `nbuf_ref_put_str` on a builder -/
def Pool.refPutStr (a : Realloc) (p : Pool) (i : Nat) (ref : Ref) (s : List UInt8) (len : Nat) :
    Option Pool := do
  assertC (ref.kind = .str)
  let (p, _) ← p.putStr a i ref.o ref.tag0 s len
  pure p

/-! ## What `nbuf_ref_init_ptr` does to the heap -/

section

variable {p : Pool} {h : Heap} {i k x : Nat} {c : Cell} {o : Obj}

/-- A handle of an element is as good as the one that `nbuf_get_elem` gives. -/
theorem Pool.getPtr_same {r r' : Obj} (hr : r.Same r') (p : Pool) (i x : Nat) :
    p.getPtr i r x = p.getPtr i r' x := by
  unfold Pool.getPtr
  rw [hr.psize, hr.slot]

theorem Pool.putPtr_same {r r' : Obj} (hr : r.Same r') (p : Pool) (i x t : Nat) :
    p.putPtr i r x t = p.putPtr i r' x t := by
  unfold Pool.putPtr
  rw [hr.slot]

theorem Pool.putStr_same {r r' : Obj} (hr : r.Same r') (p : Pool) (a : Realloc) (i x len : Nat)
    (s : List UInt8) : p.putStr a i r x s len = p.putStr a i r' x s len := by
  unfold Pool.putStr
  simp only [Pool.putPtr_same hr]

theorem putInt_same {r r' : Obj} (hr : r.Same r') (b : Buffer) (off sz v : Nat) :
    putInt b r off sz v = putInt b r' off sz v := by
  unfold putInt
  rw [hr.ssize, hr.base]

theorem putBit_same {r r' : Obj} (hr : r.Same r') (b : Buffer) (off : Nat) (v : Bool) :
    putBit b r off v = putBit b r' off v := by
  unfold putBit
  rw [hr.ssize, hr.base]

/-- A word is zero when it is read as zero. -/
theorem toU64_bmod_word {n : Nat} (hn : n < 256 ^ 4) :
    toU64 ((n : Int).bmod (256 ^ 4)) = 0 ↔ n = 0 := by
  have hmod : (n : Int) % ((256 ^ 4 : Nat) : Int) = n := by omega
  rw [toU64, Int.bmod_def, hmod]
  omega

/-- `nbuf_has_ptr` sees whether the slot leads to an object. -/
theorem Pool.Rep.hasPtr (hp : p.Rep h) (hc : h[i]? = some c) (hk : k < c.nelem) (hx : x < c.psize)
    (ho : o.Same (getElem c.handle k)) : ∃ b, p.getbuffer i = some b ∧
      Nbuf.hasPtr b o x = some (c.ptr (c.row k) x).isSome := by
  obtain ⟨b, hb, hbuf, hread⟩ := hp.readSlot hc hk hx
  refine ⟨b, hb, ?_⟩
  have hlt : c.idWord (c.row k) x < 256 ^ 4 := by
    rw [← hbuf.block.slot _ (Shape.row_lt_rows hk) x hx]
    exact load_lt _ _ _
  have hzero : c.idWord (c.row k) x = 0 ↔ (c.ptr (c.row k) x).isSome = false := by
    unfold Cell.idWord
    cases hptr : c.ptr (c.row k) x with
    | none => simp
    | some t =>
        have hit := (hp.forward i c hc _ (Shape.row_lt_rows hk) x hx t hptr).1
        simp only [Option.getD_some, Option.isSome_some, Bool.true_eq_false, iff_false]
        omega
  rw [ho.hasPtr]
  unfold Nbuf.hasPtr getRelPtr
  rw [getElem_psize hk, if_neg (by exact Nat.not_le.mpr hx), hread]
  simp only [Option.bind_eq_bind, Option.bind_some, Option.pure_def, Option.some.injEq]
  cases hs : (c.ptr (c.row k) x).isSome with
  | false => rw [(toU64_bmod_word hlt).mpr (hzero.mpr hs), bne_self_eq_false]
  | true =>
      rw [bne_iff_ne, ne_eq, toU64_bmod_word hlt, hzero, hs]
      exact Bool.noConfusion

/-- **The first element**: a new object, and a pointer to it. -/
theorem Pool.Rep.createElem (hp : p.Rep h) {a : Realloc} (ha : a.Total) {schema : Schema}
    {ref : Ref} (hc : h[i]? = some c) (hk : k < c.nelem) (hx : ref.tag0 < c.psize)
    (ho : ref.o.Same (getElem c.handle k)) (hkind : ref.list = true ∨ ref.kind = .ptr)
    {sh : Shape} (hn : sh.nelem = 1) (hsize : getSize schema ref.kind ref.tag1 = (sh.ssize, sh.psize))
    (hcount : h.length + 1 < 2 ^ 32) :
    ∃ p', p.createElem a schema i ref = some (p', h.length,
        { ref with o := (Cell.new sh).handle, tag0 := 0, list := false }) ∧
      p'.addr = p.addr ∧
      p'.Rep ((h ++ [Cell.new sh]).modify i fun c => c.putPtr (c.row k) ref.tag0 h.length) := by
  have hofs : ∀ base, Obj.ofFields base 1 sh.ssize sh.psize = sh.obj base := by
    intro base
    rw [← hn]
    exact sh.ofFields_eq base
  obtain ⟨b, hcreate, -, hrel⟩ := hp.create ha hofs (Nat.lt_of_succ_lt hcount)
  have hi : i < h.length := (List.getElem?_eq_some_iff.mp hc).1
  have hci : (h ++ [Cell.new sh])[i]? = some c := by
    rw [List.getElem?_append_left hi, hc]
  obtain ⟨p', hput, haddr, hrel'⟩ := hrel.putPtr hci hk hx hi
    (show h.length < (h ++ [Cell.new sh]).length by simp) (by simp; omega)
  refine ⟨p', ?_, haddr, hrel'⟩
  have hcount' : p.buffercount = h.length := hp.length_eq
  unfold Pool.createElem
  simp only [assertC_pos hkind, hsize, Option.bind_eq_bind, Option.bind_some, hcreate]
  rw [assertC_pos (by simp [Pool.buffercount]), Option.bind_some, hcount',
    Pool.putPtr_same ho, hput]
  rfl

/-- **One more element** in a list. -/
theorem Pool.Rep.appendElem (hp : p.Rep h) {a : Realloc} (ha : a.Total) {ref : Ref}
    (hc : h[i]? = some c) (hk : k < c.nelem) (hx : ref.tag0 < c.psize)
    (ho : ref.o.Same (getElem c.handle k)) (hlist : ref.list = true) {t : Nat} {ct : Cell}
    (hptr : c.ptr (c.row k) ref.tag0 = some t) (hct : h[t]? = some ct) (ht : t < 2 ^ 31)
    (hn : ct.CanHave (ct.nelem + 1)) :
    ∃ p', p.appendElem a i ref = some (p', t, { ref with
        o := getElem (ct.setNelem (ct.nelem + 1)).handle ct.nelem
        tag0 := if ref.kind = .bool then ct.nelem % 8 else 0
        list := false }) ∧
      p'.addr = p.addr ∧ p'.Rep (h.modify t fun c => c.setNelem (ct.nelem + 1)) := by
  obtain ⟨b, b', hb, hres, hrel⟩ := hp.resize hct ha hn (Nat.le_succ _)
  have hget := hp.getPtr_some hc hk hx hptr hct
  rw [if_pos ht] at hget
  have hnelem : ct.handle.nelem = ct.nelem := rfl
  refine ⟨p.setBuf t b', ?_, rfl, hrel⟩
  unfold Pool.appendElem
  simp only [assertC_pos hlist, Option.bind_eq_bind, Option.bind_some, Pool.getPtr_same ho, hget,
    hnelem, hb, hres]
  rfl

end

end Nbuf
