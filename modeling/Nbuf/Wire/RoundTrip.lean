import Nbuf.Wire.PlainReader
import Nbuf.Wire.PlainWriter

set_option autoImplicit false

/-! # Decode undoes encode

A message is a tree of vectors, bit vectors and strings. Calls that build the tree, in any order
that creates a parent before its children, leave a buffer in which the reader finds the tree.
-/

namespace Nbuf

open Run ByteMem

/-! ## Trees -/

/-- A message tree: `vec` is a vector of `nelem` elements with the scalar bytes and the children of
each, `bits` a vector of bits, `str` a byte string and `null` an empty slot. -/
inductive Tree where
  | null
  | vec (nelem ssize psize : Nat) (scal : Nat → ByteMem) (kids : Nat → Nat → Tree)
  | bits (nelem : Nat) (bit : Nat → Bool)
  | str (s : List UInt8)

/-- A string in slot `x` of `r`, read with `nbuf_get_str`. -/
def ReadsStr (b : Buffer) (r : Obj) (x : Nat) (s : List UInt8) : Prop :=
  ∃ ref, getStr b r x = some ref ∧ ref.len = s.length ∧ ref.bytes b = some s

/-- The getters find the tree behind the handle `r`: its counts, all numbers of every valid width
and offset, all bits, and in every slot the child, a string also with `nbuf_get_str`. -/
def Tree.Reads (b : Buffer) : Tree → Obj → Prop
  | null, r => r = Obj.null
  | vec nelem ssize psize scal kids, r =>
      r.nelem = nelem ∧ r.ssize = ssize ∧ r.psize = psize ∧ ∀ k, k < nelem →
        (∀ off sz, scalarSize sz = true → sz ∣ off → off + sz ≤ ssize →
          getInt b (getElem r k) off sz = some (((scal k).load off sz : Int).bmod (256 ^ sz))) ∧
        (∀ off, off / 8 < ssize →
          getBit b (getElem r k) off = some ((scal k).bit (off / 8) (off % 8))) ∧
        ∀ x, x < psize → (∃ r', getPtr b (getElem r k) x = some r' ∧ (kids k x).Reads b r') ∧
          ∀ s, kids k x = str s → ReadsStr b (getElem r k) x s
  | bits nelem bit, r =>
      r.nelem = nelem ∧ r.ssize = 0 ∧ r.psize = 0 ∧
        ∀ k, k < nelem → getBit b (getElem r k) (k % 8) = some (bit k)
  | str s, r => r.nelem = s.length + 1 ∧ r.ssize = 1 ∧ r.psize = 0

/-- The objects from `o` on are the tree. -/
def Heap.Denotes (h : Heap) : Tree → Option Nat → Prop
  | .null, o => o = none
  | .vec nelem ssize psize scal kids, o => ∃ i c, o = some i ∧ h[i]? = some c ∧ 1 ≤ nelem ∧
      ¬ (ssize = 0 ∧ psize = 0) ∧ c.nelem = nelem ∧ c.ssize = ssize ∧ c.psize = psize ∧
        ∀ k, k < nelem → (∀ j, j < ssize → c.scal k j = scal k j) ∧
          ∀ x, x < psize → h.Denotes (kids k x) (c.ptr k x)
  | .bits nelem bit, o => ∃ i c, o = some i ∧ h[i]? = some c ∧ 1 ≤ nelem ∧ c.nelem = nelem ∧
      c.ssize = 0 ∧ c.psize = 0 ∧ ∀ k, k < nelem → (c.scal (k / 8)).bit 0 (k % 8) = bit k
  | .str s, o => ∃ i c, o = some i ∧ h[i]? = some c ∧ c.nelem = s.length + 1 ∧ c.ssize = 1 ∧
      c.psize = 0 ∧ ∀ j, j < s.length → c.scal j 0 = s.getD j 0

/-! ## Reading a tree back -/

section

variable {h : Heap} {b : Buffer}

/-- With less than `2 ^ 33` bytes in all, every pointer is short enough. -/
theorem Heap.Holds.near (hb : h.Holds b) (htot : h.total ≤ 2 ^ 33) {i : Nat} {c : Cell}
    (hc : h[i]? = some c) {row x : Nat} (hrow : row < c.rows) (hx : x < c.psize) {t : Nat}
    (ht : c.ptr row x = some t) : h.offs t < h.slotPos i c row x + 2 ^ 33 := by
  have hlt := (hb.forward i c hc row hrow x hx t ht).2
  have hend := Heap.offs_add_le_total (List.getElem?_eq_getElem hlt)
  have hle := (h[t]).le_blockSize
  omega

/-- Every pointer is short enough for its word. -/
def Heap.Near (h : Heap) : Prop :=
  ∀ (i : Nat) (c : Cell), h[i]? = some c → ∀ row, row < c.rows → ∀ x, x < c.psize →
    ∀ t, c.ptr row x = some t → h.offs t < h.slotPos i c row x + 2 ^ 33

theorem Heap.Holds.allNear (hb : h.Holds b) (htot : h.total ≤ 2 ^ 33) : h.Near :=
  fun _ _ hc _ hrow _ hx _ ht => hb.near htot hc hrow hx ht

theorem Heap.Denotes.readsStr (hb : h.Holds b) (htot : h.total ≤ 2 ^ 33) {i : Nat} {c : Cell}
    (hc : h[i]? = some c) {k x : Nat} (hk : k < c.nelem) (hx : x < c.psize) {s : List UInt8}
    (hs : h.Denotes (.str s) (c.ptr (c.row k) x)) :
    ReadsStr b (getElem (h.handle i c) k) x s := by
  obtain ⟨t, ct, hp, hct, hn, hss, hps, hbytes⟩ := hs
  exact hb.getStr hc hk hx hp hct (hb.near htot hc (Shape.row_lt_rows hk) hx hp)
    ⟨hss, hps, hn, hbytes⟩

/-- **The reader finds the tree** that the objects are. -/
theorem Heap.Holds.reads (hb : h.Holds b) (htot : h.total ≤ 2 ^ 33) (T : Tree) :
    ∀ o, h.Denotes T o → T.Reads b (h.target o) := by
  induction T with
  | null =>
      intro o hT
      exact congrArg h.target hT
  | vec nelem ssize psize scal kids ih =>
      rintro o ⟨i, c, rfl, hc, -, hne, rfl, rfl, rfl, hT⟩
      rw [Heap.target_some hc]
      have hrow : ∀ k, c.row k = k := c.row_eq hne
      have hwidth : c.width = c.ssize := by rw [c.width_eq, if_neg hne]
      refine ⟨rfl, rfl, rfl, fun k hk => ?_⟩
      obtain ⟨hscal, hkids⟩ := hT k hk
      refine ⟨fun off sz hsz hdvd hoff => ?_, fun off hoff => ?_, fun x hx => ⟨?_, ?_⟩⟩
      · rw [hb.getInt hc hk hsz hdvd (by omega), hrow,
          load_congr fun j _ hj => hscal j (by omega)]
      · rw [hb.getBit hc hk (by omega), hrow]
        unfold bit
        rw [hscal _ hoff]
      · refine ⟨_, hb.getPtr hc hk hx fun t ht => ?_, ?_⟩
        · exact hb.near htot hc (Shape.row_lt_rows hk) hx ht
        · rw [hrow]
          exact ih k x _ (hkids x hx)
      · intro s hs
        refine Heap.Denotes.readsStr hb htot hc hk hx ?_
        rw [hrow, ← hs]
        exact hkids x hx
  | bits nelem bit =>
      rintro o ⟨i, c, rfl, hc, -, rfl, hs, hp, hT⟩
      rw [Heap.target_some hc]
      refine ⟨rfl, hs, hp, fun k hk => ?_⟩
      have hwidth : c.width = 1 := by rw [c.width_eq, if_pos ⟨hs, hp⟩]
      have hbyte : k % 8 / 8 = 0 := by omega
      rw [hb.getBit hc hk (by omega), c.row_bits hs hp, hbyte, Nat.mod_mod]
      exact congrArg some (hT k hk)
  | str s =>
      rintro o ⟨i, c, rfl, hc, hn, hs, hp, -⟩
      rw [Heap.target_some hc]
      exact ⟨hn, hs, hp⟩

end

/-- **Decode undoes encode.** Calls that keep to the interface and build the tree `T`, its root
first, succeed on an empty buffer, and the reader finds `T` in a copy of the bytes, from offset
`0` on. -/
theorem decode_encode {alloc : Nat → Realloc} (ha : ∀ n, (alloc n).Total) {b : Buffer}
    (h0 : b.len = 0) (hcap : b.cap < 2 ^ 64) {calls : List Call} {T : Tree}
    (hok : AllSteps Call.step Call.Ok [] calls) (hT : (build calls).Denotes T (some 0))
    (htot : (build calls).total < 2 ^ 32) :
    ∃ s, run (Plain.step alloc) ⟨b, []⟩ calls = some s ∧
      ∀ block : ByteBlock, block.data = s.buf.bytes →
        ∃ r, objInit (initRead block) Obj.null 0 = some r ∧ T.Reads (initRead block) r := by
  obtain ⟨s, hrun, hrel⟩ := plain_run ha h0 hcap hok (by omega)
  refine ⟨s, hrun, fun block hblock => ?_⟩
  have hb := (hrel.holds (by omega)).initRead hblock
  have hreads := hb.reads (by omega) T _ hT
  have hroot : ∃ c, (build calls)[0]? = some c := by
    cases T with
    | null => cases hT
    | vec _ _ _ _ _ =>
        obtain ⟨i, c, hi, hc, -⟩ := hT
        cases hi
        exact ⟨c, hc⟩
    | bits _ _ =>
        obtain ⟨i, c, hi, hc, -⟩ := hT
        cases hi
        exact ⟨c, hc⟩
    | str _ =>
        obtain ⟨i, c, hi, hc, -⟩ := hT
        cases hi
        exact ⟨c, hc⟩
  obtain ⟨c, hc⟩ := hroot
  rw [Heap.target_some hc] at hreads
  exact ⟨_, hb.objInit hc Obj.null, hreads⟩

/-- A vector of two messages with a string in the second and a vector of bits, which is created
last, in the first. -/
def sampleCalls : List Call :=
  [.create (.ofCounts 2 4 1 (Eq.refl true)),
    .putStr 0 1 0 [104, 0, 105] 3, .putInt 0 1 2 2 (2 ^ 64 - 1),
    .create (.ofCounts 9 0 0 (Eq.refl true)),
    .putPtr 0 0 0 2, .putBit 2 8 0 true]

def sampleTree : Tree :=
  .vec 2 4 1 (fun k j => if k = 1 ∧ 2 ≤ j ∧ j < 4 then 255 else 0)
    fun k _ => if k = 0 then .bits 9 (fun k => k == 8) else .str [104, 0, 105]

theorem sampleTree_denotes : (build sampleCalls).Denotes sampleTree (some 0) := by
  refine ⟨0, _, rfl, rfl, by decide, by decide, rfl, rfl, rfl, fun k hk => ?_⟩
  have hcases : k = 0 ∨ k = 1 := by omega
  rcases hcases with rfl | rfl
  · refine ⟨fun j hj => ?_, fun x hx => ?_⟩
    · have hj' : j = 0 ∨ j = 1 ∨ j = 2 ∨ j = 3 := by omega
      rcases hj' with rfl | rfl | rfl | rfl <;> decide
    · obtain rfl : x = 0 := by omega
      refine ⟨2, _, by decide, rfl, by decide, rfl, rfl, rfl, ?_⟩
      decide
  · refine ⟨fun j hj => ?_, fun x hx => ?_⟩
    · have hj' : j = 0 ∨ j = 1 ∨ j = 2 ∨ j = 3 := by omega
      rcases hj' with rfl | rfl | rfl | rfl <;> decide
    · obtain rfl : x = 0 := by omega
      refine ⟨1, _, by decide, rfl, rfl, rfl, rfl, ?_⟩
      decide

theorem sampleTree_decode_encode :
    (build sampleCalls).Denotes sampleTree (some 0) ∧ (build sampleCalls).total < 2 ^ 32 ∧
      ∃ s, run (Plain.step granting) ⟨initWrite (fun _ => 170) 0, []⟩ sampleCalls = some s ∧
        ∀ block : ByteBlock, block.data = s.buf.bytes →
          ∃ r, objInit (initRead block) Obj.null 0 = some r ∧
            sampleTree.Reads (initRead block) r :=
  ⟨sampleTree_denotes, by decide,
    decode_encode (fun _ _ => rfl) rfl (by decide) (by decide) sampleTree_denotes (by decide)⟩

end Nbuf
