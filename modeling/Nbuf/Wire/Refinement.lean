import Nbuf.Wire.RoundTrip
import Nbuf.Wire.Serialize

set_option autoImplicit false

/-! # The builder refines the plain writer

Both write a heap, so the bytes of the plain buffer and of the serialized pool are the same. The
exception is a number whose end wraps around: it lands before its element, where the plain writer
has a distance and the builder an id.
-/

namespace Nbuf

open Run ByteMem

/-- A heap determines the bytes of a buffer that holds it. -/
theorem Heap.Holds.bytes_eq {h : Heap} {b b' : Buffer} (hb : h.Holds b) (hb' : h.Holds b') :
    b.bytes = b'.bytes := by
  unfold Buffer.bytes
  rw [hb.len_eq, hb'.len_eq]
  apply List.ext_getElem
  · rw [length_toList, length_toList]
  · intro p hp hp'
    rw [length_toList] at hp
    obtain ⟨i, c, hc, h1, h2⟩ := Heap.exists_block hp
    have hbyte := (hb.rep i c hc).bytes_eq (hb'.rep i c hc) (q := p - h.offs i) (by omega)
    have hpos : h.offs i + (p - h.offs i) = p := by omega
    rw [hpos] at hbyte
    simpa [toList] using hbyte

/-- **A builder** ends with the objects that the edits build. -/
theorem build_run {alloc : Nat → Realloc} (ha : ∀ n, (alloc n).Total) {addr : Nat}
    (haddr : addr < 2 ^ 64) {edits : List Edit} (hok : AllSteps Edit.step Edit.Ok [] edits)
    (hfit : (buildEdits edits).total < 2 ^ 35) :
    ∃ s, run (Build.step alloc) ⟨initBuilder addr haddr, [], 0⟩ edits = some s ∧
      s.Rel (buildEdits edits) :=
  (Build.rel_init addr haddr).run ha hok (run_edits_eq [] edits) hfit

/-- The calls, made on an empty plain buffer and on a fresh builder that is then serialized, leave
the same bytes. -/
def SameBytes (alloc alloc' : Nat → Realloc) (a : Realloc) (b : Buffer) (addr : Nat)
    (haddr : addr < 2 ^ 64) (calls : List Call) : Prop :=
  ∃ s s' out, run (Plain.step alloc) ⟨b, []⟩ calls = some s ∧
    run (Build.step alloc') ⟨initBuilder addr haddr, [], 0⟩ (calls.map Edit.call) = some s' ∧
    s'.pool.serialize a = some (some out) ∧ out.bytes = s.buf.bytes

/-- **The builder refines the plain writer** on all calls that keep to the interface, when no
number's end wraps around. -/
theorem builder_refines_plain {alloc alloc' : Nat → Realloc} (ha : ∀ n, (alloc n).Total)
    (ha' : ∀ n, (alloc' n).Total) {a : Realloc} (hser : a.Total) {b : Buffer} (h0 : b.len = 0)
    (hcap : b.cap < 2 ^ 64) {addr : Nat} (haddr : addr < 2 ^ 64) {calls : List Call}
    (hvalid : AllSteps Call.step Call.Valid [] calls) (htot : (build calls).total < 2 ^ 32)
    (hwrap : ∀ c ∈ calls, c.NoWrap) : SameBytes alloc alloc' a b addr haddr calls := by
  have hok : AllSteps Call.step Call.Ok [] calls := hvalid.and_forall hwrap
  obtain ⟨s, hrun, hrel⟩ := plain_run ha h0 hcap hok (by omega)
  have hbuild : buildEdits (calls.map Edit.call) = build calls := foldl_call [] calls
  obtain ⟨s', hrun', hrel'⟩ := build_run ha' haddr (allSteps_call hok) (by rw [hbuild]; omega)
  rw [hbuild] at hrel'
  obtain ⟨out, hout, hholds, -⟩ := hrel'.rep.serialize (by omega) hser
  exact ⟨s, s', out, hrun, hrun', hout, hholds.bytes_eq (hrel.holds (by omega))⟩

/-! ## The graph of a builder -/

/-- Objects `r` of a builder, in buffer `i`, and `r'` of a plain buffer have the same counts, and
every getter finds the same numbers in their elements. -/
structure SameObj (s : Build) (i : Nat) (r : Obj) (b : Buffer) (r' : Obj) : Prop where
  nelem_eq : r'.nelem = r.nelem
  ssize_eq : r'.ssize = r.ssize
  psize_eq : r'.psize = r.psize
  scal : ∀ k, k < r.nelem → ∀ off sz, scalarSize sz = true → sz ∣ off → off + sz ≤ r.width →
    ∃ bi v, s.pool.getbuffer i = some bi ∧ getInt bi (getElem r k) off sz = some v ∧
      getInt b (getElem r' k) off sz = some v

/-- The objects of the builder and the objects at the positions `pos` of the plain buffer
are isomorphic, edges included. -/
structure SameGraph (s : Build) (b : Buffer) (pos : Nat → Nat) (obj : Nat → Obj) : Prop where
  root : pos 0 = 0
  inj : ∀ i j, i < s.objs.length → j < s.objs.length → pos i = pos j → i = j
  opens : ∀ i r, s.objs[i]? = some r → objInit b Obj.null (pos i) = some (obj i) ∧
    SameObj s i r b (obj i)
  edges : ∀ i r, s.objs[i]? = some r → ∀ k, k < r.nelem → ∀ x, x < r.psize →
    (s.pool.getPtr i (getElem r k) x = some (i, Obj.null) ∧
      getPtr b (getElem (obj i) k) x = some Obj.null) ∨
    ∃ t rt, i < t ∧ s.objs[t]? = some rt ∧ s.pool.getPtr i (getElem r k) x = some (t, rt) ∧
      getPtr b (getElem (obj i) k) x = some (obj t)

/-- **Serialization preserves the object graph** of every builder that calls and growing resizes
lead to: `get_ptr` on every slot and `nbuf_serialize` succeed, their assertions included, as long
as there are less than `2 ^ 34` bytes, and when there are less than `2 ^ 32`, the plain reader
finds the graph of the builder in a copy of the output. -/
theorem serialize_preserves_graph {alloc : Nat → Realloc} (ha : ∀ n, (alloc n).Total) {a : Realloc}
    (hser : a.Total) {addr : Nat} (haddr : addr < 2 ^ 64) {edits : List Edit}
    (hok : AllSteps Edit.step Edit.Ok [] edits) (htot : (buildEdits edits).total < 2 ^ 34) :
    ∃ s, run (Build.step alloc) ⟨initBuilder addr haddr, [], 0⟩ edits = some s ∧
      (∀ i r, s.objs[i]? = some r → ∀ k, k < r.nelem → ∀ x, x < r.psize →
        (s.pool.getPtr i (getElem r k) x).isSome) ∧
      ∃ out, s.pool.serialize a = some (some out) ∧ (out.len < 2 ^ 32 →
        ∀ block : ByteBlock, block.data = out.bytes →
          ∃ pos obj, SameGraph s (initRead block) pos obj) := by
  obtain ⟨s, hrun, hrel⟩ := build_run ha haddr hok (by omega)
  generalize buildEdits edits = h at htot hrel
  have hlength := h.length_le_total
  obtain ⟨out, hout, hholds, -⟩ := hrel.rep.serialize htot hser
  have hcell : ∀ (i : Nat) (r : Obj), s.objs[i]? = some r → ∃ c : Cell, h[i]? = some c ∧ r = c.handle := by
    intro i r hr
    rw [hrel.objs_eq, List.getElem?_map] at hr
    obtain ⟨c, hc, rfl⟩ := Option.map_eq_some_iff.mp hr
    exact ⟨c, hc, rfl⟩
  refine ⟨s, hrun, fun i r hr k hk x hx => ?_, out, hout, fun hsmall block hblock => ?_⟩
  · obtain ⟨c, hc, rfl⟩ := hcell i r hr
    rw [hrel.rep.getPtr (by omega) hc hk hx]
    cases hptr : c.ptr (c.row k) x with
    | none => rfl
    | some t =>
        have ht := (hrel.rep.forward i c hc _ (Shape.row_lt_rows hk) x hx t hptr).2
        simp [List.getElem?_eq_getElem ht]
  · have hb := hholds.initRead hblock
    have hnear : h.total ≤ 2 ^ 33 := by
      rw [← hholds.len_eq]
      omega
    refine ⟨h.offs, fun i => h.target (some i), rfl, fun i j hi hj hij => ?_, fun i r hr => ?_,
      fun i r hr k hk x hx => ?_⟩
    · have hl : s.objs.length = h.length := by rw [hrel.objs_eq, List.length_map]
      rw [hl] at hi hj
      have hci := h[i].le_blockSize
      have hcj := h[j].le_blockSize
      rcases Nat.lt_trichotomy i j with hlt | heq | hgt
      · have := Heap.offs_add_le (List.getElem?_eq_getElem hi) hlt
        omega
      · exact heq
      · have := Heap.offs_add_le (List.getElem?_eq_getElem hj) hgt
        omega
    · obtain ⟨c, hc, rfl⟩ := hcell i r hr
      rw [Heap.target_some hc]
      refine ⟨hb.objInit hc Obj.null, rfl, rfl, rfl, fun k hk off sz hsz hdvd hoff => ?_⟩
      obtain ⟨bi, hbi, hbuf⟩ := hrel.rep.obj i c hc
      refine ⟨bi, _, hbi, ?_, hb.getInt hc hk hsz hdvd hoff⟩
      exact hbuf.block.getInt (Nat.le_of_eq hbuf.len_eq.symm) hbuf.len_lt hk hsz hdvd hoff
    · obtain ⟨c, hc, rfl⟩ := hcell i r hr
      have hrow := Shape.row_lt_rows hk
      have hget := hb.getPtr hc hk hx fun t ht => hb.near hnear hc hrow hx ht
      rw [Heap.target_some hc, hrel.rep.getPtr (by omega) hc hk hx]
      cases hptr : c.ptr (c.row k) x with
      | none =>
          rw [hptr] at hget
          exact Or.inl ⟨rfl, hget⟩
      | some t =>
          obtain ⟨hit, ht⟩ := hrel.rep.forward i c hc _ hrow x hx t hptr
          have hct : h[t]? = some h[t] := List.getElem?_eq_getElem ht
          rw [hptr] at hget
          refine Or.inr ⟨t, (h[t]).handle, hit, ?_, by simp [hct], hget⟩
          rw [hrel.objs_eq, List.getElem?_map, hct]
          rfl

/-- A list that grows after other objects were created, twice. -/
def sampleEdits : List Edit :=
  [.call (.create (.ofCounts 1 0 2 (Eq.refl true))),
    .call (.create (.ofCounts 1 4 1 (Eq.refl true))),
    .call (.putPtr 0 0 0 1), .resize 1 3,
    .call (.create (.ofCounts 7 0 0 (Eq.refl true))),
    .call (.putPtr 1 2 0 2), .resize 2 100, .resize 1 9, .call (.putInt 1 8 0 4 7)]

theorem sampleEdits_preserve_graph :
    ∃ s, run (Build.step granting) ⟨initBuilder 0 (by decide), [], 0⟩ sampleEdits = some s ∧
      (∀ i r, s.objs[i]? = some r → ∀ k, k < r.nelem → ∀ x, x < r.psize →
        (s.pool.getPtr i (getElem r k) x).isSome) ∧
      ∃ out, s.pool.serialize (granting 0) = some (some out) ∧ (out.len < 2 ^ 32 →
        ∀ block : ByteBlock, block.data = out.bytes →
          ∃ pos obj, SameGraph s (initRead block) pos obj) :=
  serialize_preserves_graph (fun _ _ => rfl) (fun _ => rfl) (by decide) (by decide) (by decide)

/-! ## A number whose end wraps around -/

/-- A vector of two pointers, with a pointer put in its second element, and a number at the
offset `-4` of that element: the number takes the place of the first pointer. -/
def wrapCalls : List Call :=
  [.create (.ofCounts 2 0 1 (Eq.refl true)),
    .create (.ofCounts 1 8 0 (Eq.refl true)),
    .putInt 0 1 (2 ^ 64 - 4) 4 1]

/-- **Not the same bytes**: the plain buffer keeps the number as a distance, the serialized pool
takes it for an id. -/
theorem wrapCalls_differ : AllSteps Call.step Call.Valid [] wrapCalls ∧
    (build wrapCalls).total < 2 ^ 32 ∧
    ¬ SameBytes granting granting (granting 0) (initWrite (fun _ => 0) 0) 0 (by decide)
      wrapCalls := by
  refine ⟨by decide, by decide, ?_⟩
  rintro ⟨s, s', out, hs, hs', hout, heq⟩
  have hplain : (run (Plain.step granting) ⟨initWrite (fun _ => 0) 0, []⟩ wrapCalls).map
      (fun s => s.buf.bytes) = some [2, 0, 0, 0, 0, 0, 1, 0, 1, 0, 0, 0, 0, 0, 0, 0,
        1, 0, 0, 0, 8, 0, 0, 0, 0, 0, 0, 0, 0, 0, 0, 0] := by decide +kernel
  have hbuild : ((run (Build.step granting) ⟨initBuilder 0 (by decide), [], 0⟩
      (wrapCalls.map Edit.call)).bind fun s => s.pool.serialize (granting 0)).map
        (fun o => o.map fun b => b.bytes) = some (some [2, 0, 0, 0, 0, 0, 1, 0, 2, 0, 0, 0,
          0, 0, 0, 0, 1, 0, 0, 0, 8, 0, 0, 0, 0, 0, 0, 0, 0, 0, 0, 0]) := by decide +kernel
  rw [hs, Option.map_some, Option.some.injEq] at hplain
  rw [hs', Option.bind_some, hout] at hbuild
  simp only [Option.map_some, Option.some.injEq] at hbuild
  rw [hplain, hbuild] at heq
  exact absurd heq (by decide)

theorem sampleCalls_same_bytes :
    SameBytes granting granting (granting 0) (initWrite (fun _ => 0) 0) 0 (by decide) sampleCalls :=
  builder_refines_plain (fun _ _ => rfl) (fun _ _ => rfl) (fun _ => rfl) rfl (by decide) (by decide)
    (by decide) (by decide) (by decide)

end Nbuf
