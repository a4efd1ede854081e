import Nbuf.Wire.RoundTrip

set_option autoImplicit false

/-! # The invariant of a write buffer

What holds of a plain write buffer after every call: its objects tile it, their headers and
handles are those of their creation, pointers lead to later objects and padding is zero.
-/

namespace Nbuf

open Align Run ByteMem

/-! ## The invariant -/

/-- The end of an object, rounded up. -/
def Obj.endPos (r : Obj) : Nat := roundUp (r.base + r.totalsz) 8

/-- The objects stand one behind the other from `p` to `q`, each with its header first. -/
def Tiles : Nat → List Obj → Nat → Prop
  | p, [], q => p = q
  | p, r :: l, q => r.base = p + 8 ∧ Tiles r.endPos l q

/-- The shape of the object that a call creates. -/
def Call.creates : Call → Option Shape
  | create sh => some sh
  | putStr _ _ _ str len => (strLength str len).map strShape
  | _ => none

/-- The shapes given at creation, in order. -/
def shapes (calls : List Call) : List Shape := calls.filterMap Call.creates

/-- The invariant of a write buffer with objects of the given shapes. -/
structure WriteInv (s : Plain) (shs : List Shape) : Prop where
  len_le_cap : s.buf.len ≤ s.buf.cap
  dvd_len : 8 ∣ s.buf.len
  tiles : Tiles 0 s.objs s.buf.len
  length_eq : s.objs.length = shs.length
  header : ∀ (i : Nat) (r : Obj) (sh : Shape), s.objs[i]? = some r → shs[i]? = some sh → r = sh.obj r.base ∧
    s.buf.mem.load (r.base - 8) 8 = hdrWord sh.nelem sh.ssize sh.psize
  denotes : ∀ (i : Nat) r, s.objs[i]? = some r → objInit s.buf Obj.null (r.base - 8) = some r
  pointer : ∀ (i : Nat) r, s.objs[i]? = some r → ∀ k, k < r.nelem → ∀ x, x < r.psize →
    s.buf.mem.load ((getElem r k).slot x) 4 = 0 ∨ ∃ (t : Nat) (rt : Obj) (w : Nat), i < t ∧
      s.objs[t]? = some rt ∧ w < 2 ^ 31 ∧ s.buf.mem.load ((getElem r k).slot x) 4 = w ∧
      (getElem r k).slot x + 4 * w = rt.base - 8
  padding : ∀ (i : Nat) r, s.objs[i]? = some r → ∀ q, r.base + r.totalsz ≤ q → q < r.endPos →
    s.buf.mem q = 0

/-! ## The shapes of a run -/

theorem Heap.map_toShape_modify (h : Heap) (i : Nat) {f : Cell → Cell}
    (hf : ∀ c, (f c).toShape = c.toShape) :
    (h.modify i f).map Cell.toShape = h.map Cell.toShape := by
  apply List.ext_getElem?
  intro j
  rw [List.getElem?_map, List.getElem?_map, List.getElem?_modify]
  by_cases hij : i = j
  · cases h[j]? with
    | none => simp
    | some c => simp [hij, hf]
  · simp [hij]

/-- A call adds the shape of the object it creates and keeps the others. -/
theorem Call.map_toShape_apply {h : Heap} {call : Call} (hv : call.Valid h) :
    (call.apply h).map Cell.toShape = h.map Cell.toShape ++ call.creates.toList := by
  cases call with
  | create sh => exact List.map_append
  | putInt i k off sz v =>
      show _ = _ ++ []
      rw [List.append_nil]
      exact h.map_toShape_modify i fun c => c.setInt_toShape k off sz v
  | putBit i k off v =>
      show _ = _ ++ []
      rw [List.append_nil]
      exact h.map_toShape_modify i fun c => c.setBit_toShape k off v
  | putPtr i k x t =>
      show _ = _ ++ []
      rw [List.append_nil]
      exact h.map_toShape_modify i fun c => c.putPtr_toShape (c.row k) x t
  | putStr i k x str len =>
      obtain ⟨c, -, -, -, n, hlen, hstr, -⟩ := hv
      have hcell := strCell_take_toShape hstr
      rw [Call.apply_putStr h i k x hlen, Call.creates, hlen, Option.map_some, Option.toList_some]
      split_ifs
      · exact List.map_append
      · rw [Heap.map_toShape_modify _ i fun c => c.putPtr_toShape (c.row k) x h.length,
          List.map_append, ← hcell]
        rfl

theorem map_toShape_run {h : Heap} {calls : List Call}
    (hv : AllSteps Call.step Call.Valid h calls) :
    (calls.foldl Call.apply h).map Cell.toShape = h.map Cell.toShape ++ shapes calls := by
  induction calls generalizing h with
  | nil => exact (List.append_nil _).symm
  | cons call calls ih =>
      rw [List.foldl_cons, ih (hv.2 _ rfl), Call.map_toShape_apply hv.1, List.append_assoc]
      unfold shapes
      rw [List.filterMap_cons]
      cases call.creates with
      | none => rfl
      | some sh => rfl

theorem map_toShape_build {calls : List Call} (hv : AllSteps Call.step Call.Valid [] calls) :
    (build calls).map Cell.toShape = shapes calls := map_toShape_run hv

/-! ## The invariant holds -/

theorem tiles_of_offs {l : List Obj} {f : Nat → Nat}
    (h : ∀ i r, l[i]? = some r → r.base = f i + 8 ∧ r.endPos = f (i + 1)) :
    Tiles (f 0) l (f l.length) := by
  induction l generalizing f with
  | nil => rfl
  | cons r l ih =>
      obtain ⟨hbase, hend⟩ := h 0 r rfl
      refine ⟨hbase, ?_⟩
      rw [hend]
      exact ih (f := fun i => f (i + 1)) fun i r' hr' => h (i + 1) r' hr'

section

variable {s : Plain} {h : Heap}

theorem Plain.Rel.cell (hs : s.Rel h) {i : Nat} {r : Obj} (hr : s.objs[i]? = some r) :
    ∃ c, h[i]? = some c ∧ r = c.obj (h.offs i + 8) := by
  rw [hs.objs_eq i] at hr
  obtain ⟨c, hc, rfl⟩ := Option.map_eq_some_iff.mp hr
  exact ⟨c, hc, rfl⟩

theorem Heap.endPos_eq (h : Heap) (i : Nat) (c : Cell) :
    (c.obj (h.offs i + 8)).endPos = h.offs i + c.blockSize := by
  unfold Obj.endPos
  rw [c.totalsz_eq, Shape.obj_base, Nat.add_assoc, roundUp_add_left (by decide) (h.dvd_offs i)]
  rfl

/-- A buffer that represents a heap meets the invariant. -/
theorem Plain.Rel.writeInv (hs : s.Rel h) (htot : h.total < 2 ^ 32) :
    WriteInv s (h.map Cell.toShape) := by
  have hb := hs.holds (by omega)
  constructor
  case len_le_cap => exact hs.len_le_cap
  case dvd_len => exact hs.len_eq ▸ h.dvd_total
  case tiles =>
    have htiles := tiles_of_offs (l := s.objs) (f := h.offs) fun i r hr => by
      obtain ⟨c, hc, rfl⟩ := hs.cell hr
      exact ⟨rfl, by rw [h.endPos_eq i c, Heap.offs_succ hc]⟩
    rw [hs.handles.length_eq, h.offs_length, ← hs.len_eq] at htiles
    exact htiles
  case length_eq => rw [hs.handles.length_eq, List.length_map]
  case header =>
    intro i r sh hr hsh
    obtain ⟨c, hc, rfl⟩ := hs.cell hr
    rw [List.getElem?_map, hc, Option.map_some, Option.some.injEq] at hsh
    subst hsh
    exact ⟨rfl, (hs.rep i c hc).hdr⟩
  case denotes =>
    intro i r hr
    obtain ⟨c, hc, rfl⟩ := hs.cell hr
    exact hb.objInit hc Obj.null
  case pointer =>
    intro i r hr k hk x hx
    obtain ⟨c, hc, rfl⟩ := hs.cell hr
    have hslot : (getElem (c.obj (h.offs i + 8)) k).slot x = h.slotPos i c (c.row k) x :=
      hb.slot_eq hc hk hx
    have hrow := Shape.row_lt_rows hk
    have hword := (hs.rep i c hc).slot _ hrow x hx
    have hpos : h.slotPos i c (c.row k) x = c.slotPos (h.offs i) (c.row k) x := rfl
    rw [hslot, hpos, hword, ← hpos]
    unfold Heap.relWord
    cases hptr : c.ptr (c.row k) x with
    | none => exact Or.inl rfl
    | some t =>
        obtain ⟨hit, ht⟩ := hs.forward i c hc _ hrow x hx t hptr
        have hct : h[t]? = some h[t] := List.getElem?_eq_getElem ht
        have hin := c.rowPos_inside (h.offs i) hrow
        have hinside := c.slotPos_inside (h.offs i) (c.row k) hx
        have hle := c.le_blockSize
        have hafter := Heap.offs_add_le hc hit
        have hend := Heap.offs_add_le_total hct
        have hdvd := h.dvd_slotPos i (c.row k) hx
        have hdvdt := h.dvd_offs t
        refine Or.inr ⟨t, _, (h.offs t - h.slotPos i c (c.row k) x) / 4, hit, hs.obj hct, ?_,
          Nat.mod_eq_of_lt ?_, ?_⟩
        · omega
        · omega
        · show _ = h.offs t + 8 - 8
          omega
  case padding =>
    intro i r hr q h1 h2
    obtain ⟨c, hc, rfl⟩ := hs.cell hr
    rw [c.totalsz_eq] at h1
    rw [h.endPos_eq i c] at h2
    exact (hs.rep i c hc).pad q h1 h2

end

/-- A step keeps the handles. -/
theorem Plain.step_objs {alloc : Nat → Realloc} {s s' : Plain} {call : Call}
    (h : s.step alloc call = some s') : s.objs <+: s'.objs := by
  cases call with
  | create sh =>
      simp only [Plain.step, Option.bind_eq_bind, Option.bind_eq_some_iff] at h
      obtain ⟨⟨b, r⟩, -, h⟩ := h
      cases h
      exact List.prefix_append _ _
  | putInt i k off sz v =>
      simp only [Plain.step, Option.bind_eq_bind, Option.bind_eq_some_iff] at h
      obtain ⟨r, -, b, -, h⟩ := h
      cases h
      exact List.prefix_refl _
  | putBit i k off v =>
      simp only [Plain.step, Option.bind_eq_bind, Option.bind_eq_some_iff] at h
      obtain ⟨r, -, b, -, h⟩ := h
      cases h
      exact List.prefix_refl _
  | putPtr i k x t =>
      simp only [Plain.step, Option.bind_eq_bind, Option.bind_eq_some_iff] at h
      obtain ⟨r, -, v, -, b, -, h⟩ := h
      cases h
      exact List.prefix_refl _
  | putStr i k x str len =>
      simp only [Plain.step, Option.bind_eq_bind, Option.bind_eq_some_iff] at h
      obtain ⟨r, -, ⟨b, rr⟩, -, h⟩ := h
      cases h
      exact List.prefix_append _ _

theorem Plain.run_objs {alloc : Nat → Realloc} {s s' : Plain} {calls : List Call}
    (h : run (Plain.step alloc) s calls = some s') : s.objs <+: s'.objs :=
  run_preserves (fun t => s.objs <+: t.objs)
    (fun _ _ _ hpre hstep => hpre.trans (Plain.step_objs hstep)) (List.prefix_refl _) h

/-- **The invariant of a write buffer** holds at every point of every run whose numbers do not
wrap around, and a handle that was returned stays: it is among the later handles, which all denote
their objects. -/
theorem write_invariant {alloc : Nat → Realloc} (ha : ∀ n, (alloc n).Total) {b : Buffer}
    (h0 : b.len = 0) (hcap : b.cap < 2 ^ 64) {calls more : List Call}
    (hvalid : AllSteps Call.step Call.Valid [] (calls ++ more))
    (htot : (build (calls ++ more)).total < 2 ^ 32) (hwrap : ∀ c ∈ calls ++ more, c.NoWrap) :
    ∃ s s', run (Plain.step alloc) ⟨b, []⟩ calls = some s ∧
      run (Plain.step alloc) s more = some s' ∧ WriteInv s (shapes calls) ∧
      WriteInv s' (shapes (calls ++ more)) ∧ s.objs <+: s'.objs := by
  have hfirst : ∀ c ∈ calls, c.NoWrap := fun c hc => hwrap c (List.mem_append_left _ hc)
  have hbuild : build (calls ++ more) = more.foldl Call.apply (build calls) := List.foldl_append
  have hle : (build calls).total ≤ (build (calls ++ more)).total := by
    rw [hbuild]
    exact Call.total_le_run (run_step_eq (build calls) more)
  obtain ⟨s, hrun, hrel⟩ :=
    plain_run ha h0 hcap (hvalid.of_append.and_forall hfirst) (by omega)
  obtain ⟨s', hrun', hrel'⟩ := plain_run ha h0 hcap (hvalid.and_forall hwrap) (by omega)
  have hmore : run (Plain.step alloc) s more = some s' := by
    rw [← hrun', run_append_of_eq hrun]
  have hinv := hrel.writeInv (by omega)
  have hinv' := hrel'.writeInv htot
  rw [map_toShape_build hvalid.of_append] at hinv
  rw [map_toShape_build hvalid] at hinv'
  exact ⟨s, s', hrun, hmore, hinv, hinv', Plain.run_objs hmore⟩

theorem sampleCalls_write_invariant :
    ∃ s s', run (Plain.step granting) ⟨initWrite (fun _ => 170) 0, []⟩ (sampleCalls.take 3) = some s ∧
      run (Plain.step granting) s (sampleCalls.drop 3) = some s' ∧
      WriteInv s (shapes (sampleCalls.take 3)) ∧
      WriteInv s' (shapes (sampleCalls.take 3 ++ sampleCalls.drop 3)) ∧ s.objs <+: s'.objs :=
  write_invariant (fun _ _ => rfl) rfl (by decide) (by decide) (by decide) (by decide)

/-! ## A number whose end wraps around -/

/-- An object, and a number at offset `-4` of it. -/
def headerCalls : List Call :=
  [.create (.ofCounts 1 4 0 (Eq.refl true)),
    .putInt 0 0 (2 ^ 64 - 4) 4 8]

/-- **The header is overwritten.** -/
theorem headerCalls_overwrite : AllSteps Call.step Call.Valid [] headerCalls ∧
    (build headerCalls).total < 2 ^ 32 ∧
    ∃ s, run (Plain.step granting) ⟨initWrite (fun _ => 0) 0, []⟩ headerCalls = some s ∧
      ¬ WriteInv s (shapes headerCalls) := by
  refine ⟨by decide, by decide, ?_⟩
  have hobjs : (run (Plain.step granting) ⟨initWrite (fun _ => 0) 0, []⟩ headerCalls).map
      (fun s => (s.objs.map Obj.base, s.buf.mem.load 0 8)) = some ([8], 8 * 2 ^ 32 + 1) := by
    decide +kernel
  cases hs : run (Plain.step granting) ⟨initWrite (fun _ => 0) 0, []⟩ headerCalls with
  | none =>
      rw [hs] at hobjs
      cases hobjs
  | some s =>
      rw [hs, Option.map_some, Option.some.injEq, Prod.mk.injEq] at hobjs
      refine ⟨s, rfl, fun hinv => ?_⟩
      obtain ⟨hbase, hword⟩ := hobjs
      cases hl : s.objs with
      | nil => simp [hl] at hbase
      | cons r l =>
          have hr : s.objs[0]? = some r := by rw [hl]; rfl
          have h8 : r.base = 8 := by
            rw [hl] at hbase
            exact (List.cons.inj hbase).1
          have hhdr := (hinv.header 0 r _ hr rfl).2
          rw [h8, hword] at hhdr
          exact absurd hhdr (by decide)

end Nbuf
