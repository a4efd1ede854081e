import Nbuf.Wire.PtrWrites

set_option autoImplicit false

/-! # Writes that get no space

`_nbuf_create` answers a refused reservation with a handle whose counts are zero and whose base
is still the end of the buffer. `nbuf_put_str` looks at the count before it goes on. The generated
`init` functions do not: they hand the handle to `nbuf_put_ptr`, which takes the last eight bytes
of the buffer for the header of the object that was never created.
-/

namespace Nbuf

open Align ByteMem

/-! ## The calls -/

/-- A generated `init` function: create the object and link it. -/
def initPtr (a : Realloc) (b : Buffer) (r : Obj) (i nelem ssize psize : Nat) :
    Option (Buffer × Obj) := do
  let (b, oo) ← create a b nelem ssize psize
  let b ← putPtr b r i oo
  pure (b, oo)

/-- A call that may have to grow the buffer of the object `r`. -/
inductive GrowCall where
  | putStr (i : Nat) (s : List UInt8) (len : Nat)
  | init (i nelem ssize psize : Nat)
  | resize (nelem : Nat)

/-- The call, with the handle `r` behind it: only `nbuf_resize` may change that. -/
def GrowCall.run (a : Realloc) (b : Buffer) (r : Obj) : GrowCall → Option (Buffer × Obj)
  | putStr i s len => (Nbuf.putStr a b r i s len).map fun x => (x.1, r)
  | init i nelem ssize psize => (initPtr a b r i nelem ssize psize).map fun x => (x.1, r)
  | resize nelem => Nbuf.resize a b r nelem

/-- What `_nbuf_create` asks `nbuf_reserve` for, if its assertions let it come to that. -/
def createRequest (b : Buffer) (nelem ssize psize : Nat) : Option Nat := do
  let rr := Obj.ofFields b.len nelem ssize psize
  assertC (b.len ≤ b.cap)
  assertC (rr.elemsz < 2 ^ 32 - 1)
  assertC (rr.elemsz = 0 ∨ (2 ^ 64 - 1) / rr.elemsz > rr.nelem)
  assertC (rr.psize = 0 ∨ rr.elemsz % 4 = 0)
  pure rr.createSize

/-- What `nbuf_resize` asks `nbuf_reserve` for, if it comes to that. -/
def resizeRequest (b : Buffer) (r : Obj) (nelem : Nat) : Option Nat := do
  let oldSize := if r.elemsz ≠ 0 then sizeT (r.nelem * r.elemsz) else bitBytes r.nelem
  let newSize := if r.elemsz ≠ 0 then sizeT (nelem * r.elemsz) else sizeT (nelem + 7) / 8
  let oldEnd := nbufRoundup (sizeT (r.base + oldSize)) 8
  let newEnd := nbufRoundup (sizeT (r.base + newSize)) 8
  assertC (nelem < 2 ^ 32 - 1)
  if oldEnd = b.len ∧ newEnd > oldEnd then some (newEnd - oldEnd) else none

/-- The reservation that the call makes. -/
def GrowCall.request (b : Buffer) (r : Obj) : GrowCall → Option Nat
  | putStr _ s len => (strLength s len).bind fun n => createRequest b (n + 1) 1 0
  | init _ nelem ssize psize => createRequest b nelem ssize psize
  | resize nelem => resizeRequest b r nelem

/-- `nbuf_reserve` fails during the call. -/
def GrowCall.Refused (a : Realloc) (b : Buffer) (r : Obj) (w : GrowCall) : Prop :=
  ∃ inc b', w.request b r = some inc ∧ reserve a b inc = some (false, b')

/-- No harm comes of a refusal: the slot is out of range, or it points to the last eight bytes of
the buffer already. -/
def GrowCall.Spared (b : Buffer) (r : Obj) : GrowCall → Prop
  | init i _ _ _ => i < r.psize → r.slot i < b.len - 8 ∧ 4 ∣ b.len - 8 - r.slot i ∧
      b.mem.load (r.slot i) 4 = (b.len - 8 - r.slot i) / 4 % 2 ^ 32
  | _ => True

/-! ## What a refusal leads to -/

section

variable {a : Realloc} {b : Buffer}

/-- A reservation that fails has changed nothing. -/
theorem reserve_false {b' : Buffer} {inc : Nat} (h : reserve a b inc = some (false, b')) :
    b' = b := by
  unfold reserve at h
  rw [assertC_bind_eq_some, Option.bind_eq_bind, Option.bind_eq_some_iff] at h
  obtain ⟨-, grown, -, h⟩ := h
  cases grown with
  | none => exact (congrArg Prod.snd (Option.some.inj h)).symm
  | some cap =>
      dsimp only at h
      split_ifs at h with hmore
      · cases hfresh : a cap with
        | none =>
            rw [hfresh] at h
            exact (congrArg Prod.snd (Option.some.inj h)).symm
        | some fresh =>
            rw [hfresh] at h
            cases h
      · cases h

/-- **The handle of a refused creation** has no elements, and its base is the end of the
buffer. -/
theorem create_refused {nelem ssize psize inc : Nat}
    (hreq : createRequest b nelem ssize psize = some inc)
    (hres : reserve a b inc = some (false, b)) :
    create a b nelem ssize psize = some (b, Obj.ofFields b.len 0 0 0) := by
  unfold createRequest at hreq
  simp only [assertC_bind_eq_some] at hreq
  obtain ⟨hlen, helem, hmul, hword, hinc⟩ := hreq
  have hinc : (Obj.ofFields b.len nelem ssize psize).createSize = inc := Option.some.inj hinc
  unfold create
  simp only [assertC_pos hlen, assertC_pos helem, assertC_pos hmul, assertC_pos hword, hinc, hres,
    Option.bind_eq_bind, Option.bind_some, if_true]
  rfl

/-- `nbuf_resize` leaves the object as it is. -/
theorem resize_refused {r : Obj} {nelem inc : Nat} (hreq : resizeRequest b r nelem = some inc)
    (hres : reserve a b inc = some (false, b)) : resize a b r nelem = some (b, r) := by
  unfold resizeRequest at hreq
  simp only [assertC_bind_eq_some, Option.ite_none_right_eq_some, Option.some.injEq] at hreq
  obtain ⟨hn, ⟨hend, hmore⟩, hinc⟩ := hreq
  unfold resize
  simp only [assertC_pos hn, Option.bind_eq_bind, Option.bind_some, ne_eq, hend, not_true_eq_false,
    if_false]
  rw [hend] at hmore hinc
  rw [if_pos hmore, hinc, hres]
  rfl

/-- `nbuf_put_str` leaves the slot alone. -/
theorem putStr_refused {r : Obj} {i len n inc : Nat} {s : List UInt8}
    (hn : strLength s len = some n) (hreq : createRequest b (n + 1) 1 0 = some inc)
    (hres : reserve a b inc = some (false, b)) :
    putStr a b r i s len = some (b, Obj.ofFields b.len 0 0 0) := by
  unfold putStr
  rw [hn]
  simp only [Option.bind_eq_bind, Option.bind_some, create_refused hreq hres]
  exact if_pos rfl

/-! ## The pointer to what was not created -/

/-- **`nbuf_put_ptr` with the handle of a refused creation** gets by only if the slot holds the
distance to the last eight bytes already. -/
theorem putPtr_refused_iff {r : Obj} {i : Nat} (hhdr : 8 ≤ b.len) (hlen : b.len < 2 ^ 63)
    (hin : r.base + r.elemsz ≤ b.len) :
    putPtr b r i (Obj.ofFields b.len 0 0 0) = some b ↔ (i < r.psize → r.slot i < b.len - 8 ∧
      4 ∣ b.len - 8 - r.slot i ∧ b.mem.load (r.slot i) 4 = (b.len - 8 - r.slot i) / 4 % 2 ^ 32) := by
  by_cases hi : i < r.psize
  · have hslot : r.slot i + 4 ≤ b.len := by
      rw [r.elemsz_eq] at hin
      rw [Obj.slot, r.ptrOffs_eq (by omega), sizeT_of_lt (by omega)]
      omega
    have hbase : szSub (Obj.ofFields b.len 0 0 0).base 8 = b.len - 8 :=
      szSub_of_le hhdr (by show b.len < 2 ^ 64; omega)
    have hcheck : boundsCheck b (b.len - 8) 8 = true :=
      (boundsCheck_iff (by omega)).mpr (by omega)
    unfold putPtr
    rw [if_neg (by omega)]
    simp only [hbase, assertC_bind_eq_some, hcheck, hi, forall_const, true_and]
    generalize r.slot i = slot at *
    by_cases hbefore : slot < b.len - 8
    · have hrel : szSub (b.len - 8) slot = b.len - 8 - slot := szSub_of_le (by omega) (by omega)
      rw [hrel, writeIntSafe_of_le _ rfl hslot (by omega), Option.some.injEq, Nat.dvd_iff_mod_eq_zero]
      have hmem : { b with mem := store b.mem slot 4 ((b.len - 8 - slot) / 4) } = b ↔
          b.mem.load slot 4 = (b.len - 8 - slot) / 4 % 2 ^ 32 := by
        constructor
        · intro h
          have hmem := congrArg Buffer.mem h
          rw [← hmem]
          exact load_store _ _ _ _
        · intro h
          have hsame : store b.mem slot 4 ((b.len - 8 - slot) / 4) = b.mem := by
            rw [← store_mod, show 256 ^ 4 = 2 ^ 32 by decide, ← h, store_load]
          rw [hsame]
      rw [hmem]
      constructor
      · rintro ⟨⟨-, -, h4⟩, hload⟩
        exact ⟨hbefore, h4, hload⟩
      · rintro ⟨-, h4, hload⟩
        exact ⟨⟨by omega, by omega, h4⟩, hload⟩
    · -- the distance is not positive as an `int64_t`
      refine iff_of_false ?_ fun h => hbefore h.1
      rintro ⟨⟨hpos, hlt, -⟩, -⟩
      unfold szSub sizeT at hpos hlt
      omega
  · exact iff_of_true (putPtr_of_ge (by omega) _) fun h => absurd h hi

end

/-- **What a failed write leaves behind.** When `nbuf_reserve` fails during a call, the assertions
hold and everything is as before if and only if the call is no `init` of a slot that is to be
linked. -/
theorem refused_unchanged_iff {a : Realloc} {b : Buffer} {r : Obj} {w : GrowCall} (hhdr : 8 ≤ b.len)
    (hlen : b.len < 2 ^ 63) (hin : r.base + r.elemsz ≤ b.len) (href : w.Refused a b r) :
    w.run a b r = some (b, r) ↔ w.Spared b r := by
  obtain ⟨inc, b', hreq, hres⟩ := href
  obtain rfl := reserve_false hres
  cases w with
  | putStr i s len =>
      rw [GrowCall.request, Option.bind_eq_some_iff] at hreq
      obtain ⟨n, hn, hreq⟩ := hreq
      refine iff_of_true ?_ trivial
      rw [GrowCall.run, putStr_refused hn hreq hres]
      rfl
  | init i nelem ssize psize =>
      have hcreate := create_refused hreq hres
      have hrun : GrowCall.run a b' r (.init i nelem ssize psize)
          = (putPtr b' r i (Obj.ofFields b'.len 0 0 0)).map fun b => (b, r) := by
        simp only [GrowCall.run, initPtr, hcreate, Option.bind_eq_bind, Option.bind_some]
        cases putPtr b' r i (Obj.ofFields b'.len 0 0 0) <;> rfl
      rw [hrun, Option.map_eq_some_iff]
      simp only [Prod.mk.injEq, and_true, exists_eq_right]
      exact putPtr_refused_iff hhdr hlen hin
  | resize nelem =>
      exact iff_of_true (resize_refused hreq hres) trivial

/-! ## A full buffer -/

/-- A `realloc` that refuses every request. -/
def refusing : Realloc := fun _ => none

/-- A buffer of the given size, full of objects with one pointer each, and the first of them. -/
def fullBuffer (size : Nat) : Option (Buffer × Obj) := do
  let (b, r) ← create refusing (initWrite (fun _ => 0) size) 1 0 1
  if size ≤ 16 then pure (b, r)
  else do
    let (b, _) ← create refusing b 1 0 1
    pure (b, r)

/-- With one object in the buffer an assertion fails. With two, the slot of the first one points
to the second one afterwards. -/
theorem refused_init_links :
    (∃ b r, fullBuffer 16 = some (b, r) ∧ (GrowCall.init 0 1 8 0).Refused refusing b r ∧
      (GrowCall.init 0 1 8 0).run refusing b r = none) ∧
    ∃ b r b', fullBuffer 32 = some (b, r) ∧ (GrowCall.init 0 1 8 0).Refused refusing b r ∧
      (GrowCall.init 0 1 8 0).run refusing b r = some (b', r) ∧
      b.mem.load 8 4 = 0 ∧ b'.mem.load 8 4 = 4 := by
  constructor
  · exact ⟨_, _, rfl, ⟨16, _, rfl, rfl⟩, by decide⟩
  · exact ⟨_, _, _, rfl, ⟨16, _, rfl, rfl⟩, rfl, by decide, by decide⟩

theorem refused_resize_unchanged : ∃ b r, fullBuffer 16 = some (b, r) ∧
    ((GrowCall.resize 9).run refusing b r = some (b, r) ↔ (GrowCall.resize 9).Spared b r) :=
  ⟨_, _, rfl, refused_unchanged_iff (by decide) (by decide) (by decide) ⟨32, _, rfl, rfl⟩⟩

end Nbuf
