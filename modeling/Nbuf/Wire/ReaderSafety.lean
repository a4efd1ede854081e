import Nbuf.Lib.Run
import Nbuf.Wire.Reader

set_option autoImplicit false

/-! # Reading untrusted buffers

A client opens the root object and moves along pointers and elements before it reads. The
invariant `InBounds` of the handles it holds says that one element, and the whole vector if it
has elements, lies inside the buffer. `nbuf_obj_init` establishes it for every header except
one that announces no elements, whose sizes it does not check (`EmptyFits`).
-/

namespace Nbuf

open Run

/-! ## Chains of calls -/

/-- A call that yields another handle: `nbuf_get_ptr(i)` or `nbuf_get_elem(i)`. -/
inductive Hop where
  | ptr (i : Nat)
  | elem (i : Nat)
  deriving DecidableEq

def hop (b : Buffer) (r : Obj) : Hop → Option Obj
  | .ptr i => getPtr b r i
  | .elem i => some (getElem r i)

/-- A call that reads through a handle. -/
inductive Access where
  | int (byteOffset sz : Nat)
  | bit (bitOffset : Nat)
  | relPtr (i : Nat)
  | hasPtr (i : Nat)
  deriving DecidableEq

def access (b : Buffer) (r : Obj) : Access → Option Unit
  | .int off sz => (getInt b r off sz).map fun _ => ()
  | .bit off => (getBit b r off).map fun _ => ()
  | .relPtr i => (getRelPtr b r i).map fun _ => ()
  | .hasPtr i => (hasPtr b r i).map fun _ => ()

/-- The arguments are `size_t` values; a number has one of the four widths and an offset that
is a multiple of it. -/
def Access.Valid : Access → Prop
  | .int off sz => scalarSize sz = true ∧ sz ∣ off ∧ off < 2 ^ 64
  | .bit off => off < 2 ^ 64
  | .relPtr i => i < 2 ^ 64
  | .hasPtr i => i < 2 ^ 64

/-- The end of the number is not below `2 ^ 64`: `byte_offset + sz` wraps around. -/
def Access.Wraps : Access → Prop
  | .int off sz => 2 ^ 64 ≤ off + sz
  | _ => False

/-- The handle at the end of a chain that starts at the root object. -/
def reach (b : Buffer) (hops : List Hop) : Option Obj :=
  (objInit b Obj.null 0).bind fun r => run (hop b) r hops

/-- A chain of hops and one access: `none` when an assertion fails or a byte outside of the
buffer is read on the way. -/
def readAt (b : Buffer) (hops : List Hop) (a : Access) : Option Unit :=
  (reach b hops).bind fun r => access b r a

/-! ## The handle invariant -/

/-- A handle without elements has room for one nevertheless. -/
def EmptyFits (b : Buffer) (r : Obj) : Prop := r.nelem = 0 → r.base + r.elemsz ≤ b.len

/-- The handle is null or lies behind a header, and what it describes is inside the buffer. -/
structure InBounds (b : Buffer) (r : Obj) : Prop where
  base_ok : (r.base = 0 ∧ r.nelem = 0) ∨ 8 ≤ r.base
  elem_fits : r.base + r.elemsz ≤ b.len
  accepted : r.Accepted b

theorem inBounds_null (b : Buffer) : InBounds b Obj.null :=
  ⟨Or.inl ⟨rfl, rfl⟩, Nat.zero_le _, fun h => absurd h (by decide)⟩

/-- An accepted vector with elements has room for one element. -/
theorem Obj.Accepted.elem_fits {b : Buffer} {r : Obj} (h : r.Accepted b) (hn : 0 < r.nelem) :
    r.base + r.elemsz ≤ b.len := by
  obtain ⟨-, hfit⟩ := h hn
  by_cases h0 : r.elemsz = 0
  · omega
  · rw [r.totalsz_of_pos h0] at hfit
    have := Nat.le_mul_of_pos_right r.elemsz hn
    omega

/-- Opening an object gives a handle that satisfies the invariant, unless it is empty and does
not fit. -/
theorem objInit_inBounds {b : Buffer} (hlen : b.len < 2 ^ 63) (base : Nat) :
    ∃ r, objInit b Obj.null base = some r ∧ (EmptyFits b r → InBounds b r) := by
  by_cases hin : base + 8 ≤ b.len
  · refine ⟨_, objInit_in Obj.null hlen hin, fun hempty => ?_⟩
    split_ifs at hempty ⊢ with hacc
    · refine ⟨Or.inr (Nat.le_add_left 8 base), ?_, hacc⟩
      rcases Nat.eq_zero_or_pos (hdrObj (base + 8) (b.mem.load base 8)).nelem with h0 | hpos
      · exact hempty h0
      · exact hacc.elem_fits hpos
    · exact inBounds_null b
  · exact ⟨Obj.null, objInit_out hlen (by omega), fun _ => inBounds_null b⟩

/-- A pointer slot of an element inside the buffer. -/
theorem slot_of_fits {b : Buffer} {r : Obj} (hfit : r.base + r.elemsz ≤ b.len)
    (hlen : b.len < 2 ^ 63) {i : Nat} (hi : i < r.psize) :
    r.slot i = r.base + (r.ssize + i * 4) ∧ r.slot i + 4 ≤ b.len := by
  rw [r.elemsz_eq] at hfit
  have hslot : r.slot i = r.base + (r.ssize + i * 4) := by
    rw [Obj.slot, r.ptrOffs_eq (Nat.le_of_lt hi), sizeT_of_lt (by omega)]
  exact ⟨hslot, by omega⟩

theorem getRelPtr_of_fits {b : Buffer} {r : Obj} (hfit : r.base + r.elemsz ≤ b.len)
    (hlen : b.len < 2 ^ 63) (i : Nat) : ∃ rel, getRelPtr b r i = some rel := by
  by_cases hi : i < r.psize
  · obtain ⟨-, hfit⟩ := slot_of_fits hfit hlen hi
    obtain ⟨v, hv⟩ := Option.isSome_iff_exists.mp ((readIntSafe_isSome_iff rfl hlen).mpr hfit)
    exact ⟨toU64 v, by rw [getRelPtr, if_neg (by omega), hv]; rfl⟩
  · exact ⟨0, by rw [getRelPtr, if_pos (by omega)]⟩

/-- Following a pointer of an element inside the buffer. -/
theorem getPtr_of_fits {b : Buffer} {r : Obj} (hfit : r.base + r.elemsz ≤ b.len)
    (hlen : b.len < 2 ^ 63) (i : Nat) :
    ∃ r', getPtr b r i = some r' ∧ (EmptyFits b r' → InBounds b r') := by
  obtain ⟨rel, hrel⟩ := getRelPtr_of_fits hfit hlen i
  simp only [Nbuf.getPtr, hrel, Option.bind_eq_bind, Option.bind_some]
  split_ifs
  · exact objInit_inBounds hlen _
  · exact ⟨Obj.null, rfl, fun _ => inBounds_null b⟩
  · exact ⟨Obj.null, rfl, fun _ => inBounds_null b⟩

/-- An accepted vector has all its rows inside the buffer. -/
theorem Obj.Accepted.rows_fit {b : Buffer} {r : Obj} (h : r.Accepted b) (hn : 0 < r.nelem) :
    r.base + r.rows * r.stride ≤ b.len := by
  obtain ⟨hne, hfit⟩ := h hn
  by_cases h0 : r.elemsz = 0
  · rw [r.totalsz_of_bits h0] at hne hfit
    have hsmall : r.nelem < 2 ^ 32 - 7 := by
      by_contra hbig
      exact hne (bitBytes_wrap (by omega) r.nelem_lt)
    have hst : r.stride = 1 := by
      rw [Obj.stride, Obj.width, if_pos h0, (r.elemsz_eq_zero_iff.mp h0).2]
    rw [bitBytes_eq hsmall] at hfit
    rw [hst, Obj.rows, if_pos h0, Nat.mul_one]
    exact hfit
  · rw [r.totalsz_of_pos h0] at hfit
    rw [Obj.stride_eq h0, Obj.rows, if_neg h0, Nat.mul_comm]
    exact hfit

/-- The elements of an accepted vector are accepted and lie inside the buffer. -/
theorem Obj.Accepted.getElem {b : Buffer} {r : Obj} (h : r.Accepted b) (hlen : b.len < 2 ^ 63)
    (i : Nat) : (Nbuf.getElem r i).base + (Nbuf.getElem r i).elemsz ≤ b.len ∧
      (Nbuf.getElem r i).Accepted b := by
  by_cases hi : i < r.nelem
  · have hrows := h.rows_fit (by omega)
    have hbase := getElem_base hi (by omega)
    have hsz := getElem_elemsz hi
    have hone : (r.row i + 1) * r.stride ≤ r.rows * r.stride :=
      Nat.mul_le_mul_right _ (Obj.row_lt_rows hi)
    rw [Nat.succ_mul] at hone
    have hpos := r.stride_pos
    refine ⟨by rw [hbase, hsz]; omega, fun _ => ?_⟩
    rw [Obj.totalsz_of_pos _ (by omega), getElem_nelem hi, hsz, hbase]
    omega
  · rw [getElem_of_ge (by omega)]
    exact ⟨Nat.zero_le _, fun h0 => absurd h0 (by decide)⟩

/-- The elements of a vector that satisfies the invariant satisfy it. -/
theorem InBounds.getElem {b : Buffer} {r : Obj} (h : InBounds b r) (hlen : b.len < 2 ^ 63)
    (i : Nat) : InBounds b (getElem r i) := by
  obtain ⟨hfit, hacc⟩ := h.accepted.getElem hlen i
  refine ⟨?_, hfit, hacc⟩
  by_cases hi : i < r.nelem
  · have hrows := h.accepted.rows_fit (by omega)
    have hbase := getElem_base hi (by omega)
    rcases h.base_ok with ⟨-, h0⟩ | hge
    · omega
    · exact Or.inr (by omega)
  · rw [getElem_of_ge (by omega)]
    exact Or.inl ⟨rfl, rfl⟩

/-- **A hop keeps the invariant**, provided an empty vector it opens fits. -/
theorem InBounds.hop {b : Buffer} {r : Obj} (h : InBounds b r) (hlen : b.len < 2 ^ 63) (s : Hop) :
    ∃ r', hop b r s = some r' ∧ (EmptyFits b r' → InBounds b r') := by
  cases s with
  | ptr i => exact getPtr_of_fits h.elem_fits hlen i
  | elem i => exact ⟨_, rfl, fun _ => h.getElem hlen i⟩

/-! ## Accesses -/

theorem scalarSize_le {sz : Nat} (h : scalarSize sz = true) : 0 < sz ∧ sz ≤ 8 ∧ sz ∣ 2 ^ 64 := by
  simp only [scalarSize, Bool.or_eq_true, beq_iff_eq] at h
  rcases h with ((rfl | rfl) | rfl) | rfl <;> decide

/-- A valid offset whose sum with the width wraps around ends exactly at `2 ^ 64`. -/
theorem wrap_eq {off sz : Nat} (hsz : scalarSize sz = true) (hdvd : sz ∣ off)
    (hoff : off < 2 ^ 64) (hwrap : 2 ^ 64 ≤ off + sz) : off + sz = 2 ^ 64 := by
  obtain ⟨hpos, hle, k, hk⟩ := scalarSize_le hsz
  obtain ⟨j, rfl⟩ := hdvd
  have hlt : j < k := by
    rw [hk] at hoff
    exact Nat.lt_of_mul_lt_mul_left hoff
  have hge : k ≤ j + 1 := by
    rw [hk, ← Nat.mul_succ] at hwrap
    exact Nat.le_of_mul_le_mul_left hwrap hpos
  rw [hk, ← Nat.mul_succ, show j.succ = k by omega]

/-- **When `nbuf_get_int` reads inside the buffer**: always, but for an offset that wraps around
on a null handle. -/
theorem InBounds.getInt_isSome_iff {b : Buffer} {r : Obj} (h : InBounds b r)
    (hlen : b.len < 2 ^ 63) {off sz : Nat} (hsz : scalarSize sz = true) (hdvd : sz ∣ off)
    (hoff : off < 2 ^ 64) :
    (getInt b r off sz).isSome ↔ ¬ (2 ^ 64 ≤ off + sz ∧ r.base = 0) := by
  obtain ⟨hpos, hle, -⟩ := scalarSize_le hsz
  have hfit := h.elem_fits
  rw [r.elemsz_eq] at hfit
  have hassert : sz ≠ 0 ∧ off % sz = 0 := ⟨by omega, Nat.mod_eq_zero_of_dvd hdvd⟩
  have hget : getInt b r off sz = if sizeT (off + sz) ≤ r.ssize
      then readIntSafe b (sizeT (r.base + off)) sz else some 0 := by
    rw [getInt, assertC_pos hassert]
    rfl
  rw [hget]
  by_cases hwrap : 2 ^ 64 ≤ off + sz
  · have heq := wrap_eq hsz hdvd hoff hwrap
    rw [heq, if_pos (show sizeT (2 ^ 64) ≤ r.ssize from Nat.zero_le _),
      readIntSafe_isSome_iff hsz hlen]
    simp only [sizeT]
    rcases h.base_ok with ⟨h0, -⟩ | hge <;> omega
  · rw [sizeT_of_lt (by omega)]
    have hno : ¬ (2 ^ 64 ≤ off + sz ∧ r.base = 0) := fun hc => hwrap hc.1
    by_cases hin : off + sz ≤ r.ssize
    · rw [if_pos hin, sizeT_of_lt (by omega), readIntSafe_isSome_iff hsz hlen]
      exact ⟨fun _ => hno, fun _ => by omega⟩
    · rw [if_neg hin]
      exact ⟨fun _ => hno, fun _ => rfl⟩

theorem InBounds.access_isSome_iff {b : Buffer} {r : Obj} (h : InBounds b r)
    (hlen : b.len < 2 ^ 63) {a : Access} (ha : a.Valid) :
    (access b r a).isSome ↔ ¬ (a.Wraps ∧ r.base = 0) := by
  cases a with
  | int off sz =>
      obtain ⟨hsz, hdvd, hoff⟩ := ha
      simp only [access, Option.isSome_map]
      exact h.getInt_isSome_iff hlen hsz hdvd hoff
  | bit off =>
      have hoff : off < 2 ^ 64 := ha
      have hbyte : (getInt b r (off / 8) 1).isSome :=
        (h.getInt_isSome_iff hlen rfl (one_dvd _) (by omega)).mpr (by omega)
      obtain ⟨v, hv⟩ := Option.isSome_iff_exists.mp hbyte
      simp [access, getBit, hv, Access.Wraps]
  | relPtr i =>
      obtain ⟨rel, hrel⟩ := getRelPtr_of_fits h.elem_fits hlen i
      simp [access, hrel, Access.Wraps]
  | hasPtr i =>
      obtain ⟨rel, hrel⟩ := getRelPtr_of_fits h.elem_fits hlen i
      simp [access, hasPtr, hrel, Access.Wraps]

/-- An empty handle that does not fit has an access that fails. -/
theorem exists_access_fails {b : Buffer} {r : Obj} (hlen : b.len < 2 ^ 63)
    (hbase : r.base ≤ b.len) (hout : b.len < r.base + r.elemsz) :
    ∃ a : Access, a.Valid ∧ ¬ a.Wraps ∧ access b r a = none := by
  have hs := r.ssize_lt
  have hp := r.psize_lt
  rw [r.elemsz_eq] at hout
  by_cases h0 : r.psize = 0
  · -- the last scalar byte lies outside
    refine ⟨.int (r.ssize - 1) 1, ⟨rfl, one_dvd _, by omega⟩, by simp [Access.Wraps]; omega, ?_⟩
    have hread : readIntSafe b (r.base + (r.ssize - 1)) 1 = none := by
      rw [← Option.not_isSome_iff_eq_none, readIntSafe_isSome_iff rfl hlen]
      omega
    have hin : sizeT (r.ssize - 1 + 1) ≤ r.ssize := by rw [sizeT_of_lt (by omega)]; omega
    simp [access, getInt, hin, sizeT_of_lt (show r.base + (r.ssize - 1) < 2 ^ 64 by omega), hread]
  · -- the last pointer slot lies outside
    refine ⟨.relPtr (r.psize - 1), by simp [Access.Valid]; omega, by simp [Access.Wraps], ?_⟩
    have hslot : r.slot (r.psize - 1) = r.base + (r.ssize + (r.psize - 1) * 4) := by
      rw [Obj.slot, r.ptrOffs_eq (by omega), sizeT_of_lt (by omega)]
    have hread : readIntSafe b (r.slot (r.psize - 1)) 4 = none := by
      rw [← Option.not_isSome_iff_eq_none, readIntSafe_isSome_iff rfl hlen, hslot]
      omega
    simp [access, getRelPtr, hread, show ¬ r.psize ≤ r.psize - 1 by omega]

/-! ## The theorem -/

/-- Every empty vector that the chain opens on its way has room for one element. -/
def OpensFit (b : Buffer) (hops : List Hop) : Prop :=
  ∀ r, objInit b Obj.null 0 = some r → EmptyFits b r ∧
    AllSteps (hop b) (fun s h => ∀ s', hop b s h = some s' → EmptyFits b s') r hops

theorem reach_inBounds {b : Buffer} (hlen : b.len < 2 ^ 63) {hops : List Hop}
    (h : OpensFit b hops) : ∃ r, reach b hops = some r ∧ InBounds b r := by
  obtain ⟨r0, hr0, hroot⟩ := objInit_inBounds hlen 0
  obtain ⟨hfit, hsteps⟩ := h r0 hr0
  have hstep : ∀ s x, InBounds b s → (∀ s', hop b s x = some s' → EmptyFits b s') →
      ∃ s', hop b s x = some s' ∧ InBounds b s' := by
    intro s x hs hx
    obtain ⟨s', hs', hinv⟩ := hs.hop hlen x
    exact ⟨s', hs', hinv (hx s' hs')⟩
  obtain ⟨r, hr, hinv⟩ := run_invariant hstep (hroot hfit) hsteps
  exact ⟨r, by rw [reach, hr0]; exact hr, hinv⟩

theorem OpensFit.of_prefix {b : Buffer} {p hops : List Hop} (h : OpensFit b hops)
    (hp : p <+: hops) : OpensFit b p := by
  obtain ⟨q, rfl⟩ := hp
  exact fun r hr => ⟨(h r hr).1, (h r hr).2.of_append⟩

/-- What an opened handle satisfies even when it is empty and does not fit. -/
theorem objInit_accepted {b : Buffer} {base : Nat} {r : Obj} (hlen : b.len < 2 ^ 63)
    (h : objInit b Obj.null base = some r) : r.base ≤ b.len ∧ r.Accepted b := by
  by_cases hin : base + 8 ≤ b.len
  · rw [objInit_in Obj.null hlen hin, Option.some.injEq] at h
    subst h
    split_ifs with hacc
    · exact ⟨hin, hacc⟩
    · exact ⟨Nat.zero_le _, (inBounds_null b).accepted⟩
  · rw [objInit_out hlen (by omega), Option.some.injEq] at h
    subst h
    exact ⟨Nat.zero_le _, (inBounds_null b).accepted⟩

theorem getPtr_accepted {b : Buffer} {r r' : Obj} {i : Nat} (hlen : b.len < 2 ^ 63)
    (h : getPtr b r i = some r') : r'.base ≤ b.len ∧ r'.Accepted b := by
  have hnull : Obj.null.base ≤ b.len ∧ Obj.null.Accepted b :=
    ⟨Nat.zero_le _, (inBounds_null b).accepted⟩
  simp only [getPtr, Option.bind_eq_bind, Option.bind_eq_some_iff] at h
  obtain ⟨rel, -, h⟩ := h
  split_ifs at h
  · exact objInit_accepted hlen h
  · cases h
    exact hnull
  · cases h
    exact hnull

/-- Every handle a client can reach lies inside the buffer. -/
theorem reach_accepted {b : Buffer} (hlen : b.len < 2 ^ 63) {hops : List Hop} {r : Obj}
    (h : reach b hops = some r) : r.base ≤ b.len ∧ r.Accepted b := by
  rw [reach, Option.bind_eq_some_iff] at h
  obtain ⟨r0, hr0, hrun⟩ := h
  refine run_preserves (fun r => r.base ≤ b.len ∧ r.Accepted b)
    (fun s x s' hs hstep => ?_) (objInit_accepted hlen hr0) hrun
  cases x with
  | ptr i => exact getPtr_accepted hlen hstep
  | elem i =>
      cases hstep
      obtain ⟨hfit, hacc⟩ := hs.2.getElem hlen i
      exact ⟨Nat.le_trans (Nat.le_add_right _ _) hfit, hacc⟩

/-- An open handle whose accesses all succeed fits. -/
theorem emptyFits_of_accesses {b : Buffer} {r : Obj} (hlen : b.len < 2 ^ 63)
    (hbase : r.base ≤ b.len)
    (h : ∀ a : Access, a.Valid → ¬ a.Wraps → (access b r a).isSome) : EmptyFits b r := by
  intro _
  by_contra hout
  obtain ⟨a, hvalid, hwrap, hfail⟩ := exists_access_fails hlen hbase (Nat.lt_of_not_le hout)
  have := h a hvalid hwrap
  rw [hfail] at this
  exact absurd this (by decide)

theorem allSteps_of_accesses {b : Buffer} (hlen : b.len < 2 ^ 63) {hops : List Hop} {r : Obj}
    (hr : InBounds b r)
    (h : ∀ p r', p <+: hops → run (hop b) r p = some r' →
      ∀ a : Access, a.Valid → ¬ a.Wraps → (access b r' a).isSome) :
    AllSteps (hop b) (fun s x => ∀ s', hop b s x = some s' → EmptyFits b s') r hops := by
  induction hops generalizing r with
  | nil => trivial
  | cons x hops ih =>
      obtain ⟨r1, hr1, hinv⟩ := hr.hop hlen x
      have hacc : ∀ a : Access, a.Valid → ¬ a.Wraps → (access b r1 a).isSome :=
        h [x] r1 ⟨hops, rfl⟩ (by rw [run_cons_of_eq hr1]; rfl)
      have hfit : EmptyFits b r1 := by
        cases x with
        | ptr i => exact emptyFits_of_accesses hlen (getPtr_accepted hlen hr1).1 hacc
        | elem i =>
            have hin := hr.getElem hlen i
            cases hr1
            exact fun _ => hin.elem_fits
      refine ⟨fun s' hs' => ?_, fun s' hs' => ?_⟩
      · rw [hr1, Option.some.injEq] at hs'
        exact hs' ▸ hfit
      · rw [hr1, Option.some.injEq] at hs'
        subst hs'
        refine ih (hinv hfit) fun p r' hp hrun => ?_
        obtain ⟨q, rfl⟩ := hp
        exact h (x :: p) r' ⟨q, rfl⟩ (by rw [run_cons_of_eq hr1, hrun])

/-- `nbuf_get_int` with an offset whose end wraps around, on a null handle. -/
def NullWrap (b : Buffer) (hops : List Hop) (a : Access) : Prop :=
  a.Wraps ∧ ∃ r, reach b hops = some r ∧ r.base = 0

/-- **Reads of an untrusted buffer.** Along a chain of calls every valid access succeeds, but for
the wrapping offset on a null handle, if and only if every empty vector the chain opens has room
for one element. -/
theorem reads_inside_iff (block : ByteBlock) (hops : List Hop) :
    (∀ p, p <+: hops → ∀ a : Access, a.Valid →
      ((readAt (initRead block) p a).isSome ↔ ¬ NullWrap (initRead block) p a)) ↔
    OpensFit (initRead block) hops := by
  have hlen : (initRead block).len < 2 ^ 63 := block.length_lt
  generalize initRead block = b at *
  constructor
  · intro hsafe r hr
    have hacc : ∀ p r', p <+: hops → run (hop b) r p = some r' →
        ∀ a : Access, a.Valid → ¬ a.Wraps → (access b r' a).isSome := by
      intro p r' hp hrun a ha hwrap
      have hreach : reach b p = some r' := by rw [reach, hr]; exact hrun
      have := (hsafe p hp a ha).mpr fun hc => hwrap hc.1
      rwa [readAt, hreach] at this
    have hfit : EmptyFits b r :=
      emptyFits_of_accesses hlen (objInit_accepted hlen hr).1 (hacc [] r (List.nil_prefix) rfl)
    obtain ⟨r0, hr0, hroot⟩ := objInit_inBounds hlen 0
    rw [hr, Option.some.injEq] at hr0
    subst hr0
    exact ⟨hfit, allSteps_of_accesses hlen (hroot hfit) hacc⟩
  · intro hfit p hp a ha
    obtain ⟨r, hr, hinv⟩ := reach_inBounds hlen (hfit.of_prefix hp)
    have hread : readAt b p a = access b r a := by rw [readAt, hr]; rfl
    have hnull : NullWrap b p a ↔ (a.Wraps ∧ r.base = 0) := by
      simp [NullWrap, hr]
    rw [hread, hnull]
    exact hinv.access_isSome_iff hlen ha

/-- A header that announces no elements of 8 scalar bytes, at the end of the buffer: reading the
first number of the root object fails the bounds assertion. -/
theorem empty_root_read_fails : (Access.int 0 8).Valid ∧
    readAt (initRead ⟨[0, 0, 0, 0, 8, 0, 0, 0], by decide⟩) [] (.int 0 8) = none :=
  ⟨⟨rfl, by decide, by decide⟩, by decide⟩

/-! ## Strings

`nbuf_get_str` takes the number of elements of the object it finds for a number of bytes. -/

/-- `nbuf_get_str` does not stop, and it returns `""` or a pointer to `len + 1` bytes inside the
buffer. -/
def StrInside (b : Buffer) (r : Obj) (i : Nat) : Prop :=
  ∃ s, getStr b r i = some s ∧
    (s = ⟨none, 0⟩ ∨ ∃ k, s.pos = some k ∧ k + (s.len + 1) ≤ b.len)

/-- An accepted object has a byte for each element, unless it is a vector of bits. -/
theorem Obj.Accepted.nelem_fits {b : Buffer} {r : Obj} (h : r.Accepted b) (hn : 0 < r.nelem)
    (h0 : r.elemsz ≠ 0) : r.base + r.nelem ≤ b.len := by
  obtain ⟨-, hfit⟩ := h hn
  rw [r.totalsz_of_pos h0] at hfit
  have := Nat.le_mul_of_pos_left r.nelem (Nat.pos_of_ne_zero h0)
  omega

/-- **Strings in an untrusted buffer.** From every handle with elements that a client can reach,
`nbuf_get_str` stays inside the buffer if and only if the slot does not lead to a vector of bits
that has more bits than there are bytes behind its header. -/
theorem getStr_inside_iff (block : ByteBlock) (hops : List Hop) {r : Obj}
    (hr : reach (initRead block) hops = some r) (hn : 1 ≤ r.nelem) (i : Nat) :
    StrInside (initRead block) r i ↔ ∀ rr, getPtr (initRead block) r i = some rr →
      rr.ssize = 0 → rr.psize = 0 → rr.base + rr.nelem ≤ (initRead block).len := by
  have hlen : (initRead block).len < 2 ^ 63 := block.length_lt
  generalize initRead block = b at *
  have hacc := (reach_accepted hlen hr).2
  obtain ⟨rr, hrr, -⟩ := getPtr_of_fits (hacc.elem_fits hn) hlen i
  obtain ⟨hbase, hacc'⟩ := getPtr_accepted hlen hrr
  have hnelem := rr.nelem_lt
  have hget : getStr b r i = if rr.nelem > 0 then (do
      assertC (boundsCheck b (sizeT (rr.base + rr.nelem - 1)) 1 = true)
      pure ⟨some rr.base, rr.nelem - 1⟩) else some ⟨none, 0⟩ := by
    simp only [getStr, hrr, Option.bind_eq_bind, Option.bind_some]
    rfl
  have hiff : StrInside b r i ↔ rr.base + rr.nelem ≤ b.len := by
    unfold StrInside
    rw [hget]
    by_cases hpos : rr.nelem > 0
    · rw [if_pos hpos, sizeT_of_lt (by omega)]
      have hcheck : boundsCheck b (rr.base + rr.nelem - 1) 1 = true ↔ rr.base + rr.nelem ≤ b.len := by
        rw [boundsCheck_of_len_lt hlen (by decide)]
        omega
      constructor
      · rintro ⟨s, hs, -⟩
        rw [assertC_bind_eq_some] at hs
        exact hcheck.mp hs.1
      · intro hfit
        refine ⟨⟨some rr.base, rr.nelem - 1⟩, ?_, Or.inr ⟨rr.base, rfl, ?_⟩⟩
        · rw [assertC_bind_eq_some]
          exact ⟨hcheck.mpr hfit, rfl⟩
        · show rr.base + (rr.nelem - 1 + 1) ≤ b.len
          omega
    · rw [if_neg hpos]
      exact ⟨fun _ => by omega, fun _ => ⟨⟨none, 0⟩, rfl, Or.inl rfl⟩⟩
  rw [hiff]
  constructor
  · intro hfit rr' hrr' _ _
    rw [hrr, Option.some.injEq] at hrr'
    exact hrr' ▸ hfit
  · intro hcond
    by_cases hpos : rr.nelem > 0
    · by_cases h0 : rr.elemsz = 0
      · obtain ⟨hs, hp⟩ := rr.elemsz_eq_zero_iff.mp h0
        exact hcond rr hrr hs hp
      · exact hacc'.nelem_fits hpos h0
    · omega

/-- A message with one pointer to the string `ab`. -/
def strBlock : ByteBlock :=
  ⟨[1, 0, 0, 0, 0, 0, 1, 0, 1, 0, 0, 0, 3, 0, 0, 0, 1, 0, 0, 0, 97, 98, 0], by decide⟩

theorem strBlock_inside : StrInside (initRead strBlock) (Obj.ofFields 8 1 0 1) 0 := by
  refine (getStr_inside_iff strBlock [] (by decide) (by decide) 0).mpr fun rr hrr => ?_
  have hptr : getPtr (initRead strBlock) (Obj.ofFields 8 1 0 1) 0 = some (Obj.ofFields 20 3 1 0) := by
    decide
  rw [hptr, Option.some.injEq] at hrr
  subst hrr
  decide

/-- A message with one pointer to a vector of eight bits. -/
def bitsBlock : ByteBlock :=
  ⟨[1, 0, 0, 0, 0, 0, 1, 0, 1, 0, 0, 0, 8, 0, 0, 0, 0, 0, 0, 0, 1], by decide⟩

/-- **A vector of eight bits** in one byte fails the bounds assertion as a string. -/
theorem bitsBlock_str_fails : reach (initRead bitsBlock) [] = some (Obj.ofFields 8 1 0 1) ∧
    ¬ StrInside (initRead bitsBlock) (Obj.ofFields 8 1 0 1) 0 := by
  have hget : getStr (initRead bitsBlock) (Obj.ofFields 8 1 0 1) 0 = none := by decide
  refine ⟨by decide, ?_⟩
  rintro ⟨s, hs, -⟩
  rw [hget] at hs
  cases hs

end Nbuf
