import Nbuf.Wire.ReaderSafety

set_option autoImplicit false

/-! # Where pointers lead

A pointer word is a signed number of 4-byte words, counted from its own slot. The reader adds
it with 64-bit wrap-around; this file says where it ends up. A positive word leads forward, and
a negative one leads back when its target opens. The format forbids negative words so that an
object graph has no cycle, but the reader does not check.
-/

namespace Nbuf

open Run

theorem bmod_four_range (n : Int) : -2 ^ 31 ≤ n.bmod (256 ^ 4) ∧ n.bmod (256 ^ 4) < 2 ^ 31 := by
  have hm : ((256 ^ 4 : Nat) : Int) = 2 ^ 32 := by norm_num
  have h1 := Int.le_bmod (x := n) (m := 256 ^ 4) (by decide)
  have h2 := Int.bmod_lt (x := n) (m := 256 ^ 4) (by decide)
  rw [hm] at h1 h2
  omega

theorem readIntSafe_range {b : Buffer} {k : Nat} {v : Int} (h : readIntSafe b k 4 = some v) :
    -2 ^ 31 ≤ v ∧ v < 2 ^ 31 := by
  rw [readIntSafe, assertC_bind_eq_some] at h
  have h := h.2
  rw [readIntUnsafe, assertC_bind_eq_some] at h
  have h := h.2
  rw [assertC_bind_eq_some] at h
  have hv := Option.some.inj h.2
  exact hv ▸ bmod_four_range _

theorem readIntSafe_le {b : Buffer} {k : Nat} {v : Int} (hlen : b.len < 2 ^ 63)
    (h : readIntSafe b k 4 = some v) : k + 4 ≤ b.len :=
  (readIntSafe_isSome_iff rfl hlen).mp (by rw [h]; rfl)

/-- The 64-bit address computation of `_nbuf_get_ptr`. -/
theorem target_eq {slot : Nat} {v : Int} (hslot : slot < 2 ^ 63) (h1 : -2 ^ 31 ≤ v)
    (h2 : v < 2 ^ 31) (x : Nat) (hx : sizeT x = slot) :
    (sizeT (sizeT (toU64 v * 4) + x) : Int)
      = if 0 ≤ (slot : Int) + 4 * v then (slot : Int) + 4 * v else 2 ^ 64 + (slot + 4 * v) := by
  simp only [sizeT, toU64] at *
  split_ifs <;> omega

/-- **Following a pointer** whose word is `v`: the target lies `4 * v` bytes from the slot. -/
theorem getPtr_eq {b : Buffer} {r : Obj} {i : Nat} {v : Int} (hlen : b.len < 2 ^ 63)
    (hi : i < r.psize) (hv : readIntSafe b (r.slot i) 4 = some v) :
    getPtr b r i = if v ≠ 0 ∧ 0 ≤ (r.slot i : Int) + 4 * v ∧ (r.slot i : Int) + 4 * v < b.len
      then objInit b Obj.null ((r.slot i : Int) + 4 * v).toNat else some Obj.null := by
  obtain ⟨h1, h2⟩ := readIntSafe_range hv
  have hfit := readIntSafe_le hlen hv
  have htarget := target_eq (show r.slot i < 2 ^ 63 by omega) h1 h2 _ rfl
  have hrel : getRelPtr b r i = some (toU64 v) := by
    rw [getRelPtr, if_neg (by omega), hv]
    rfl
  have hzero : sizeT (toU64 v * 4) ≠ 0 ↔ v ≠ 0 := by
    simp only [sizeT, toU64]
    omega
  simp only [getPtr, hrel, Option.bind_eq_bind, Option.bind_some]
  by_cases h0 : v = 0
  · rw [if_neg (by simpa using hzero.not.mpr (by simpa using h0)), if_neg (by simp [h0])]
    rfl
  · rw [if_pos (hzero.mpr h0)]
    by_cases hpos : 0 ≤ (r.slot i : Int) + 4 * v
    · rw [if_pos hpos] at htarget
      have hnat : sizeT (sizeT (toU64 v * 4) + (r.base + r.ptrOffs i))
          = ((r.slot i : Int) + 4 * v).toNat := by omega
      rw [hnat]
      by_cases hin : (r.slot i : Int) + 4 * v < b.len
      · rw [if_pos (by omega), if_pos ⟨h0, hpos, hin⟩]
      · rw [if_neg (by omega), if_neg (by omega)]
        rfl
    · rw [if_neg hpos] at htarget
      rw [if_neg (by omega), if_neg (by omega)]
      rfl

theorem getPtr_of_ge {b : Buffer} {r : Obj} {i : Nat} (h : r.psize ≤ i) :
    getPtr b r i = some Obj.null := by
  simp [getPtr, getRelPtr_of_ge h, sizeT]

/-- `nbuf_obj_init` accepts the header at `k`. -/
def Opens (b : Buffer) (k : Nat) : Prop :=
  k + 8 ≤ b.len ∧ (hdrObj (k + 8) (b.mem.load k 8)).Accepted b

/-- Opening at a position that does not open leaves a null handle. -/
theorem objInit_base {b : Buffer} {k : Nat} (hlen : b.len < 2 ^ 63) {r : Obj}
    (h : objInit b Obj.null k = some r) :
    (Opens b k ∧ r.base = k + 8) ∨ (¬ Opens b k ∧ r = Obj.null) := by
  by_cases hin : k + 8 ≤ b.len
  · rw [objInit_in Obj.null hlen hin, Option.some.injEq] at h
    subst h
    by_cases hacc : (hdrObj (k + 8) (b.mem.load k 8)).Accepted b
    · exact Or.inl ⟨⟨hin, hacc⟩, by rw [if_pos hacc]; rfl⟩
    · exact Or.inr ⟨fun h => hacc h.2, if_neg hacc⟩
  · rw [objInit_out hlen (by omega), Option.some.injEq] at h
    exact Or.inr ⟨fun hc => hin hc.1, h.symm⟩

/-- **A pointer leads behind its slot** or it is null, unless its word is negative and its target
opens. -/
theorem getPtr_forward_or_back {b : Buffer} {r rr : Obj} {i : Nat} (hlen : b.len < 2 ^ 63)
    (h : getPtr b r i = some rr) (hne : rr.base ≠ 0) :
    i < r.psize ∧ ∃ (v : Int) (k : Nat), readIntSafe b (r.slot i) 4 = some v ∧ v ≠ 0 ∧
      (k : Int) = r.slot i + 4 * v ∧ Opens b k ∧ rr.base = k + 8 := by
  by_cases hi : i < r.psize
  · refine ⟨hi, ?_⟩
    cases hv : readIntSafe b (r.slot i) 4 with
    | none =>
        rw [getPtr, getRelPtr, if_neg (by omega), hv] at h
        cases h
    | some v =>
        rw [getPtr_eq hlen hi hv] at h
        split_ifs at h with hc
        · rcases objInit_base hlen h with ⟨hopen, hbase⟩ | ⟨-, rfl⟩
          · exact ⟨v, _, rfl, hc.1, Int.toNat_of_nonneg hc.2.1, hopen, hbase⟩
          · exact absurd rfl hne
        · cases h
          exact absurd rfl hne
  · rw [getPtr_of_ge (by omega)] at h
    cases h
    exact absurd rfl hne

/-! ## Buffers without backward references -/

/-- Every non-null handle `nbuf_get_ptr` returns from a reachable handle has its header behind the
slot it was read from. -/
def PointsForward (b : Buffer) : Prop :=
  ∀ hops r i rr, reach b hops = some r → getPtr b r i = some rr → rr.base ≠ 0 →
    r.slot i < rr.base - 8

/-- No reachable slot holds a negative word that leads to an object. -/
def NoBackWord (b : Buffer) : Prop :=
  ∀ hops r i v, reach b hops = some r → i < r.psize → readIntSafe b (r.slot i) 4 = some v →
    v < 0 → ∀ k : Nat, (k : Int) = r.slot i + 4 * v → ¬ Opens b k

theorem pointsForward_iff {b : Buffer} (hlen : b.len < 2 ^ 63) :
    PointsForward b ↔ NoBackWord b := by
  constructor
  · intro hfwd hops r i v hr hi hv hneg k hk hopen
    have hfit := readIntSafe_le hlen hv
    have hin : (k : Int) < b.len := by
      have := hopen.1
      omega
    have hget : getPtr b r i = objInit b Obj.null k := by
      rw [getPtr_eq hlen hi hv, if_pos (by omega), ← hk]
      rfl
    obtain ⟨rr, hrr, -⟩ := objInit_inBounds hlen k
    rcases objInit_base hlen hrr with ⟨-, hbase⟩ | ⟨hno, -⟩
    · have := hfwd hops r i rr hr (hget.trans hrr) (by omega)
      omega
    · exact hno hopen
  · intro hno hops r i rr hr hget hne
    obtain ⟨hi, v, k, hv, h0, hk, hopen, hbase⟩ := getPtr_forward_or_back hlen hget hne
    have hpos : 0 < v := by
      by_contra hneg
      exact hno hops r i v hr hi hv (by omega) k hk hopen
    omega

theorem reach_snoc {b : Buffer} {hops : List Hop} {r r' : Obj} {x : Hop}
    (hr : reach b hops = some r) (hx : hop b r x = some r') : reach b (hops ++ [x]) = some r' := by
  rw [reach, Option.bind_eq_some_iff] at hr
  obtain ⟨r0, hr0, hrun⟩ := hr
  rw [reach, hr0, Option.bind_some, run_append_of_eq hrun, run_cons_of_eq hx]
  rfl

end Nbuf
