import Nbuf.Wire.Buffer

set_option autoImplicit false

/-! # The growth loop of a buffer (`nbuf_reserve`)

The loop doubles a `size_t` until the free space is large enough, and takes a product of `0`
for an overflow. A capacity with more than one bit set does not double to `0` but to smaller
numbers first. Such a number can lie below the length of the buffer; the free space computed
from it is then close to `2 ^ 64`, the loop ends, and the caller is told that there is room
(`reserve_grown_iff`). A power of two never comes to that (`growthFits_of_pow`).
-/

namespace Nbuf

/-! ## The capacities the loop comes to -/

/-- The capacity after `j` rounds. -/
def doubledCap (cap j : Nat) : Nat := sizeT (cap * 2 ^ j)

/-- The capacity the loop starts from: `NBUF_ALLOC_MIN` for a buffer without memory. -/
def startCap (b : Buffer) : Nat := if b.cap = 0 then 64 else b.cap

theorem doubledCap_zero {cap : Nat} (h : cap < 2 ^ 64) : doubledCap cap 0 = cap := by
  rw [doubledCap, pow_zero, Nat.mul_one, sizeT_of_lt h]

theorem doubledCap_succ (cap j : Nat) : doubledCap (sizeT (cap * 2)) j = doubledCap cap (j + 1) := by
  have hpow : cap * 2 * 2 ^ j = cap * 2 ^ (j + 1) := by ring
  rw [doubledCap, doubledCap, ← hpow]
  exact (Nat.mod_mul_mod _ _ _)

/-- After a product of `0` every further product is `0`. -/
theorem doubledCap_eq_zero_of_le {cap i j : Nat} (h : doubledCap cap i = 0) (hij : i ≤ j) :
    doubledCap cap j = 0 := by
  obtain ⟨k, rfl⟩ := Nat.exists_eq_add_of_le hij
  apply Nat.mod_eq_zero_of_dvd
  have hdvd : 2 ^ 64 ∣ cap * 2 ^ i := Nat.dvd_of_mod_eq_zero h
  rw [pow_add, ← Nat.mul_assoc]
  exact Dvd.dvd.mul_right hdvd _

theorem szSub_of_lt {a b : Nat} (h : a < b) (hb : b < 2 ^ 64) : szSub a b = 2 ^ 64 + a - b := by
  simp only [szSub, sizeT]
  omega

/-- **The loop ends.** It stops after the first `j` rounds whose capacity is `0` or leaves the
free space that was asked for, computed modulo `2 ^ 64`. -/
theorem growCap_first (len inc : Nat) :
    ∀ fuel cap, cap < 2 ^ 64 → cap ≠ 0 → 2 ^ 64 ∣ cap * 2 ^ fuel →
      ∃ j, (∀ i < j, szSub (doubledCap cap i) len < inc) ∧
        (growCap len inc fuel cap = some none ∧ doubledCap cap j = 0 ∨
          growCap len inc fuel cap = some (some (doubledCap cap j)) ∧ doubledCap cap j ≠ 0 ∧
            inc ≤ szSub (doubledCap cap j) len) := by
  intro fuel
  induction fuel with
  | zero =>
      intro cap hlt hne hdvd
      rw [pow_zero, Nat.mul_one] at hdvd
      exact absurd (Nat.le_of_dvd (Nat.pos_of_ne_zero hne) hdvd) (Nat.not_le.mpr hlt)
  | succ fuel ih =>
      intro cap hlt hne hdvd
      rw [growCap]
      by_cases hfit : inc > szSub cap len
      · rw [if_pos hfit]
        have hfirst : szSub (doubledCap cap 0) len < inc := by rwa [doubledCap_zero hlt]
        by_cases hzero : sizeT (cap * 2) = 0
        · refine ⟨1, ?_, Or.inl ⟨by rw [if_pos hzero], ?_⟩⟩
          · intro i hi
            rwa [Nat.lt_one_iff.mp hi]
          · rw [doubledCap, pow_one, hzero]
        · rw [if_neg hzero]
          have hdvd' : 2 ^ 64 ∣ sizeT (cap * 2) * 2 ^ fuel := by
            have h : doubledCap (sizeT (cap * 2)) fuel = 0 := by
              rw [doubledCap_succ]
              exact Nat.mod_eq_zero_of_dvd hdvd
            exact Nat.dvd_of_mod_eq_zero h
          obtain ⟨j, hmiss, hstop⟩ := ih (sizeT (cap * 2)) (sizeT_lt _) hzero hdvd'
          refine ⟨j + 1, ?_, ?_⟩
          · intro i hi
            cases i with
            | zero => exact hfirst
            | succ i =>
                rw [← doubledCap_succ]
                exact hmiss i (by omega)
          · rw [← doubledCap_succ]
            exact hstop
      · refine ⟨0, by omega, Or.inr ?_⟩
        rw [if_neg hfit, doubledCap_zero hlt]
        exact ⟨rfl, hne, Nat.not_lt.mp hfit⟩

/-- From a power of two the loop comes to the least one with the room. -/
theorem growCap_pow {len inc : Nat} (h : len + inc ≤ 2 ^ 63) :
    ∀ fuel k, len ≤ 2 ^ k → k < 64 → 64 ≤ k + fuel →
      growCap len inc fuel (2 ^ k) = some (some (2 ^ max k (Nat.clog 2 (len + inc)))) := by
  intro fuel
  induction fuel with
  | zero => intro k _ hk hfuel; omega
  | succ fuel ih =>
      intro k hlen hk hfuel
      have hpow : 2 ^ k < 2 ^ 64 := Nat.pow_lt_pow_right (by decide) hk
      rw [growCap, szSub_of_le hlen hpow]
      by_cases hroom : len + inc ≤ 2 ^ k
      · have hlog : Nat.clog 2 (len + inc) ≤ k := Nat.clog_le_of_le_pow hroom
        rw [if_neg (by omega), Nat.max_eq_left hlog]
      · have hlog : k < Nat.clog 2 (len + inc) :=
          (Nat.lt_clog_iff_pow_lt (by decide)).mpr (by omega)
        have hk' : k < 63 := by
          by_contra hbig
          have : 2 ^ 63 ≤ 2 ^ k := Nat.pow_le_pow_right (by decide) (by omega)
          omega
        have hpow' : 2 ^ k < 2 ^ 63 := Nat.pow_lt_pow_right (by decide) hk'
        have hsucc : 2 ^ (k + 1) = 2 ^ k * 2 := pow_succ 2 k
        rw [if_pos (by omega), sizeT_of_lt (by omega), if_neg (by positivity), ← hsucc,
          ih (k + 1) (by omega) (by omega) (by omega), Nat.max_eq_right hlog,
          Nat.max_eq_right (show k ≤ _ by omega)]

/-! ## The result of a reservation -/

/-- What a caller relies on: a granted request leaves room for `inc` more bytes behind the old
ones, a refused one changes nothing. -/
def Grown (b : Buffer) (inc : Nat) : Bool × Buffer → Prop
  | (true, b') => b.cap ≤ b'.cap ∧ b.len + inc ≤ b'.cap ∧ b'.len = b.len ∧
      ∀ i < b.len, b'.mem i = b.mem i
  | (false, b') => b' = b

/-- No capacity on the way is a remainder below the length that passes for a large one: where
the free space computed from it is no less than `inc`, an earlier capacity had the room. -/
def GrowthFits (b : Buffer) (inc : Nat) : Prop :=
  ∀ j, 0 < doubledCap (startCap b) j → doubledCap (startCap b) j < b.len →
    b.len + inc ≤ 2 ^ 64 + doubledCap (startCap b) j →
      ∃ i < j, b.len + inc ≤ doubledCap (startCap b) i

theorem le_szSub_of_le {len inc c : Nat} (h : len + inc ≤ c) (hc : c < 2 ^ 64) :
    inc ≤ szSub c len := by
  rw [szSub_of_le (by omega) hc]
  omega

/-- The condition, seen from the round in which the loop stops. -/
theorem growthFits_iff_of_stop {b : Buffer} {inc j : Nat} (hlen : b.len < 2 ^ 64)
    (hmiss : ∀ i < j, szSub (doubledCap (startCap b) i) b.len < inc)
    (hstop : doubledCap (startCap b) j = 0 ∨ inc ≤ szSub (doubledCap (startCap b) j) b.len) :
    GrowthFits b inc ↔
      doubledCap (startCap b) j = 0 ∨ b.len ≤ doubledCap (startCap b) j := by
  constructor
  · intro hfits
    by_contra hbad
    rw [not_or] at hbad
    have hlow : doubledCap (startCap b) j < b.len := by omega
    have hroom := hstop.resolve_left hbad.1
    rw [szSub_of_lt hlow hlen] at hroom
    obtain ⟨i, hi, hearlier⟩ := hfits j (Nat.pos_of_ne_zero hbad.1) hlow (by omega)
    have := le_szSub_of_le hearlier (sizeT_lt _)
    have := hmiss i hi
    omega
  · intro hgood k hpos hlow hroom
    -- A remainder below the length would have stopped the loop no later than round `j`.
    have hk : j < k := by
      by_contra hle
      rcases Nat.lt_or_eq_of_le (Nat.not_lt.mp hle) with hlt | rfl
      · have := hmiss k hlt
        rw [szSub_of_lt hlow hlen] at this
        omega
      · omega
    have hne : doubledCap (startCap b) j ≠ 0 := fun h0 =>
      hpos.ne' (doubledCap_eq_zero_of_le h0 (Nat.le_of_lt hk))
    have hle := hgood.resolve_left hne
    have hfit := hstop.resolve_left hne
    rw [szSub_of_le hle (sizeT_lt _)] at hfit
    exact ⟨j, hk, by omega⟩

theorem startCap_lt {b : Buffer} (h : b.cap < 2 ^ 64) : startCap b < 2 ^ 64 := by
  rw [startCap]
  split
  · decide
  · exact h

theorem cap_le_startCap (b : Buffer) : b.cap ≤ startCap b := by
  rw [startCap]
  split <;> omega

theorem startCap_of_le {b : Buffer} (h : startCap b ≤ b.cap) : startCap b = b.cap :=
  Nat.le_antisymm h (cap_le_startCap b)

theorem startCap_ne_zero (b : Buffer) : startCap b ≠ 0 := by
  rw [startCap]
  split
  · decide
  · assumption

theorem dvd_startCap (b : Buffer) : 2 ^ 64 ∣ startCap b * 2 ^ 65 :=
  Dvd.dvd.mul_left (pow_dvd_pow 2 (by decide)) _

theorem reserve_of_none {a : Realloc} {b : Buffer} {inc : Nat} (hlen : b.len ≤ b.cap)
    (hgrow : growCap b.len inc 65 (startCap b) = some none) :
    reserve a b inc = some (false, b) := by
  rw [startCap] at hgrow
  simp [reserve, hlen, hgrow]

theorem reserve_of_some {a : Realloc} {b : Buffer} {inc cap : Nat} (hlen : b.len ≤ b.cap)
    (hgrow : growCap b.len inc 65 (startCap b) = some (some cap)) :
    reserve a b inc =
      if cap > b.cap then
        match a cap with
        | none => some (false, b)
        | some fresh =>
            some (true, { b with mem := ByteMem.copy fresh 0 b.mem 0 b.cap, cap := cap })
      else some (true, b) := by
  rw [startCap] at hgrow
  simp only [reserve, assertC_pos hlen, hgrow]
  rfl

/-- A larger capacity has the room it was found to have. -/
theorem grown_of_lt {a : Realloc} {b : Buffer} {inc cap : Nat} (hlen : b.len ≤ b.cap)
    (hgrow : growCap b.len inc 65 (startCap b) = some (some cap)) (hmore : b.cap < cap)
    (hcap : cap < 2 ^ 64) (hroom : inc ≤ szSub cap b.len) :
    ∃ r, reserve a b inc = some r ∧ Grown b inc r := by
  rw [reserve_of_some hlen hgrow, if_pos hmore]
  cases a cap with
  | none => exact ⟨(false, b), rfl, rfl⟩
  | some fresh =>
      rw [szSub_of_le (by omega) hcap] at hroom
      refine ⟨_, rfl, Nat.le_of_lt hmore, ?_, rfl, ?_⟩
      · show b.len + inc ≤ cap
        omega
      · intro i hi
        calc ByteMem.copy fresh 0 b.mem 0 b.cap i
            = b.mem (0 + (i - 0)) :=
              ByteMem.copy_inside fresh b.mem 0 (Nat.zero_le i) (by omega)
          _ = b.mem i := by rw [Nat.zero_add, Nat.sub_zero]

/-- **The growth loop ends for every capacity, length and request; the reservation does what its
result says exactly if no remainder below the length is taken for room.** -/
theorem reserve_grown_iff (a : Realloc) {b : Buffer} {inc : Nat} (hlen : b.len ≤ b.cap)
    (hcap : b.cap < 2 ^ 64) :
    ∃ r, reserve a b inc = some r ∧ (Grown b inc r ↔ GrowthFits b inc) := by
  obtain ⟨j, hmiss, hend⟩ := growCap_first b.len inc 65 (startCap b) (startCap_lt hcap)
    (startCap_ne_zero b) (dvd_startCap b)
  rcases hend with ⟨hgrow, hzero⟩ | ⟨hgrow, hne, hroom⟩
  · have hfits := (growthFits_iff_of_stop (by omega) hmiss (Or.inl hzero)).mpr (Or.inl hzero)
    exact ⟨(false, b), reserve_of_none hlen hgrow, iff_of_true rfl hfits⟩
  · rw [growthFits_iff_of_stop (by omega) hmiss (Or.inr hroom)]
    by_cases hmore : b.cap < doubledCap (startCap b) j
    · obtain ⟨r, hr, hgrown⟩ := grown_of_lt hlen hgrow hmore (sizeT_lt _) hroom
      exact ⟨r, hr, iff_of_true hgrown (Or.inr (by omega))⟩
    · -- The buffer stays as it is: there is room exactly if the loop stops at once.
      refine ⟨(true, b), by rw [reserve_of_some hlen hgrow, if_neg hmore], ?_⟩
      have hgrown : Grown b inc (true, b) ↔ b.len + inc ≤ b.cap := by simp [Grown]
      rw [hgrown]
      cases j with
      | zero =>
          rw [doubledCap_zero (startCap_lt hcap)] at hroom hmore ⊢
          have hstart : startCap b = b.cap := startCap_of_le (Nat.not_lt.mp hmore)
          rw [hstart, szSub_of_le hlen hcap] at hroom
          omega
      | succ j =>
          have hfirst := hmiss 0 (Nat.succ_pos j)
          rw [doubledCap_zero (startCap_lt hcap)] at hfirst
          have hcap0 : b.cap ≠ 0 := by omega
          rw [startCap, if_neg hcap0, szSub_of_le hlen hcap] at hfirst
          refine iff_of_false (by omega) (not_or.mpr ⟨hne, ?_⟩)
          intro hle
          rw [szSub_of_le hle (sizeT_lt _)] at hroom
          omega

/-- A request that ends in the lower half of the address space meets the condition. -/
theorem growthFits_of_le {b : Buffer} {inc : Nat} (h : b.len + inc ≤ 2 ^ 63) (hlen : b.len ≤ b.cap)
    (hcap : b.cap < 2 ^ 64) : GrowthFits b inc := by
  have hstart := startCap_lt hcap
  have hne := startCap_ne_zero b
  obtain ⟨cap', hgrow', -, hroom', -⟩ :=
    growCap_spec h 64 (startCap b) (Nat.le_trans hlen (cap_le_startCap b)) hstart (by omega)
  obtain ⟨j, hmiss, hend⟩ := growCap_first b.len inc 65 (startCap b) hstart hne (dvd_startCap b)
  rcases hend with ⟨hgrow, -⟩ | ⟨hgrow, -, hroom⟩
  · rw [hgrow] at hgrow'
    cases hgrow'
  · rw [hgrow] at hgrow'
    have hcap' : doubledCap (startCap b) j = cap' := Option.some.inj (Option.some.inj hgrow')
    exact (growthFits_iff_of_stop (by omega) hmiss (Or.inr hroom)).mpr (Or.inr (by omega))

/-- **A power of two never wraps below the length**, so a buffer that got its memory from
`nbuf_reserve` meets the condition for every request. -/
theorem growthFits_of_pow {b : Buffer} {k : Nat} (hlen : b.len ≤ b.cap) (hpow : startCap b = 2 ^ k)
    (inc : Nat) : GrowthFits b inc := by
  intro j hpos hlow
  exfalso
  rw [hpow, doubledCap, ← pow_add] at hpos hlow
  have hsmall : k + j < 64 := by
    by_contra hbig
    have hzero : sizeT (2 ^ (k + j)) = 0 :=
      Nat.mod_eq_zero_of_dvd (pow_dvd_pow 2 (Nat.not_lt.mp hbig))
    omega
  rw [sizeT_of_lt (Nat.pow_lt_pow_right (by decide) hsmall)] at hlow
  have hge : b.len ≤ 2 ^ (k + j) :=
    calc b.len
        ≤ startCap b := Nat.le_trans hlen (cap_le_startCap b)
      _ = 2 ^ k := hpow
      _ ≤ 2 ^ (k + j) := Nat.pow_le_pow_right (by decide) (Nat.le_add_right k j)
  omega

/-- A full buffer of `2 ^ 33 + 1` bytes is told that `2 ^ 63` more fit, and does not grow: 31
doublings make its capacity `2 ^ 64 + 2 ^ 31`. -/
theorem reserve_pretends_room :
    ∃ b : Buffer, b.len ≤ b.cap ∧ b.cap < 2 ^ 64 ∧
      reserve (granting 0) b (2 ^ 63) = some (true, b) ∧ ¬ Grown b (2 ^ 63) (true, b) := by
  refine ⟨⟨fun _ => 0, 2 ^ 33 + 1, 2 ^ 33 + 1⟩, by decide, by decide, ?_, ?_⟩
  · rw [@reserve_of_some _ _ _ (2 ^ 31) (by decide) (by decide +kernel)]
    rfl
  · simp [Grown]

theorem reserve_grown_iff_small :
    ∃ r, reserve (granting 0) ⟨fun _ => 0, 8, 24⟩ 16 = some r ∧
      (Grown ⟨fun _ => 0, 8, 24⟩ 16 r ↔ GrowthFits ⟨fun _ => 0, 8, 24⟩ 16) :=
  reserve_grown_iff (granting 0) (by decide) (by decide)

end Nbuf
