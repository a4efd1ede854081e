import Mathlib.Tactic

set_option autoImplicit false

/-! # Rounding up to a multiple

`roundUp x n` is the least multiple of `n` that is not below `x`. Binary layouts use it to
pad sizes and to place a value at an address its type allows.
-/

namespace Align

/-- The least multiple of `n` at or above `x`. -/
def roundUp (x n : Nat) : Nat := (x + (n - 1)) / n * n

theorem dvd_roundUp (x n : Nat) : n ∣ roundUp x n := Dvd.intro_left _ rfl

theorem le_roundUp {n : Nat} (hn : 0 < n) (x : Nat) : x ≤ roundUp x n := by
  have hdiv := Nat.div_add_mod (x + (n - 1)) n
  have hmod := Nat.mod_lt (x + (n - 1)) hn
  have hcomm : n * ((x + (n - 1)) / n) = roundUp x n := Nat.mul_comm _ _
  omega

theorem roundUp_lt {n : Nat} (hn : 0 < n) (x : Nat) : roundUp x n < x + n := by
  have hle : roundUp x n ≤ x + (n - 1) := Nat.div_mul_le_self _ _
  omega

theorem roundUp_le {n m x : Nat} (hm : n ∣ m) (hx : x ≤ m) : roundUp x n ≤ m := by
  obtain ⟨k, rfl⟩ := hm
  rcases Nat.eq_zero_or_pos n with rfl | hn
  · simp [roundUp]
  · have hlt : roundUp x n < n * (k + 1) := by
      have := roundUp_lt hn x
      calc roundUp x n < x + n := this
        _ ≤ n * k + n := Nat.add_le_add_right hx n
        _ = n * (k + 1) := by ring
    obtain ⟨j, hj⟩ := dvd_roundUp x n
    rw [hj] at hlt ⊢
    have hjk : j < k + 1 := Nat.lt_of_mul_lt_mul_left hlt
    exact Nat.mul_le_mul_left n (Nat.le_of_lt_succ hjk)

theorem roundUp_of_dvd {n x : Nat} (hn : 0 < n) (hx : n ∣ x) : roundUp x n = x :=
  Nat.le_antisymm (roundUp_le hx (Nat.le_refl x)) (le_roundUp hn x)

theorem roundUp_mono {n x y : Nat} (hn : 0 < n) (h : x ≤ y) : roundUp x n ≤ roundUp y n :=
  roundUp_le (dvd_roundUp y n) (Nat.le_trans h (le_roundUp hn y))

/-- Adding a multiple first or last makes no difference. -/
theorem roundUp_add_left {n k : Nat} (hn : 0 < n) (hk : n ∣ k) (x : Nat) :
    roundUp (k + x) n = k + roundUp x n := by
  apply Nat.le_antisymm
  · exact roundUp_le (Nat.dvd_add hk (dvd_roundUp x n)) (Nat.add_le_add_left (le_roundUp hn x) k)
  · have hge : k ≤ roundUp (k + x) n := Nat.le_trans (Nat.le_add_right k x) (le_roundUp hn _)
    have hdvd : n ∣ roundUp (k + x) n - k := Nat.dvd_sub (dvd_roundUp _ _) hk
    have hx : x ≤ roundUp (k + x) n - k := by
      have := le_roundUp hn (k + x)
      omega
    have := roundUp_le hdvd hx
    omega

end Align
