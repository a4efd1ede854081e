import Mathlib.Algebra.BigOperators.Group.List.Basic
import Mathlib.Tactic

set_option autoImplicit false

/-! # Offsets of things laid out one behind the other

`offset sizes i` is the position of thing `i` when things of the given sizes stand one behind the
other from position `0` on.
-/

namespace Offsets

def offset (sizes : List Nat) (i : Nat) : Nat := (sizes.take i).sum

@[simp] theorem offset_zero (sizes : List Nat) : offset sizes 0 = 0 := rfl

theorem offset_succ {sizes : List Nat} {i n : Nat} (h : sizes[i]? = some n) :
    offset sizes (i + 1) = offset sizes i + n := by
  unfold offset
  rw [List.take_add_one, h, List.sum_append]
  simp

theorem offset_length (sizes : List Nat) : offset sizes sizes.length = sizes.sum := by
  rw [offset, List.take_length]

theorem offset_le_succ (sizes : List Nat) (i : Nat) : offset sizes i ≤ offset sizes (i + 1) := by
  cases h : sizes[i]? with
  | some n =>
      rw [offset_succ h]
      exact Nat.le_add_right _ _
  | none =>
      unfold offset
      rw [List.take_add_one, h, List.sum_append]
      exact Nat.le_add_right _ _

theorem offset_mono (sizes : List Nat) {i j : Nat} (h : i ≤ j) : offset sizes i ≤ offset sizes j :=
  monotone_nat_of_le_succ (offset_le_succ sizes) h

/-- What stands at `i` ends before what comes later starts. -/
theorem offset_add_le {sizes : List Nat} {i j n : Nat} (h : sizes[i]? = some n) (hij : i < j) :
    offset sizes i + n ≤ offset sizes j := by
  rw [← offset_succ h]
  exact offset_mono sizes hij

theorem offset_add_le_sum {sizes : List Nat} {i n : Nat} (h : sizes[i]? = some n) :
    offset sizes i + n ≤ sizes.sum := by
  rw [← offset_length]
  exact offset_add_le h (List.getElem?_eq_some_iff.mp h).1

/-- Things added behind do not move the ones before. -/
theorem offset_append (sizes more : List Nat) {i : Nat} (h : i ≤ sizes.length) :
    offset (sizes ++ more) i = offset sizes i := by
  rw [offset, List.take_append_of_le_length h, offset]

theorem dvd_offset {sizes : List Nat} {d : Nat} (h : ∀ n ∈ sizes, d ∣ n) (i : Nat) :
    d ∣ offset sizes i :=
  List.dvd_sum fun n hn => h n (List.mem_of_mem_take hn)

/-- Every position belongs to one of the things. -/
theorem exists_of_lt_sum {sizes : List Nat} {p : Nat} (hp : p < sizes.sum) :
    ∃ i n, sizes[i]? = some n ∧ offset sizes i ≤ p ∧ p < offset sizes i + n := by
  induction sizes generalizing p with
  | nil => simp at hp
  | cons n sizes ih =>
      by_cases hn : p < n
      · exact ⟨0, n, rfl, Nat.zero_le _, by simpa using hn⟩
      · rw [List.sum_cons] at hp
        obtain ⟨i, k, hk, h1, h2⟩ := ih (p := p - n) (by omega)
        have hoff : offset (n :: sizes) (i + 1) = n + offset sizes i := by simp [offset]
        exact ⟨i + 1, k, hk, by omega, by omega⟩

end Offsets
