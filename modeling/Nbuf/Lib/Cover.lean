import Mathlib.Data.List.Basic
import Mathlib.Tactic

set_option autoImplicit false

/-! # Ranges of positions

A range is a start and a length. `cover l i` counts the ranges of a list that contain the
position `i`. When no position is covered twice the ranges are pairwise disjoint, and an
allocator that only ever hands out parts of free ranges keeps every count: this turns
disjointness into arithmetic on counts.
-/

namespace Cover

/-! ## Ranges -/

structure Range where
  start : Nat
  len : Nat
  deriving DecidableEq

/-- The range contains the position. -/
def Range.Has (r : Range) (i : Nat) : Prop := r.start ≤ i ∧ i < r.start + r.len

instance (r : Range) (i : Nat) : Decidable (r.Has i) :=
  inferInstanceAs (Decidable (r.start ≤ i ∧ i < r.start + r.len))

/-- No position is in both ranges. -/
def Range.Disjoint (r s : Range) : Prop := ∀ i, r.Has i → ¬ s.Has i

theorem Range.Disjoint.symm {r s : Range} (h : r.Disjoint s) : s.Disjoint r :=
  fun i hs hr => h i hr hs

/-- Disjoint ranges that are not empty lie one behind the other. -/
theorem Range.Disjoint.le {r s : Range} (h : r.Disjoint s) (hr : 0 < r.len) (hs : 0 < s.len) :
    r.start + r.len ≤ s.start ∨ s.start + s.len ≤ r.start := by
  by_contra hover
  have hboth := h (max r.start s.start)
  simp only [Range.Has] at hboth
  omega

/-! ## Counting -/

/-- `1` on the range and `0` elsewhere. -/
def Range.count (r : Range) (i : Nat) : Nat := if r.Has i then 1 else 0

theorem Range.count_cases (start len i : Nat) :
    (start ≤ i ∧ i < start + len ∧ (⟨start, len⟩ : Range).count i = 1) ∨
      ((i < start ∨ start + len ≤ i) ∧ (⟨start, len⟩ : Range).count i = 0) := by
  by_cases h : (⟨start, len⟩ : Range).Has i
  · exact Or.inl ⟨h.1, h.2, if_pos h⟩
  · refine Or.inr ⟨?_, if_neg h⟩
    simp only [Range.Has] at h
    omega

theorem Range.has_of_count {r : Range} {i : Nat} (h : r.count i ≠ 0) : r.Has i := by
  by_contra hno
  exact h (if_neg hno)

/-- How many of the ranges contain the position `i`. -/
def cover (l : List Range) (i : Nat) : Nat := l.countP fun r => decide (r.Has i)

@[simp] theorem cover_nil (i : Nat) : cover [] i = 0 := rfl

theorem cover_cons (r : Range) (l : List Range) (i : Nat) :
    cover (r :: l) i = r.count i + cover l i := by
  unfold cover Range.count
  rw [List.countP_cons, Nat.add_comm]
  simp

theorem cover_append (l l' : List Range) (i : Nat) : cover (l ++ l') i = cover l i + cover l' i :=
  List.countP_append

theorem cover_sublist {l l' : List Range} (h : l.Sublist l') (i : Nat) : cover l i ≤ cover l' i :=
  h.countP_le

theorem cover_eq_zero_iff {l : List Range} {i : Nat} : cover l i = 0 ↔ ∀ r ∈ l, ¬ r.Has i := by
  simp [cover, List.countP_eq_zero]

/-- **Ranges that cover no position twice** are pairwise disjoint. -/
theorem pairwise_disjoint {l : List Range} (h : ∀ i, cover l i ≤ 1) :
    l.Pairwise Range.Disjoint := by
  induction l with
  | nil => exact List.Pairwise.nil
  | cons r l ih =>
      constructor
      · intro s hs i hr
        have hi := h i
        rw [cover_cons, Range.count, if_pos hr] at hi
        exact cover_eq_zero_iff.mp (by omega) s hs
      · refine ih fun i => ?_
        have hi := h i
        rw [cover_cons] at hi
        omega

end Cover
