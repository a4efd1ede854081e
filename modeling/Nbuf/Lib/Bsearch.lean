import Mathlib.Data.List.Basic
import Mathlib.Tactic

set_option autoImplicit false

/-! # Binary search in a sorted list

`bsearch key k` looks for the entry with key `k` by comparing with the entry in the middle.
In a list whose keys increase strictly it finds the entry exactly when there is one.
-/

namespace Bsearch

variable {α κ : Type} [Ord κ]

/-- The keys increase strictly. -/
def Increasing (key : α → κ) (l : List α) : Prop :=
  l.Pairwise fun a b => compare (key a) (key b) = .lt

/-- Compare with the middle entry and go on in one half. The fuel bounds the rounds. -/
def bsearchIn (key : α → κ) (k : κ) : Nat → List α → Option α
  | 0, _ => none
  | fuel + 1, l =>
      match l.drop (l.length / 2) with
      | [] => none
      | x :: right =>
          match compare k (key x) with
          | .eq => some x
          | .lt => bsearchIn key k fuel (l.take (l.length / 2))
          | .gt => bsearchIn key k fuel right

def bsearch (key : α → κ) (k : κ) (l : List α) : Option α := bsearchIn key k l.length l

theorem bsearchIn_some [Std.LawfulEqOrd κ] {key : α → κ} {k : κ} {x : α} :
    ∀ {fuel : Nat} {l : List α}, bsearchIn key k fuel l = some x → x ∈ l ∧ key x = k := by
  intro fuel
  induction fuel with
  | zero => intro l h; cases h
  | succ fuel ih =>
      intro l h
      have hparts := List.take_append_drop (l.length / 2) l
      rw [bsearchIn] at h
      cases hdrop : l.drop (l.length / 2) with
      | nil =>
          rw [hdrop] at h
          cases h
      | cons y right =>
          rw [hdrop] at h hparts
          simp only at h
          rw [← hparts]
          cases hcmp : compare k (key y) with
          | eq =>
              rw [hcmp] at h
              cases h
              exact ⟨by simp, (Std.LawfulEqCmp.eq_of_compare hcmp).symm⟩
          | lt =>
              rw [hcmp] at h
              obtain ⟨hx, hk⟩ := ih h
              exact ⟨List.mem_append_left _ hx, hk⟩
          | gt =>
              rw [hcmp] at h
              obtain ⟨hx, hk⟩ := ih h
              exact ⟨List.mem_append_right _ (List.mem_cons_of_mem _ hx), hk⟩

theorem bsearchIn_of_mem [Std.TransOrd κ] {key : α → κ} {x : α} :
    ∀ {fuel : Nat} {l : List α}, Increasing key l → x ∈ l → l.length ≤ fuel →
      bsearchIn key (key x) fuel l = some x := by
  intro fuel
  induction fuel with
  | zero =>
      intro l _ hx hlen
      have := List.length_pos_of_mem hx
      omega
  | succ fuel ih =>
      intro l hinc hx hlen
      have hparts := List.take_append_drop (l.length / 2) l
      have hpos : 0 < l.length := List.length_pos_of_mem hx
      cases hdrop : l.drop (l.length / 2) with
      | nil =>
          have := congrArg List.length hdrop
          rw [List.length_drop, List.length_nil] at this
          omega
      | cons y right =>
          have hlen' : right.length + 1 = l.length - l.length / 2 := by
            have := congrArg List.length hdrop
            rwa [List.length_drop, List.length_cons, eq_comm] at this
          rw [hdrop] at hparts
          unfold Increasing at hinc
          rw [← hparts, List.pairwise_append, List.pairwise_cons] at hinc
          obtain ⟨hleft, ⟨hy, hright⟩, hcross⟩ := hinc
          rw [bsearchIn, hdrop]
          simp only
          rw [← hparts, List.mem_append, List.mem_cons] at hx
          -- the entry is to the left of the middle, in the middle, or to the right
          rcases hx with hx | rfl | hx
          · rw [hcross x hx y (by simp)]
            exact ih hleft hx (by rw [List.length_take]; omega)
          · have hself : compare (key x) (key x) = .eq := Std.ReflCmp.compare_self
            rw [hself]
          · have hgt : compare (key x) (key y) = .gt := Std.OrientedCmp.gt_iff_lt.mpr (hy x hx)
            rw [hgt]
            exact ih hright hx (by omega)

/-- **Binary search finds** exactly the entry with the given key. -/
theorem bsearch_eq_some_iff [Std.TransOrd κ] [Std.LawfulEqOrd κ] {key : α → κ} {k : κ}
    {l : List α} (h : Increasing key l) {x : α} : bsearch key k l = some x ↔ x ∈ l ∧ key x = k := by
  constructor
  · exact bsearchIn_some
  · rintro ⟨hx, rfl⟩
    exact bsearchIn_of_mem h hx (Nat.le_refl _)

end Bsearch
