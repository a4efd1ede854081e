import Mathlib.Tactic

set_option autoImplicit false

/-! # Outcomes of a recursive program

A recursive program is run with fuel. It is done, it stops early (a failed assertion, a bad
memory access), or the fuel runs out. A program terminates on an input when some amount of fuel
does not run out.
-/

inductive Outcome (α : Type) where
  | done (a : α)
  | abort
  | outOfFuel
  deriving DecidableEq

namespace Outcome

variable {α β : Type}

def bind (x : Outcome α) (f : α → Outcome β) : Outcome β :=
  match x with
  | done a => f a
  | abort => abort
  | outOfFuel => outOfFuel

instance : Monad Outcome where
  pure := done
  bind := bind

/-- A step that is not recursive: it gives a value or stops the program. -/
def ofOption : Option α → Outcome α
  | some a => done a
  | none => abort

@[simp] theorem pure_eq (a : α) : (pure a : Outcome α) = done a := rfl

@[simp] theorem done_bind (a : α) (f : α → Outcome β) : (done a >>= f) = f a := rfl

@[simp] theorem abort_bind (f : α → Outcome β) : (abort >>= f) = abort := rfl

@[simp] theorem outOfFuel_bind (f : α → Outcome β) : (outOfFuel >>= f) = outOfFuel := rfl

@[simp] theorem ofOption_some (a : α) : ofOption (some a) = done a := rfl

@[simp] theorem ofOption_none : ofOption (none : Option α) = abort := rfl

theorem ofOption_ne_outOfFuel (x : Option α) : ofOption x ≠ outOfFuel := by
  cases x <;> simp [ofOption]

theorem eq_some_of_ofOption {x : Option α} {a : α} (h : ofOption x = done a) : x = some a := by
  cases x with
  | none => cases h
  | some b =>
      cases h
      rfl

theorem done_ne_outOfFuel (a : α) : done a ≠ outOfFuel := by simp

/-- A run of two steps is done when both are. -/
theorem bind_eq_done {x : Outcome α} {f : α → Outcome β} {b : β} :
    (x >>= f) = done b ↔ ∃ a, x = done a ∧ f a = done b := by
  cases x with
  | done a => simp
  | abort => simp
  | outOfFuel => simp

/-- A step that is not recursive, and what follows it. -/
theorem ofOption_bind_eq_done {x : Option α} {f : α → Outcome β} {b : β} :
    (ofOption x >>= f) = done b ↔ ∃ a, x = some a ∧ f a = done b := by
  cases x with
  | none => simp
  | some a => simp

theorem bind_ne_outOfFuel {x : Outcome α} {f : α → Outcome β} (hx : x ≠ outOfFuel)
    (hf : ∀ a, x = done a → f a ≠ outOfFuel) : (x >>= f) ≠ outOfFuel := by
  cases x with
  | done a => exact hf a rfl
  | abort => simp
  | outOfFuel => exact absurd rfl hx

/-- Run a list of printers one after the other and join what they print. -/
def concat (f : β → Outcome (List α)) : List β → Outcome (List α)
  | [] => done []
  | b :: l => do
      let out ← f b
      let rest ← concat f l
      pure (out ++ rest)

theorem concat_ne_outOfFuel {f : β → Outcome (List α)} {l : List β}
    (h : ∀ b ∈ l, f b ≠ outOfFuel) : concat f l ≠ outOfFuel := by
  induction l with
  | nil => exact done_ne_outOfFuel _
  | cons b l ih =>
      refine bind_ne_outOfFuel (h b (by simp)) fun out _ => ?_
      refine bind_ne_outOfFuel (ih fun c hc => h c (by simp [hc])) fun rest _ => ?_
      exact done_ne_outOfFuel _

/-- When every printer is done, so is the list, with the texts joined. -/
theorem concat_done {f : β → Outcome (List α)} {g : β → List α} {l : List β}
    (h : ∀ b ∈ l, f b = done (g b)) : concat f l = done (l.flatMap g) := by
  induction l with
  | nil => rfl
  | cons b l ih =>
      rw [concat, h b (by simp), ih fun c hc => h c (by simp [hc])]
      rfl

end Outcome
