import Mathlib.Tactic

set_option autoImplicit false

/-! # Runs of a partial step function

`run step s l` performs the actions `l` one after the other from the state `s`; it is `none`
when one of them fails. `AllSteps step Ok s l` says that each action meets `Ok` in the state
before it. Two rules lift facts about one step to a run: `run_invariant` for an invariant and
`run_simulates` for a simulation by a second system.
-/

namespace Run

variable {σ τ α : Type}

/-- Perform the actions in order. -/
def run (step : σ → α → Option σ) (s : σ) : List α → Option σ
  | [] => some s
  | a :: l => (step s a).bind fun s' => run step s' l

@[simp] theorem run_nil (step : σ → α → Option σ) (s : σ) : run step s [] = some s := rfl

theorem run_cons (step : σ → α → Option σ) (s : σ) (a : α) (l : List α) :
    run step s (a :: l) = (step s a).bind fun s' => run step s' l := rfl

theorem run_cons_of_eq {step : σ → α → Option σ} {s s' : σ} {a : α} (h : step s a = some s')
    (l : List α) : run step s (a :: l) = run step s' l := by
  rw [run_cons, h, Option.bind_some]

theorem run_append (step : σ → α → Option σ) (s : σ) (l l' : List α) :
    run step s (l ++ l') = (run step s l).bind fun s' => run step s' l' := by
  induction l generalizing s with
  | nil => rfl
  | cons a l ih =>
      rw [List.cons_append, run_cons, run_cons]
      cases step s a with
      | none => rfl
      | some s' => exact ih s'

theorem run_append_of_eq {step : σ → α → Option σ} {s s' : σ} {l : List α}
    (h : run step s l = some s') (l' : List α) : run step s (l ++ l') = run step s' l' := by
  rw [run_append, h, Option.bind_some]

/-- Every action of the run meets `Ok` in the state in which it is performed. -/
def AllSteps (step : σ → α → Option σ) (Ok : σ → α → Prop) (s : σ) : List α → Prop
  | [] => True
  | a :: l => Ok s a ∧ ∀ s', step s a = some s' → AllSteps step Ok s' l

instance {step : σ → α → Option σ} {Ok : σ → α → Prop} [∀ s a, Decidable (Ok s a)] :
    ∀ s l, Decidable (AllSteps step Ok s l)
  | _, [] => isTrue trivial
  | s, a :: l =>
      match h : step s a with
      | none => decidable_of_iff (Ok s a) ⟨fun ha => ⟨ha, fun s' hs => by simp [h] at hs⟩, And.left⟩
      | some s1 =>
          have : Decidable (AllSteps step Ok s1 l) := instDecidableAllSteps s1 l
          decidable_of_iff (Ok s a ∧ AllSteps step Ok s1 l)
            ⟨fun hl => ⟨hl.1, fun s' hs => by
                rw [h] at hs
                exact Option.some.inj hs ▸ hl.2⟩,
              fun hl => ⟨hl.1, hl.2 s1 h⟩⟩

/-- It is enough to look at the states the proper prefixes lead to. -/
theorem allSteps_of_prefix {step : σ → α → Option σ} {Ok : σ → α → Prop} {l : List α} {s : σ}
    (h : ∀ p a q s', l = p ++ a :: q → run step s p = some s' → Ok s' a) :
    AllSteps step Ok s l := by
  induction l generalizing s with
  | nil => trivial
  | cons a l ih =>
      refine ⟨h [] a l s rfl rfl, fun s' hs => ih ?_⟩
      rintro p c q s'' rfl hp
      exact h (a :: p) c q s'' rfl (by rw [run_cons_of_eq hs, hp])

theorem allSteps_of_forall {step : σ → α → Option σ} {Ok : σ → α → Prop} {l : List α}
    (h : ∀ a ∈ l, ∀ s, Ok s a) (s : σ) : AllSteps step Ok s l := by
  refine allSteps_of_prefix fun p a q s' hl _ => h a ?_ s'
  rw [hl]
  simp

theorem AllSteps.of_append {step : σ → α → Option σ} {Ok : σ → α → Prop} {l l' : List α} {s : σ}
    (h : AllSteps step Ok s (l ++ l')) : AllSteps step Ok s l := by
  induction l generalizing s with
  | nil => trivial
  | cons a l ih => exact ⟨h.1, fun s' hs => ih (h.2 s' hs)⟩

theorem AllSteps.append_right {step : σ → α → Option σ} {Ok : σ → α → Prop} {l l' : List α}
    {s s' : σ} (h : AllSteps step Ok s (l ++ l')) (hrun : run step s l = some s') :
    AllSteps step Ok s' l' := by
  induction l generalizing s with
  | nil =>
      cases hrun
      exact h
  | cons a l ih =>
      rw [run_cons, Option.bind_eq_some_iff] at hrun
      obtain ⟨s1, hs1, hrest⟩ := hrun
      exact ih (h.2 s1 hs1) hrest

theorem AllSteps.and {step : σ → α → Option σ} {Ok Ok' : σ → α → Prop} {l : List α} {s : σ}
    (h : AllSteps step Ok s l) (h' : AllSteps step Ok' s l) :
    AllSteps step (fun s a => Ok s a ∧ Ok' s a) s l := by
  induction l generalizing s with
  | nil => trivial
  | cons a l ih => exact ⟨⟨h.1, h'.1⟩, fun s' hs => ih (h.2 s' hs) (h'.2 s' hs)⟩

theorem AllSteps.and_forall {step : σ → α → Option σ} {Ok : σ → α → Prop} {P : α → Prop}
    {l : List α} {s : σ} (h : AllSteps step Ok s l) (hP : ∀ a ∈ l, P a) :
    AllSteps step (fun s a => Ok s a ∧ P a) s l :=
  h.and (allSteps_of_forall (fun a ha _ => hP a ha) s)

/-- **The invariant rule.** A step whose guard holds succeeds and keeps the invariant, so a run
whose guards all hold succeeds and ends in the invariant. -/
theorem run_invariant {step : σ → α → Option σ} {Ok : σ → α → Prop} {Inv : σ → Prop}
    (hstep : ∀ s a, Inv s → Ok s a → ∃ s', step s a = some s' ∧ Inv s') {s : σ} {l : List α}
    (hs : Inv s) (hok : AllSteps step Ok s l) : ∃ s', run step s l = some s' ∧ Inv s' := by
  induction l generalizing s with
  | nil => exact ⟨s, rfl, hs⟩
  | cons a l ih =>
      obtain ⟨s', hs', hinv⟩ := hstep s a hs hok.1
      obtain ⟨s'', hrun, hinv'⟩ := ih hinv (hok.2 s' hs')
      exact ⟨s'', by rw [run_cons_of_eq hs', hrun], hinv'⟩

/-- **The invariant rule for runs that succeed.** -/
theorem run_preserves {step : σ → α → Option σ} (Inv : σ → Prop)
    (hstep : ∀ s a s', Inv s → step s a = some s' → Inv s') {s s' : σ} {l : List α}
    (hs : Inv s) (hrun : run step s l = some s') : Inv s' := by
  induction l generalizing s with
  | nil =>
      cases hrun
      exact hs
  | cons a l ih =>
      rw [run_cons, Option.bind_eq_some_iff] at hrun
      obtain ⟨s1, hs1, hrest⟩ := hrun
      exact ih (hstep s a s1 hs hs1) hrest

/-- The same for steps that need their guard to keep the invariant. -/
theorem run_preserves_of_allSteps {step : σ → α → Option σ} {Ok : σ → α → Prop} (Inv : σ → Prop)
    (hstep : ∀ s a s', Inv s → Ok s a → step s a = some s' → Inv s') {s s' : σ} {l : List α}
    (hs : Inv s) (hok : AllSteps step Ok s l) (hrun : run step s l = some s') : Inv s' := by
  induction l generalizing s with
  | nil =>
      cases hrun
      exact hs
  | cons a l ih =>
      rw [run_cons, Option.bind_eq_some_iff] at hrun
      obtain ⟨s1, hs1, hrest⟩ := hrun
      exact ih (hstep s a s1 hs hok.1 hs1) (hok.2 s1 hs1) hrest

/-- **The loop rule.** A loop over `0, …, n - 1` whose body keeps an invariant that knows the
round. -/
theorem run_range (step : σ → Nat → Option σ) (Inv : Nat → σ → Prop) {n : Nat} {s : σ}
    (h0 : Inv 0 s)
    (hstep : ∀ k t, k < n → Inv k t → ∃ t', step t k = some t' ∧ Inv (k + 1) t') :
    ∃ s', run step s (List.range n) = some s' ∧ Inv n s' := by
  induction n with
  | zero => exact ⟨s, rfl, h0⟩
  | succ n ih =>
      obtain ⟨s1, hrun, hinv⟩ := ih fun k t hk => hstep k t (Nat.lt_succ_of_lt hk)
      obtain ⟨s', hs', hinv'⟩ := hstep n s1 (Nat.lt_succ_self n) hinv
      refine ⟨s', ?_, hinv'⟩
      rw [List.range_succ, run_append_of_eq hrun, run_cons_of_eq hs']
      rfl

/-- **The permutation rule.** Actions that commute in pairs can be performed in any order. -/
theorem run_perm {step : σ → α → Option σ} (Inv : σ → Prop) {C : α → α → Prop}
    (hsymm : ∀ a b, C a b → C b a) (hstep : ∀ s a s', Inv s → step s a = some s' → Inv s')
    (hcomm : ∀ s a b, Inv s → C a b →
      ((step s a).bind fun s' => step s' b) = (step s b).bind fun s' => step s' a)
    {l l' : List α} (hperm : l.Perm l') (hl : l.Pairwise C) {s : σ} (hs : Inv s) :
    run step s l = run step s l' := by
  induction hperm generalizing s with
  | nil => rfl
  | cons a _ ih =>
      rw [run_cons, run_cons]
      cases h : step s a with
      | none => rfl
      | some s' => exact ih (List.pairwise_cons.mp hl).2 (hstep s a s' hs h)
  | swap a b l =>
      have hab := hcomm s b a hs ((List.pairwise_cons.mp hl).1 a (by simp))
      calc run step s (b :: a :: l)
          = ((step s b).bind fun s' => step s' a).bind fun s' => run step s' l := by
            rw [run_cons, Option.bind_assoc]
            rfl
        _ = ((step s a).bind fun s' => step s' b).bind fun s' => run step s' l := by rw [hab]
        _ = run step s (a :: b :: l) := by
            rw [run_cons, Option.bind_assoc]
            rfl
  | trans h1 _ ih1 ih2 =>
      exact (ih1 hl hs).trans (ih2 (hl.perm h1 fun hab => hsymm _ _ hab) hs)

/-- A run succeeds when each action does, if that does not depend on the state. -/
theorem run_isSome_iff {step : σ → α → Option σ} {P : α → Prop} {l : List α}
    (hstep : ∀ a ∈ l, ∀ s, (step s a).isSome ↔ P a) (s : σ) :
    (run step s l).isSome ↔ ∀ a ∈ l, P a := by
  induction l generalizing s with
  | nil => simp
  | cons a l ih =>
      have ha := hstep a List.mem_cons_self s
      rw [run_cons, List.forall_mem_cons, ← ha]
      cases hs : step s a with
      | none => simp
      | some s' => simpa using ih (fun b hb => hstep b (List.mem_cons_of_mem a hb)) s'

/-- **The measure rule.** If each allowed step makes a measure smaller, a run is no longer than the
measure of its start. -/
theorem run_length_le {step : σ → α → Option σ} {Ok : σ → α → Prop} {Inv : σ → Prop} {μ : σ → Nat}
    (hstep : ∀ s a s', Inv s → Ok s a → step s a = some s' → Inv s' ∧ μ s' < μ s) {s s' : σ}
    {l : List α} (hs : Inv s) (hok : AllSteps step Ok s l) (hrun : run step s l = some s') :
    l.length + μ s' ≤ μ s := by
  induction l generalizing s with
  | nil =>
      cases hrun
      exact Nat.le_of_eq (Nat.zero_add _)
  | cons a l ih =>
      rw [run_cons, Option.bind_eq_some_iff] at hrun
      obtain ⟨s1, hs1, hrest⟩ := hrun
      obtain ⟨hinv, hlt⟩ := hstep s a s1 hs hok.1 hs1
      have := ih hinv (hok.2 s1 hs1) hrest
      rw [List.length_cons]
      omega

/-- **The simulation rule.** If related states stay related under every action that is allowed
in the abstract system, then each allowed abstract run has a related concrete one. -/
theorem run_simulates {step : σ → α → Option σ} {astep : τ → α → Option τ} {R : σ → τ → Prop}
    (hstep : ∀ s t a t', R s t → astep t a = some t' → ∃ s', step s a = some s' ∧ R s' t')
    {s : σ} {t t' : τ} {l : List α} (hR : R s t) (hrun : run astep t l = some t') :
    ∃ s', run step s l = some s' ∧ R s' t' := by
  induction l generalizing s t with
  | nil =>
      cases hrun
      exact ⟨s, rfl, hR⟩
  | cons a l ih =>
      rw [run_cons, Option.bind_eq_some_iff] at hrun
      obtain ⟨t1, ht1, hrest⟩ := hrun
      obtain ⟨s1, hs1, hR1⟩ := hstep s t a t1 hR ht1
      obtain ⟨s', hs', hR'⟩ := ih hR1 hrest
      exact ⟨s', by rw [run_cons_of_eq hs1, hs'], hR'⟩

/-- **The emitter rule.** A loop computes one record for each element and performs an action for it
at once. It does what a second loop over the finished records does. -/
theorem run_emits {β ρ : Type} {step : σ × ρ → α × Nat → Option (σ × ρ)}
    {emit : σ → β × Nat → Option σ} {next : τ → α → Option τ} (out : τ → List β) (view : τ → ρ)
    {P : α → β → Prop}
    (hstep : ∀ t a t', next t a = some t' → ∃ b, P a b ∧ out t' = out t ++ [b] ∧
      ∀ s k, step (s, view t) (a, k) = (emit s (b, k)).map fun s' => (s', view t'))
    {t t' : τ} {l : List α} (hrun : run next t l = some t') :
    ∃ bs, List.Forall₂ P l bs ∧ out t' = out t ++ bs ∧ ∀ s k,
      run step (s, view t) (l.zipIdx k) = (run emit s (bs.zipIdx k)).map fun s' => (s', view t') := by
  induction l generalizing t with
  | nil =>
      cases hrun
      exact ⟨[], .nil, (List.append_nil _).symm, fun _ _ => rfl⟩
  | cons a l ih =>
      rw [run_cons, Option.bind_eq_some_iff] at hrun
      obtain ⟨t1, ht1, hrest⟩ := hrun
      obtain ⟨b, hab, hout1, hs⟩ := hstep t a t1 ht1
      obtain ⟨bs, hbs, hout, hruns⟩ := ih hrest
      refine ⟨b :: bs, .cons hab hbs, ?_, fun s k => ?_⟩
      · rw [hout, hout1, List.append_assoc, List.singleton_append]
      · rw [List.zipIdx_cons, List.zipIdx_cons, run_cons, run_cons, hs]
        cases emit s (b, k) with
        | none => rfl
        | some s1 => exact hruns s1 (k + 1)

end Run
