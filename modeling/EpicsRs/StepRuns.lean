/-
**Runs of a machine with actions.**

A concurrent program is a machine whose actions are the atomic steps of its parties; an action is
enabled in some states only, so the step function is partial.  A run is a list of actions, in the
order in which they happen, whoever takes them.

Main result: `StepRuns.run_invariant`.
-/

import Mathlib

set_option autoImplicit false

namespace StepRuns

open Option

variable {σ α : Type}

def run (step : σ → α → Option σ) : List α → σ → Option σ
  | [], s => some s
  | a :: as, s => (step s a).bind (run step as)

/-- Every action of the run is taken in a state that allows it. -/
def Along (step : σ → α → Option σ) (allows : σ → α → Prop) : List α → σ → Prop
  | [], _ => True
  | a :: as, s => allows s a ∧ ∀ t, step s a = some t → Along step allows as t

lemma run_append (step : σ → α → Option σ) (as bs : List α) :
    ∀ s, run step (as ++ bs) s = (run step as s).bind (run step bs) := by
  induction as with
  | nil => exact fun _ => rfl
  | cons a as ih =>
    intro s
    rw [List.cons_append, run, run, bind_assoc]
    exact bind_congr fun t _ => ih t

/-- Whether every action of a run was allowed can be found out along the run. -/
instance decidableAlong (step : σ → α → Option σ) (allows : σ → α → Prop)
    [∀ s a, Decidable (allows s a)] : ∀ as s, Decidable (Along step allows as s)
  | [], _ => isTrue trivial
  | a :: as, s =>
      match h : step s a with
      | none => decidable_of_iff (allows s a)
          ⟨fun ha => ⟨ha, fun t ht => by rw [h] at ht; cases ht⟩, And.left⟩
      | some t =>
          have := decidableAlong step allows as t
          decidable_of_iff (allows s a ∧ Along step allows as t)
            ⟨fun ha => ⟨ha.1, fun t' ht => by rw [h] at ht; cases ht; exact ha.2⟩,
              fun ha => ⟨ha.1, ha.2 t h⟩⟩

variable {step : σ → α → Option σ} {allows : σ → α → Prop} {I : σ → Prop}

/-- **The invariant rule**: what every action keeps that was allowed is kept by a run of such
actions. -/
theorem run_invariant (hstep : ∀ s a t, I s → allows s a → step s a = some t → I t)
    (as : List α) :
    ∀ s t, I s → Along step allows as s → run step as s = some t → I t := by
  induction as with
  | nil =>
    intro s t hs _ hrun
    rwa [← some.inj hrun]
  | cons a as ih =>
    intro s t hs halong hrun
    obtain ⟨u, hu, hrun⟩ := bind_eq_some_iff.1 hrun
    exact ih u t (hstep s a u hs halong.1 hu) (halong.2 u hu) hrun

/-- **The rule of total runs**: where every allowed action can be taken and keeps what makes it so,
a run of allowed actions reaches its end. -/
theorem run_total (hstep : ∀ s a, I s → allows s a → ∃ t, step s a = some t ∧ I t) (as : List α) :
    ∀ s, I s → Along step allows as s → ∃ t, run step as s = some t ∧ I t := by
  induction as with
  | nil => exact fun s hs _ => ⟨s, rfl, hs⟩
  | cons a as ih =>
    intro s hs halong
    obtain ⟨u, hu, hI⟩ := hstep s a hs halong.1
    obtain ⟨t, ht, hIt⟩ := ih u hI (halong.2 u hu)
    exact ⟨t, by rw [run, hu]; exact ht, hIt⟩

lemma along_true (as : List α) : ∀ s, Along step (fun _ _ => True) as s := by
  induction as with
  | nil => exact fun _ => trivial
  | cons a as ih => exact fun _ => ⟨trivial, fun t _ => ih t⟩

lemma along_of_forall {allowed : α → Prop} {as} (h : ∀ a ∈ as, allowed a) :
    ∀ s, Along step (fun _ => allowed) as s := by
  induction as with
  | nil => exact fun _ => trivial
  | cons a as ih =>
    obtain ⟨ha, has⟩ := List.forall_mem_cons.1 h
    exact fun _ => ⟨ha, fun t _ => ih has t⟩

lemma run_of_not_along {bad : σ → Prop} (hstep : ∀ s a t, I s → step s a = some t → I t)
    (hbad : ∀ s a t, I s → ¬ allows s a → step s a = some t → bad t)
    (hkeep : ∀ s a t, bad s → step s a = some t → bad t) (as : List α) :
    ∀ s t, I s → ¬ Along step allows as s → run step as s = some t → bad t := by
  induction as with
  | nil => exact fun s t _ h _ => absurd trivial h
  | cons a as ih =>
    intro s t hs halong hrun
    obtain ⟨u, hu, hrun⟩ := bind_eq_some_iff.1 hrun
    by_cases ha : allows s a
    · refine ih u t (hstep s a u hs hu) (fun hrest => halong ⟨ha, fun v hv => ?_⟩) hrun
      rwa [← some.inj (hu.symm.trans hv)]
    · exact run_invariant (fun s a t hs _ => hkeep s a t hs) as u t (hbad s a u hs ha hu)
        (along_true as u) hrun

end StepRuns
