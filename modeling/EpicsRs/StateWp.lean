/-
**Weakest preconditions for stateful programs that may stop early.**

A program of `EStateM ε σ` hands back its state in both cases: with a value when it finishes, with
an error when it stops.  The precondition of such a program has therefore two postconditions, one
for each way out.

Main results:

* `StateWp.wp_bind`, `StateWp.wp_pure`, `StateWp.wp_get`, `StateWp.wp_modify` — the rules;
* `StateWp.wp_mono` — the rule of consequence;
* `StateWp.exists_ok_of_wp` — a program that cannot stop in a permitted way finishes.
-/

import Mathlib

set_option autoImplicit false

namespace StateWp

variable {ε σ α β : Type}

/-- **The states from which `m` finishes in `Q` or stops in `E`.** -/
def wp (m : EStateM ε σ α) (Q : α → σ → Prop) (E : σ → Prop) (s : σ) : Prop :=
  match m s with
  | .ok a s' => Q a s'
  | .error _ s' => E s'

/-- The state a program leaves behind, finished or not. -/
def finalState (m : EStateM ε σ α) (s : σ) : σ :=
  match m s with
  | .ok _ s' => s'
  | .error _ s' => s'

variable {m : EStateM ε σ α} {f : α → EStateM ε σ β} {Q Q' : α → σ → Prop} {E E' : σ → Prop} {s : σ}

lemma wp_pure {a} (h : Q a s) : wp (pure a : EStateM ε σ α) Q E s := h

lemma wp_get {Q : σ → σ → Prop} (h : Q s s) : wp (get : EStateM ε σ σ) Q E s := h

lemma wp_modify {g} {Q : Unit → σ → Prop} (h : Q () (g s)) :
    wp (modify g : EStateM ε σ Unit) Q E s := h

lemma wp_throw {e} (h : E s) : wp (throw e : EStateM ε σ α) Q E s := h

lemma wp_bind {R : β → σ → Prop} (h : wp m (fun a => wp (f a) R E) E s) :
    wp (m >>= f) R E s := by
  have hrun : (m >>= f) s = EStateM.bind m f s := rfl
  unfold wp at h ⊢
  rw [hrun, EStateM.bind]
  cases hm : m s with
  | ok a s' => rw [hm] at h; exact h
  | error e s' => rw [hm] at h; exact h

lemma wp_mono (h : wp m Q E s) (hQ : ∀ a s', Q a s' → Q' a s') (hE : ∀ s', E s' → E' s') :
    wp m Q' E' s := by
  unfold wp at h ⊢
  cases hm : m s with
  | ok a s' => rw [hm] at h; exact hQ a s' h
  | error e s' => rw [hm] at h; exact hE s' h

/-- **A program whose last state is outside `E` has finished.** -/
theorem exists_ok_of_wp (h : wp m Q E s) (hE : ¬ E (finalState m s)) :
    ∃ a s', m s = .ok a s' := by
  unfold wp at h
  unfold finalState at hE
  cases hm : m s with
  | ok a s' => exact ⟨a, s', rfl⟩
  | error e s' =>
    rw [hm] at h hE
    exact absurd h hE

end StateWp
