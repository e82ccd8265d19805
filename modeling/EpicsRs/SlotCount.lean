/-
**How many slots hold a value.**

A table of slots, one for each index, each empty or holding a value.  A value may stand in several slots;
`SlotCount.holders` counts them, and the lemmas say what filling or emptying one slot does to the count.

Main results:

* `SlotCount.holders_drop`, `SlotCount.holders_fill` — the count of the value that is taken out or put in;
* `SlotCount.holders_update_of_ne` — the count of any other value.
-/

import Mathlib

set_option autoImplicit false

namespace SlotCount

open Function

variable {ι κ : Type} [Fintype ι] [DecidableEq κ]

/-- The number of slots that hold `k`. -/
def holders (f : ι → Option κ) (k : κ) : ℕ := (Finset.univ.filter fun i => f i = some k).card

variable {f : ι → Option κ} {k : κ}

lemma holders_eq_zero_iff : holders f k = 0 ↔ ∀ i, f i ≠ some k := by
  simp [holders, Finset.filter_eq_empty_iff]

lemma holders_congr {g} (h : ∀ i, f i = some k ↔ g i = some k) :
    holders f k = holders g k := by
  simp only [holders, h]

variable [DecidableEq ι]

lemma holders_update_of_ne {i x} (hold : f i ≠ some k) (hnew : x ≠ some k) :
    holders (update f i x) k = holders f k := by
  refine holders_congr fun j => ?_
  by_cases hj : j = i
  · subst hj
    simp [hold, hnew]
  · rw [update_of_ne hj]

lemma holders_drop {i x} (h : f i = some k) (hnew : x ≠ some k) :
    holders (update f i x) k + 1 = holders f k := by
  have herase : (Finset.univ.filter fun j => update f i x j = some k) =
      (Finset.univ.filter fun j => f j = some k).erase i := by
    ext j
    by_cases hj : j = i
    · subst hj
      simp [hnew]
    · simp [hj]
  have hmem : i ∈ Finset.univ.filter fun j => f j = some k := by simp [h]
  rw [holders, herase]
  exact Finset.card_erase_add_one hmem

lemma holders_fill {i} (h : f i ≠ some k) :
    holders (update f i (some k)) k = holders f k + 1 := by
  have hfilled : update f i (some k) i = some k := update_self ..
  rw [← holders_drop hfilled h, update_idem, update_eq_self]

end SlotCount
