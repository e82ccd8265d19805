/-
**A table of slots.**

A fixed row of slots, each empty or taken.  What is counted over the taken ones is a sum, and
changes by what changes in one slot.

Main result: `SlotTable.total_set`.
-/

import Mathlib

set_option autoImplicit false

namespace SlotTable

open List Option

variable {α : Type}

/-- The sum of `f` over the slots that are taken. -/
def total (f : α → ℕ) (slots : List (Option α)) : ℕ := (slots.map fun o => o.elim 0 f).sum

variable {f g : α → ℕ} {slots : List (Option α)} {i : ℕ} {o : Option α}

@[simp] lemma total_cons (o : Option α) (slots : List (Option α)) :
    total f (o :: slots) = o.elim 0 f + total f slots := by
  simp [total]

lemma total_replicate (n : ℕ) : total f (replicate n none) = 0 := by
  induction n with
  | zero => rfl
  | succ n ih => simp [replicate_succ, ih]

theorem total_set (h : slots[i]? = some o) (o' : Option α) :
    total f (slots.set i o') + o.elim 0 f = total f slots + o'.elim 0 f := by
  induction slots generalizing i with
  | nil => simp at h
  | cons x slots ih =>
    cases i with
    | zero =>
      obtain rfl : x = o := by simpa using h
      simp only [set_cons_zero, total_cons]
      omega
    | succ i =>
      have hih := ih (by simpa using h)
      simp only [set_cons_succ, total_cons]
      omega

lemma get_set {a j} (h : (slots.set i o)[j]? = some (some a)) :
    j = i ∧ o = some a ∨ j ≠ i ∧ slots[j]? = some (some a) := by
  rw [getElem?_set] at h
  split_ifs at h with hij hlt
  · exact Or.inl ⟨hij.symm, some.inj h⟩
  · exact Or.inr ⟨Ne.symm hij, h⟩

lemma get_set_of_ne {a j} (h : slots[j]? = some (some a)) (hne : j ≠ i) :
    (slots.set i o)[j]? = some (some a) := by
  rwa [getElem?_set_ne (Ne.symm hne)]

lemma total_map {g} (h : ∀ a, f (g a) = f a) (slots : List (Option α)) :
    total f (slots.map (Option.map g)) = total f slots := by
  induction slots with
  | nil => rfl
  | cons x slots ih =>
    rw [map_cons, total_cons, total_cons, ih]
    cases x with
    | none => rfl
    | some a => rw [map_some, elim_some, elim_some, h]

lemma total_le (h : ∀ a, some a ∈ slots → f a ≤ g a) : total f slots ≤ total g slots := by
  induction slots with
  | nil => exact Nat.le_refl _
  | cons x slots ih =>
    have hih := ih fun a ha => h a (mem_cons_of_mem _ ha)
    cases x with
    | none => simpa using hih
    | some a =>
      have ha := h a (mem_cons_self ..)
      simp only [total_cons, elim_some]
      omega

lemma le_total {a} (h : some a ∈ slots) : f a ≤ total f slots := by
  induction slots with
  | nil => exact absurd h not_mem_nil
  | cons x slots ih =>
    rcases mem_cons.1 h with rfl | h
    · exact Nat.le_add_right _ _
    · exact Nat.le_add_left_of_le (ih h)

end SlotTable
