/-
**Tables from keys to values.**

A hash map that is read, emptied and filled key by key, and sometimes walked as a whole.  The table
is an association list without repeated keys, in whatever order the map would be walked.

Main results:

* `KeyTable.total_erase`, `KeyTable.total_put` — **one entry changes**, and the total with it;
* `KeyTable.total_mapValues` — **what every value loses is lost by the total**.
-/

import Mathlib

set_option autoImplicit false

namespace KeyTable

open List

variable {κ α : Type}

abbrev Table (κ α : Type) : Type := AList fun _ : κ => α

def mapValues (g : κ → α → α) (t : Table κ α) : Table κ α :=
  ⟨t.entries.map fun e => ⟨e.1, g e.1 e.2⟩, t.nodupKeys.map₂ g t.entries⟩

def retain (p : κ → α → Bool) (t : Table κ α) : Table κ α :=
  ⟨t.entries.filter fun e => p e.1 e.2, t.nodupKeys.sublist List.filter_sublist⟩

/-- The sum of `f` over the values. -/
def total (f : α → ℕ) (t : Table κ α) : ℕ := (t.entries.map fun e => f e.2).sum

lemma total_mapValues (f : α → ℕ) (g : κ → α → α) (lost : κ → α → ℕ)
    (h : ∀ k a, f (g k a) + lost k a = f a) (t : Table κ α) :
    total f (mapValues g t) + (t.entries.map fun e => lost e.1 e.2).sum = total f t := by
  obtain ⟨entries, hnodup⟩ := t
  simp only [total, mapValues, map_map, Function.comp_def]
  clear hnodup
  induction entries with
  | nil => rfl
  | cons e entries ih =>
    have he := h e.1 e.2
    simp only [map_cons, sum_cons]
    omega

variable [DecidableEq κ]

/-- The entry of `k` is taken out, and `a` put in. -/
def put (t : Table κ α) (k : κ) (a : α) : Table κ α := (t.erase k).insert k a

lemma lookup_put (t : Table κ α) (k : κ) (a : α) (k' : κ) :
    (put t k a).lookup k' = if k' = k then some a else t.lookup k' := by
  split_ifs with hk
  · subst hk
    exact AList.lookup_insert _
  · exact (AList.lookup_insert_ne hk).trans (AList.lookup_erase_ne hk)

lemma lookup_erase (t : Table κ α) (k k' : κ) :
    (t.erase k).lookup k' = if k' = k then none else t.lookup k' := by
  split_ifs with hk
  · subst hk
    exact AList.lookup_erase _ _
  · exact AList.lookup_erase_ne hk

lemma lookup_mapValues (g : κ → α → α) (t : Table κ α) (k : κ) :
    (mapValues g t).lookup k = (t.lookup k).map (g k) := by
  obtain ⟨entries, hnodup⟩ := t
  simp only [AList.lookup, mapValues]
  clear hnodup
  induction entries with
  | nil => rfl
  | cons e entries ih =>
    obtain ⟨k', a⟩ := e
    rw [map_cons]
    by_cases hk : k = k'
    · subst hk
      rw [dlookup_cons_eq, dlookup_cons_eq, Option.map_some]
    · rw [dlookup_cons_ne _ _ hk, dlookup_cons_ne _ _ hk, ih]

lemma lookup_retain (p : κ → α → Bool) (t : Table κ α) (k : κ) :
    (retain p t).lookup k = (t.lookup k).filter (p k) := by
  ext a
  rw [Option.filter_eq_some_iff]
  have hretain : (retain p t).lookup k = some a ↔ ⟨k, a⟩ ∈ (retain p t).entries :=
    AList.mem_lookup_iff
  have htable : t.lookup k = some a ↔ ⟨k, a⟩ ∈ t.entries := AList.mem_lookup_iff
  rw [hretain, htable]
  exact mem_filter

theorem total_erase (f : α → ℕ) (t : Table κ α) (k : κ) :
    total f (t.erase k) + (t.lookup k).elim 0 f = total f t := by
  obtain ⟨entries, hnodup⟩ := t
  simp only [total, AList.erase, AList.lookup]
  clear hnodup
  induction entries with
  | nil => rfl
  | cons e entries ih =>
    obtain ⟨k', a⟩ := e
    by_cases hk : k = k'
    · subst hk
      have hfirst : k = (⟨k, a⟩ : Σ _ : κ, α).1 := rfl
      rw [kerase_cons_eq hfirst, dlookup_cons_eq]
      simp only [map_cons, sum_cons, Option.elim_some]
      omega
    · rw [kerase_cons_ne hk, dlookup_cons_ne _ _ hk]
      simp only [map_cons, sum_cons]
      omega

theorem total_put (f : α → ℕ) (t : Table κ α) (k : κ) (a : α) :
    total f (put t k a) + (t.lookup k).elim 0 f = total f t + f a := by
  have hinsert : total f (put t k a) = f a + total f (t.erase k) := by
    simp only [total, put]
    rw [AList.entries_insert_of_notMem (AList.lookup_eq_none.1 (AList.lookup_erase _ _)),
      map_cons, sum_cons]
  have herase := total_erase f t k
  omega

end KeyTable
