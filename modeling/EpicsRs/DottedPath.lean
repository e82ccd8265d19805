/-
**Paths written with dots.**

A path into a tree of named members is a list of names; as text, the names are joined with dots.  A
name that is not empty and has no dot in it is a *segment*, and for lists of segments the two forms
say the same: splitting the text gives the names back.

Main result: `DottedPath.split_join`.
-/

import Mathlib

set_option autoImplicit false

namespace DottedPath

open List

def split (path : String) : List String := (path.toList.splitOn '.').map String.ofList

def join (segs : List String) : String := ".".intercalate segs

/-- A path with one more name; the empty path has no name yet. -/
def extend (path name : String) : String := if path.isEmpty then name else path ++ "." ++ name

def IsSegment (name : String) : Prop := name ≠ "" ∧ '.' ∉ name.toList

instance : DecidablePred IsSegment := fun _ => inferInstanceAs (Decidable (_ ∧ _))

lemma toList_join (segs : List String) :
    (join segs).toList = ['.'].intercalate (segs.map String.toList) := by
  rw [join, String.toList_intercalate]
  rfl

variable {segs : List String}

/-- **Splitting a path gives its names back.** -/
theorem split_join (hne : segs ≠ []) (hsegs : ∀ s ∈ segs, IsSegment s) :
    split (join segs) = segs := by
  have hdots : ∀ l ∈ segs.map String.toList, '.' ∉ l := by
    intro l hl
    obtain ⟨s, hs, rfl⟩ := mem_map.1 hl
    exact (hsegs s hs).2
  have hne' : segs.map String.toList ≠ [] := by simpa using hne
  rw [split, toList_join, splitOn_intercalate '.' hdots hne', map_map]
  simp [Function.comp_def]

lemma join_cons_cons (s t : String) (segs : List String) :
    join (s :: t :: segs) = s ++ "." ++ join (t :: segs) := by
  apply String.toList_injective
  rw [toList_join, map_cons, intercalate_cons_of_ne_nil (by simp), String.toList_append,
    String.toList_append, toList_join]
  rfl

@[simp] lemma join_singleton (s : String) : join [s] = s := by
  apply String.toList_injective
  rw [toList_join]
  simp

lemma join_ne_empty (hne : segs ≠ []) (hsegs : ∀ s ∈ segs, IsSegment s) :
    join segs ≠ "" := by
  intro h
  have hsplit := split_join hne hsegs
  rw [h] at hsplit
  refine (hsegs "" ?_).1 rfl
  rw [← hsplit]
  decide

lemma join_snoc (hne : segs ≠ []) (name : String) :
    join (segs ++ [name]) = join segs ++ "." ++ name := by
  induction segs with
  | nil => exact absurd rfl hne
  | cons s segs ih =>
    cases segs with
    | nil => rw [singleton_append, join_cons_cons, join_singleton, join_singleton]
    | cons t segs =>
      rw [join_cons_cons, cons_append, cons_append, join_cons_cons,
        ← cons_append, ih (cons_ne_nil t segs)]
      simp only [String.append_assoc]

/-- **Extending the text extends the list of names.** -/
theorem extend_join (hsegs : ∀ s ∈ segs, IsSegment s) (name : String) :
    extend (join segs) name = join (segs ++ [name]) := by
  by_cases hne : segs = []
  · subst hne
    rfl
  · have hempty : (join segs).isEmpty = false := by
      rw [Bool.eq_false_iff, Ne, String.isEmpty_iff]
      exact join_ne_empty hne hsegs
    rw [extend, hempty, join_snoc hne]
    rfl

end DottedPath
