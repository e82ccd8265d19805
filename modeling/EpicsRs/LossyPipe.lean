/-
**Pipes that keep the newest item.**

Items enter a pipe at one end.  A pipe that is slow to be emptied may drop items, but not the newest
one.  Items leave one at a time: in order, if the first one leaves, and otherwise an item overtakes
those before it.

Main results: `LossyPipe.Step.newest`, `LossyPipe.Step.in_order`.
-/

import Mathlib

set_option autoImplicit false

namespace LossyPipe

open List

variable {α : Type}

/-- A pipe, with what has entered it and what has left it. -/
structure Pipe (α : Type) where
  entered : List α
  stock : List α
  left : List α

/-- What may happen to a pipe, by the items that are overtaken. -/
inductive Step : List α → Pipe α → Pipe α → Prop
  | enter {p : Pipe α} {stock : List α} (x : α) (hstock : stock.Sublist p.stock) :
      Step [] p ⟨p.entered ++ [x], stock ++ [x], p.left⟩
  | condense {p : Pipe α} {stock : List α} (hstock : stock.Sublist p.stock)
      (hlast : stock.getLast? = p.stock.getLast?) : Step [] p ⟨p.entered, stock, p.left⟩
  | leave {p : Pipe α} (overtaken behind : List α) (x : α)
      (hstock : p.stock = overtaken ++ x :: behind) :
      Step overtaken p ⟨p.entered, overtaken ++ behind, p.left ++ [x]⟩

lemma Step.refl (p : Pipe α) : Step [] p p := .condense (Sublist.refl _) rfl

variable {p p' : Pipe α} {overtaken : List α}

lemma Step.stock_sublist (h : Step overtaken p p') (hp : p.stock.Sublist p.entered) :
    p'.stock.Sublist p'.entered := by
  cases h with
  | enter x hstock => exact (hstock.trans hp).append (Sublist.refl _)
  | condense hstock hlast => exact hstock.trans hp
  | leave overtaken behind x hstock =>
    rw [hstock] at hp
    exact ((Sublist.refl _).append (sublist_cons_self _ _)).trans hp

lemma Step.left_subset (h : Step overtaken p p') (hp : p.stock.Sublist p.entered)
    (hleft : p.left ⊆ p.entered) : p'.left ⊆ p'.entered := by
  cases h with
  | enter x hstock => exact fun y hy => mem_append_left _ (hleft hy)
  | condense hstock hlast => exact hleft
  | leave overtaken behind x hstock =>
    refine append_subset.2 ⟨hleft, fun y hy => hp.subset ?_⟩
    rw [mem_singleton.1 hy, hstock]
    exact mem_append_right _ (mem_cons_self ..)

/-- **The newest item is in the pipe, at its end, or has left it.** -/
theorem Step.newest (h : Step overtaken p p')
    (hp : (∃ x ∈ p.left, p.entered.getLast? = some x) ∨ p.stock.getLast? = p.entered.getLast?) :
    (∃ x ∈ p'.left, p'.entered.getLast? = some x) ∨
      p'.stock.getLast? = p'.entered.getLast? := by
  cases h with
  | enter x hstock =>
    right
    rw [getLast?_concat, getLast?_concat]
  | condense hstock hlast => exact hp.imp_right hlast.trans
  | leave overtaken behind x hstock =>
    rcases hp with ⟨y, hy, hlast⟩ | hlast
    · exact Or.inl ⟨y, mem_append_left _ hy, hlast⟩
    · rw [hstock] at hlast
      rcases eq_nil_or_concat behind with rfl | ⟨behind, y, rfl⟩
      · rw [getLast?_concat] at hlast
        exact Or.inl ⟨x, mem_append_right _ (mem_singleton_self _), hlast.symm⟩
      · right
        rw [concat_eq_append] at hlast ⊢
        rw [← hlast, ← append_assoc, getLast?_concat, ← cons_append,
          ← append_assoc, getLast?_concat]

/-- **Items that do not overtake leave in the order in which they entered.** -/
theorem Step.in_order (h : Step [] p p') (hp : (p.left ++ p.stock).Sublist p.entered) :
    (p'.left ++ p'.stock).Sublist p'.entered := by
  cases h with
  | enter x hstock =>
    rw [← append_assoc]
    exact (((Sublist.refl _).append hstock).trans hp).append (Sublist.refl _)
  | condense hstock hlast => exact ((Sublist.refl _).append hstock).trans hp
  | leave overtaken behind x hstock =>
    rw [hstock] at hp
    rw [append_assoc]
    exact hp

end LossyPipe
