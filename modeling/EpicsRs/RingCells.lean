/-
**A queue in a ring of cells.**

A fixed row of cells holds a queue: the first item is in the cell `head`, the others follow, and
behind the last cell comes the first again.  A cell without an item is empty.  Items are put behind
the last one and taken from the head; an item may also be exchanged in its place, or be brought to
the head from further back by exchanging it with each item in front of it.

Main results:

* `RingCells.Holds.push`, `RingCells.Holds.pop`, `RingCells.Holds.modify` — the three operations,
  on the list;
* `RingCells.Holds.bubble` — and the fourth;
* `RingCells.Holds.countP` — counting over the cells.
-/

import Mathlib

set_option autoImplicit false

namespace RingCells

open List

/-! ### Positions -/

/-- The position `i` of a ring of `size` cells, for `i` less than twice the size. -/
def wrap (i size : ℕ) : ℕ := if size ≤ i then i - size else i

section

variable {head i j k n : ℕ}

lemma wrap_lt (h : head < n) (hk : k ≤ n) : wrap (head + k) n < n := by
  unfold wrap
  split_ifs <;> omega

lemma wrap_zero (h : head < n) : wrap (head + 0) n = head := by
  unfold wrap
  split_ifs <;> omega

lemma wrap_inj (hi : i < n) (hj : j < n) :
    wrap (head + i) n = wrap (head + j) n ↔ i = j := by
  unfold wrap
  split_ifs <;> omega

lemma wrap_succ (h : head < n) (hk : k < n) :
    wrap (wrap (head + 1) n + k) n = wrap (head + (k + 1)) n := by
  unfold wrap
  split_ifs <;> omega

lemma exists_wrap (h : head < n) (hi : i < n) : ∃ k, k < n ∧ wrap (head + k) n = i := by
  unfold wrap
  by_cases hle : head ≤ i
  · exact ⟨i - head, by omega, by split_ifs <;> omega⟩
  · exact ⟨i + n - head, by omega, by split_ifs <;> omega⟩

lemma wrap_sub (h : head < n) (hk : k < n) : wrap (wrap (head + k) n + n - head) n = k := by
  unfold wrap
  split_ifs <;> omega

end

/-! ### The cells of a queue -/

variable {α : Type}

/-- The cells hold the items in the order of the ring, from `head` on; the others are empty. -/
structure Holds (cells : List (Option α)) (head : ℕ) (xs : List α) : Prop where
  head_lt : head < cells.length
  length_le : xs.length ≤ cells.length
  cell : ∀ k, k < cells.length → cells[wrap (head + k) cells.length]? = some xs[k]?

namespace Holds

variable {cells : List (Option α)} {head k : ℕ} {x y : α} {xs pre post : List α}

lemma empty {n} (h : head < n) : Holds (replicate n (none : Option α)) head [] where
  head_lt := by rwa [length_replicate]
  length_le := Nat.zero_le _
  cell := by
    intro k hk
    rw [length_replicate] at hk ⊢
    rw [getElem?_replicate_of_lt (wrap_lt h (Nat.le_of_lt hk)), getElem?_nil]

lemma item (h : Holds cells head xs) (hk : k < xs.length) :
    cells[wrap (head + k) cells.length]? = some (some xs[k]) := by
  rw [h.cell k (Nat.lt_of_lt_of_le hk h.length_le), getElem?_eq_getElem hk]

lemma first (h : Holds cells head (x :: xs)) : cells[head]? = some (some x) := by
  have hitem := h.item (k := 0) (Nat.succ_pos _)
  rwa [wrap_zero h.head_lt] at hitem

lemma push (h : Holds cells head xs) (hroom : xs.length < cells.length) (x : α) :
    Holds (cells.set (wrap (head + xs.length) cells.length) (some x)) head (xs ++ [x]) where
  head_lt := by rw [length_set]; exact h.head_lt
  length_le := by rw [length_append, length_set]; exact hroom
  cell := by
    intro k hk
    rw [length_set] at hk ⊢
    have hlt := wrap_lt h.head_lt (Nat.le_of_lt hk)
    by_cases hlast : k = xs.length
    · subst hlast
      rw [getElem?_set_self hlt, getElem?_concat_length]
    · have hne : wrap (head + xs.length) cells.length ≠ wrap (head + k) cells.length :=
        fun heq => hlast ((wrap_inj hroom hk).1 heq).symm
      rw [getElem?_set_ne hne, h.cell k hk, getElem?_append]
      split_ifs with hin
      · rfl
      · rw [getElem?_eq_none (by omega), getElem?_eq_none (by simp; omega)]

lemma pop (h : Holds cells head (x :: xs)) :
    Holds (cells.set head none) (wrap (head + 1) cells.length) xs where
  head_lt := by rw [length_set]; exact wrap_lt h.head_lt (by have := h.head_lt; omega)
  length_le := by
    have := h.length_le
    rw [length_cons] at this
    rw [length_set]
    omega
  cell := by
    intro k hk
    rw [length_set] at hk ⊢
    rw [wrap_succ h.head_lt hk]
    by_cases hlast : k + 1 = cells.length
    · -- all the way round: the cell that has just been emptied
      have hwrap : wrap (head + (k + 1)) cells.length = head := by
        unfold wrap
        split_ifs <;> omega
      have hlen := h.length_le
      rw [length_cons] at hlen
      rw [hwrap, getElem?_set_self h.head_lt, getElem?_eq_none (by omega)]
    · have hk' : k + 1 < cells.length := by omega
      have hne : head ≠ wrap (head + (k + 1)) cells.length := by
        unfold wrap
        split_ifs <;> omega
      rw [getElem?_set_ne hne, h.cell (k + 1) hk', getElem?_cons_succ]

lemma modify (h : Holds cells head xs) (hk : k < xs.length) (y : α) :
    Holds (cells.set (wrap (head + k) cells.length) (some y)) head (xs.set k y) where
  head_lt := by rw [length_set]; exact h.head_lt
  length_le := by rw [length_set, length_set]; exact h.length_le
  cell := by
    intro j hj
    rw [length_set] at hj ⊢
    have hk' := Nat.lt_of_lt_of_le hk h.length_le
    by_cases hjk : j = k
    · subst hjk
      rw [getElem?_set_self (wrap_lt h.head_lt (Nat.le_of_lt hj)),
        getElem?_set_self hk]
    · have hne : wrap (head + k) cells.length ≠ wrap (head + j) cells.length :=
        fun heq => hjk ((wrap_inj hk' hj).1 heq).symm
      rw [getElem?_set_ne hne, getElem?_set_ne (Ne.symm hjk), h.cell j hj]

end Holds

lemma Holds.rotate {cells head} {xs : List α} (h : Holds cells head xs) :
    cells.rotate head = xs.map some ++ replicate (cells.length - xs.length) none := by
  have hhead := h.head_lt
  have hlen := h.length_le
  refine ext_getElem? fun k => ?_
  by_cases hk : k < cells.length
  · have hwrap : wrap (head + k) cells.length = (k + head) % cells.length := by
      unfold wrap
      split_ifs with hle
      · rw [Nat.mod_eq_sub_mod (by omega), Nat.mod_eq_of_lt (by omega), Nat.add_comm]
      · rw [Nat.mod_eq_of_lt (by omega), Nat.add_comm]
    have hcell := h.cell k hk
    rw [hwrap] at hcell
    rw [getElem?_rotate hk, hcell, getElem?_append, length_map]
    split_ifs with hin
    · rw [getElem?_map, getElem?_eq_getElem hin, Option.map_some]
    · rw [getElem?_eq_none (by omega), getElem?_replicate_of_lt (by omega)]
  · rw [getElem?_eq_none (by rw [length_rotate]; omega),
      getElem?_eq_none (by simp; omega)]

lemma Holds.countP {cells head} {xs : List α} (h : Holds cells head xs) (p : α → Bool)
    : cells.countP (fun o => o.any p) = xs.countP p := by
  rw [← (rotate_perm cells head).countP_eq, h.rotate, countP_append, countP_map,
    countP_replicate]
  simp [Function.comp_def]

/-! ### Bringing an item to the head -/

def swap {β : Type} (cells : List β) (a b : ℕ) : List β :=
  match cells[a]?, cells[b]? with
  | some x, some y => (cells.set a y).set b x
  | _, _ => cells

/-- The item at place `k` changes places with each item in front of it, the nearest first. -/
def bubble (cells : List (Option α)) (head : ℕ) : ℕ → List (Option α)
  | 0 => cells
  | k + 1 =>
      bubble (swap cells (wrap (head + (k + 1)) cells.length) (wrap (head + k) cells.length)) head k

lemma length_swap {β : Type} (cells : List β) (a b : ℕ) :
    (swap cells a b).length = cells.length := by
  unfold swap
  split <;> simp

lemma length_bubble (cells : List (Option α)) (head k : ℕ) :
    (bubble cells head k).length = cells.length := by
  induction k generalizing cells with
  | zero => rfl
  | succ k ih => rw [bubble, ih, length_swap]

namespace Holds

variable {cells : List (Option α)} {head : ℕ} {x y : α} {pre post : List α}

lemma swap (h : Holds cells head (pre ++ x :: y :: post)) :
    Holds (RingCells.swap cells (wrap (head + (pre.length + 1)) cells.length)
      (wrap (head + pre.length) cells.length)) head (pre ++ y :: x :: post) := by
  have hx : pre.length < (pre ++ x :: y :: post).length := by simp
  have hy : pre.length + 1 < (pre ++ x :: y :: post).length := by simp
  have hcellx := h.item hx
  have hcelly := h.item hy
  have hgetx : (pre ++ x :: y :: post)[pre.length] = x := by simp
  have hgety : (pre ++ x :: y :: post)[pre.length + 1] = y := by simp
  rw [hgetx] at hcellx
  rw [hgety] at hcelly
  rw [RingCells.swap, hcelly, hcellx]
  have hset := (h.modify hy x).modify (k := pre.length) (by rw [length_set]; exact hx) y
  rw [length_set] at hset
  have hlist : ((pre ++ x :: y :: post).set (pre.length + 1) x).set pre.length y =
      pre ++ y :: x :: post := by simp
  rwa [hlist] at hset

/-- **An item is brought to the head**, and those that were in front of it follow. -/
theorem bubble (h : Holds cells head (pre ++ x :: post)) :
    Holds (RingCells.bubble cells head pre.length) head (x :: (pre ++ post)) := by
  -- by induction on the items in front, the nearest first
  induction pre using reverseRecOn generalizing cells post with
  | nil => exact h
  | append_singleton pre y ih =>
    rw [append_assoc, singleton_append] at h
    rw [length_append, length_singleton, RingCells.bubble]
    have hih := ih h.swap
    rwa [append_assoc, singleton_append]

end Holds

end RingCells
