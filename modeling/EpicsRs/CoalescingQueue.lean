/-
**Queues that merge at the tail.**

A bounded queue that is full drops something, or merges an item into the last one.  The second loses
nothing if the merged item says what its parts said.  Marks — a start, an end, a fault — cannot be
merged.  `Step` is what such a queue may do; `Stands` says that an item stands for a sequence of
items, and only has to respect the merges.

Main results: `CoalescingQueue.Step.run_condenses`, `CoalescingQueue.Step.run_length_le`.
-/

import Mathlib

set_option autoImplicit false

namespace CoalescingQueue

open List

variable {α : Type}

/-! ### Condensed sequences -/

section

variable (data : α → Bool) (Stands : α → List α → Prop)

/-- The first sequence is the second one, with runs of data replaced by single items that stand for
them. -/
inductive Condenses : List α → List α → Prop
  | nil : Condenses [] []
  | mark {c : α} {xs ys : List α} (hc : data c = false) (h : Condenses xs ys) :
      Condenses (c :: xs) (c :: ys)
  | run {x : α} {block xs ys : List α} (hx : data x = true) (hblock : ∀ y ∈ block, data y = true)
      (hstands : Stands x block) (h : Condenses xs ys) : Condenses (x :: xs) (block ++ ys)

end

section

variable {data : α → Bool} {Stands : α → List α → Prop} {xs ys : List α}

lemma Condenses.append {xs' ys'} (h : Condenses data Stands xs ys)
    (h' : Condenses data Stands xs' ys') : Condenses data Stands (xs ++ xs') (ys ++ ys') := by
  induction h with
  | nil => exact h'
  | mark hc _ ih => exact .mark hc ih
  | run hx hblock hstands _ ih =>
    rw [append_assoc]
    exact .run hx hblock hstands ih

lemma Condenses.snoc (h : Condenses data Stands xs ys) {x} (hx : data x = true → Stands x [x])
    : Condenses data Stands (xs ++ [x]) (ys ++ [x]) := by
  refine h.append ?_
  cases hd : data x with
  | false => exact .mark hd .nil
  | true => exact .run hd (by simpa using hd) (hx hd) .nil

lemma Condenses.merge {t x z} (h : Condenses data Stands (xs ++ [t]) ys) (ht : data t = true)
    (hx : data x = true) (hz : data z = true)
    (hmerge : ∀ block, Stands t block → Stands z (block ++ [x])) :
    Condenses data Stands (xs ++ [z]) (ys ++ [x]) := by
  induction xs generalizing ys with
  | nil =>
    cases h with
    | mark hc _ => rw [ht] at hc; cases hc
    | @run _ block _ ys' _ hblock hstands hnil =>
      cases hnil
      have hblock' : ∀ y ∈ block ++ [x], data y = true := by
        intro y hy
        rcases mem_append.1 hy with hy | hy
        · exact hblock y hy
        · rw [mem_singleton.1 hy]
          exact hx
      have hlast := Condenses.run hz hblock' (hmerge block hstands) .nil
      simpa using hlast
  | cons y xs ih =>
    cases h with
    | mark hc h => exact .mark hc (ih h)
    | run hx' hblock hstands h =>
      rw [append_assoc]
      exact .run hx' hblock hstands (ih h)

lemma Condenses.exists_blocks (h : Condenses (fun _ => true) Stands xs ys) :
    ∃ blocks : List (List α), blocks.flatten = ys ∧ Forall₂ Stands xs blocks := by
  induction h with
  | nil => exact ⟨[], rfl, .nil⟩
  | mark hc _ _ => exact absurd hc nofun
  | @run x block xs ys _ _ hstands _ ih =>
    obtain ⟨blocks, rfl, hblocks⟩ := ih
    exact ⟨block :: blocks, rfl, .cons hstands hblocks⟩

lemma Condenses.exists_stands (h : Condenses data Stands xs ys) :
    ∀ x ∈ xs, data x = true → ∃ block, Stands x block := by
  induction h with
  | nil => exact fun x hx => absurd hx not_mem_nil
  | mark hc _ ih =>
    refine forall_mem_cons.2 ⟨fun hx => ?_, ih⟩
    rw [hc] at hx
    cases hx
  | run _ _ hstands _ ih => exact forall_mem_cons.2 ⟨fun _ => ⟨_, hstands⟩, ih⟩

lemma Condenses.marks_eq (h : Condenses data Stands xs ys) :
    xs.filter (fun x => !data x) = ys.filter fun y => !data y := by
  induction h with
  | nil => rfl
  | mark hc _ ih => simp [hc, ih]
  | @run x block xs ys hx hblock _ _ ih =>
    have hnone : block.filter (fun y => !data y) = [] :=
      filter_eq_nil_iff.2 fun y hy => by simp [hblock y hy]
    simp [hx, hnone, ih]

/-- **Every mark is where it was put**: what is before it condenses what was put before it, and what
is behind it what was put behind it. -/
theorem Condenses.split_mark {c} (hc : data c = false) {xs₂} :
    ∀ {xs₁ ys}, Condenses data Stands (xs₁ ++ c :: xs₂) ys →
      ∃ ys₁ ys₂, ys = ys₁ ++ c :: ys₂ ∧ Condenses data Stands xs₁ ys₁ ∧
        Condenses data Stands xs₂ ys₂ := by
  intro xs₁
  induction xs₁ with
  | nil =>
    intro ys h
    cases h with
    | mark _ h => exact ⟨[], _, rfl, .nil, h⟩
    | run hx _ _ _ => rw [hc] at hx; cases hx
  | cons x xs₁ ih =>
    intro ys h
    cases h with
    | mark hx h =>
      obtain ⟨ys₁, ys₂, rfl, h₁, h₂⟩ := ih h
      exact ⟨x :: ys₁, ys₂, rfl, .mark hx h₁, h₂⟩
    | @run _ block _ _ hx hblock hstands h =>
      obtain ⟨ys₁, ys₂, rfl, h₁, h₂⟩ := ih h
      exact ⟨block ++ ys₁, ys₂, by simp, .run hx hblock hstands h₁, h₂⟩

/-- **A consumer ends where it would have ended**, when it does nothing at a mark and an item leads
it where the items it stands for lead it. -/
theorem Condenses.foldlM_eq {ε σ : Type} {f : σ → α → Except ε σ} {I : σ → Prop}
    (hmark : ∀ s x, data x = false → f s x = .ok s)
    (hstands : ∀ x block, data x = true → (∀ y ∈ block, data y = true) → Stands x block →
      ∀ s, I s → ∃ t, I t ∧ f s x = .ok t ∧ block.foldlM f s = .ok t)
    (h : Condenses data Stands xs ys) :
    ∀ s, I s → ∃ t, I t ∧ xs.foldlM f s = .ok t ∧ ys.foldlM f s = .ok t := by
  induction h with
  | nil => exact fun s hs => ⟨s, hs, rfl, rfl⟩
  | mark hc _ ih =>
    intro s hs
    obtain ⟨t, ht, hxs, hys⟩ := ih s hs
    refine ⟨t, ht, ?_, ?_⟩
    · rw [foldlM_cons, hmark s _ hc]
      exact hxs
    · rw [foldlM_cons, hmark s _ hc]
      exact hys
  | run hdx hdblock hst _ ih =>
    intro s hs
    obtain ⟨s', hs', hx, hblock⟩ := hstands _ _ hdx hdblock hst s hs
    obtain ⟨t, ht, hxs, hys⟩ := ih s' hs'
    refine ⟨t, ht, ?_, ?_⟩
    · rw [foldlM_cons, hx]
      exact hxs
    · rw [foldlM_append, hblock]
      exact hys

end

/-! ### The length of a queue -/

section

variable (data : α → Bool)

def behindMark : List α → ℕ
  | x :: y :: xs => (if !data x && data y then 1 else 0) + behindMark (y :: xs)
  | _ => 0

def behindData : List α → ℕ
  | x :: y :: xs => (if data x && data y then 1 else 0) + behindData (y :: xs)
  | _ => 0

/-- A data item directly behind another one is among the first `limit` items. -/
def Packed (limit : ℕ) (q : List α) : Prop :=
  ∀ p x y r, q = p ++ x :: y :: r → data x = true → data y = true → p.length + 2 ≤ limit

end

section

variable {data : α → Bool} {limit : ℕ}

lemma length_eq (data : α → Bool) (x : α) (xs : List α) :
    (x :: xs).length = (if data x then 1 else 0) + ((x :: xs).filter fun y => !data y).length +
      behindMark data (x :: xs) + behindData data (x :: xs) := by
  induction xs generalizing x with
  | nil => cases hx : data x <;> simp [behindMark, behindData, hx]
  | cons y ys ih =>
    have hih := ih y
    simp only [length_cons] at hih ⊢
    rw [hih]
    cases hx : data x <;> cases hy : data y <;>
      simp [behindMark, behindData, hx, hy] <;> omega

/-- The same, from position `k` of a queue on. -/
lemma behindData_le (k : ℕ) (x : α) (xs : List α)
    (h : ∀ p y z r, x :: xs = p ++ y :: z :: r → data y = true → data z = true →
      k + p.length + 2 ≤ limit) : behindData data (x :: xs) ≤ limit - (k + 1) := by
  induction xs generalizing k x with
  | nil => exact Nat.zero_le _
  | cons y ys ih =>
    have hys := ih (k + 1) y fun p z w r heq hz hw => by
      have hle := h (x :: p) z w r (by rw [heq]; rfl) hz hw
      simp only [length_cons] at hle
      omega
    rw [behindData]
    split_ifs with hxy
    · rw [Bool.and_eq_true] at hxy
      have hle := h [] x y ys rfl hxy.1 hxy.2
      omega
    · omega

variable {q : List α}

theorem Packed.length_le (hlimit : 0 < limit) (h : Packed data limit q) :
    q.length ≤ limit + (q.filter fun x => !data x).length + behindMark data q := by
  cases q with
  | nil => exact Nat.zero_le _
  | cons x xs =>
    have hpairs : behindData data (x :: xs) ≤ limit - (0 + 1) :=
      behindData_le 0 x xs fun p y z r heq hy hz => by
        have hle := h p y z r heq hy hz
        omega
    have hlen := length_eq data x xs
    split_ifs at hlen <;> omega

lemma Packed.tail {x} (h : Packed data limit (x :: q)) : Packed data limit q := by
  intro p y z r heq hy hz
  have hle := h (x :: p) y z r (by rw [heq]; rfl) hy hz
  simp only [length_cons] at hle
  omega

lemma snoc_eq_split {p r t x y} (h : q ++ [t] = p ++ x :: y :: r) :
    (∃ r', q = p ++ x :: y :: r') ∨ (q = p ++ [x] ∧ t = y ∧ r = []) := by
  rcases eq_nil_or_concat r with rfl | ⟨r', z, rfl⟩
  · refine Or.inr ?_
    rw [show p ++ [x, y] = (p ++ [x]) ++ [y] by simp] at h
    obtain ⟨hq, ht⟩ := append_inj' h rfl
    exact ⟨hq, singleton_inj.1 ht, rfl⟩
  · refine Or.inl ⟨r', ?_⟩
    rw [concat_eq_append, show p ++ x :: y :: (r' ++ [z]) = (p ++ x :: y :: r') ++ [z] by simp]
      at h
    exact (append_inj' h rfl).1

lemma Packed.snoc {x} (h : Packed data limit q)
    (hx : data x = true → q.length < limit ∨ ∃ c, q.getLast? = some c ∧ data c = false) :
    Packed data limit (q ++ [x]) := by
  intro p y z r heq hy hz
  rcases snoc_eq_split heq with ⟨r', hq⟩ | ⟨rfl, rfl, -⟩
  · exact h p y z r' hq hy hz
  · rcases hx hz with hroom | ⟨c, hlast, hc⟩
    · rw [length_append, length_singleton] at hroom
      omega
    · rw [getLast?_concat] at hlast
      rw [Option.some.inj hlast, hc] at hy
      cases hy

lemma Packed.set_last {t z} (h : Packed data limit (q ++ [t])) (ht : data t = true) :
    Packed data limit (q ++ [z]) := by
  intro p y w r heq hy hw
  rcases snoc_eq_split heq with ⟨r', rfl⟩ | ⟨rfl, rfl, -⟩
  · exact h p y w (r' ++ [t]) (by simp) hy hw
  · exact h p y t [] (by simp) hy ht

end

/-! ### Runs -/

/-- A queue, what was taken from it and what was put into it. -/
structure State (α : Type) where
  queue : List α
  taken : List α
  put : List α

def State.start : State α := ⟨[], [], []⟩

section

variable (data : α → Bool) (Stands : α → List α → Prop) (limit : ℕ)

inductive Step : State α → State α → Prop
  /-- Put an item behind the others.  A data item needs room, or a mark in front of it. -/
  | append {s : State α} {x : α} (hself : data x = true → Stands x [x])
      (hroom : data x = true →
        s.queue.length < limit ∨ ∃ c, s.queue.getLast? = some c ∧ data c = false) :
      Step s ⟨s.queue ++ [x], s.taken, s.put ++ [x]⟩
  | merge {s : State α} {q : List α} {t x z : α} (hqueue : s.queue = q ++ [t])
      (ht : data t = true) (hx : data x = true) (hz : data z = true)
      (hmerge : ∀ block, Stands t block → Stands z (block ++ [x])) :
      Step s ⟨q ++ [z], s.taken, s.put ++ [x]⟩
  | take {s : State α} {x : α} {q : List α} (hqueue : s.queue = x :: q) :
      Step s ⟨q, s.taken ++ [x], s.put⟩

end

section

variable {data : α → Bool} {Stands : α → List α → Prop} {limit : ℕ} {s t : State α}

lemma Step.condenses (h : Step data Stands limit s t)
    (hs : Condenses data Stands (s.taken ++ s.queue) s.put) :
    Condenses data Stands (t.taken ++ t.queue) t.put := by
  cases h with
  | append hself hroom =>
    rw [← append_assoc]
    exact hs.snoc hself
  | merge hqueue ht hx hz hmerge =>
    rw [hqueue, ← append_assoc] at hs
    rw [← append_assoc]
    exact hs.merge ht hx hz hmerge
  | take hqueue =>
    rw [hqueue] at hs
    simpa using hs

lemma Step.packed (h : Step data Stands limit s t) (hs : Packed data limit s.queue) :
    Packed data limit t.queue := by
  cases h with
  | append hself hroom => exact hs.snoc hroom
  | merge hqueue ht hx hz hmerge =>
    rw [hqueue] at hs
    exact hs.set_last ht
  | take hqueue =>
    rw [hqueue] at hs
    exact hs.tail

/-- **What was taken and what is queued condense what was put.** -/
theorem Step.run_condenses (h : Relation.ReflTransGen (Step data Stands limit) State.start s) :
    Condenses data Stands (s.taken ++ s.queue) s.put := by
  induction h with
  | refl => exact .nil
  | tail _ hstep ih => exact hstep.condenses ih

/-- **The length of the queue**: the limit, the marks, and the data items that are directly behind
a mark. -/
theorem Step.run_length_le (hlimit : 0 < limit)
    (h : Relation.ReflTransGen (Step data Stands limit) State.start s) :
    s.queue.length ≤
      limit + (s.queue.filter fun x => !data x).length + behindMark data s.queue := by
  have hpacked : Packed data limit s.queue := by
    induction h with
    | refl => exact fun p x y r h => absurd h (by simp [State.start])
    | tail _ hstep ih => exact hstep.packed ih
  exact hpacked.length_le hlimit

end

end CoalescingQueue
