/-
**Walks over a graph.**

Two searches, each with a bound on its turns, and what they find: a depth-first one that collects a
set, and a breadth-first one that lists what it finds and gives up when it comes to a vertex that it
must not reach.  Then the connected components of a graph, and how they change with its edges.

Main results: `GraphWalk.mem_visit`, `GraphWalk.spread_eq_none`, `GraphWalk.spread_eq_some`.
-/

import Mathlib

set_option autoImplicit false

namespace GraphWalk

open List Option

variable {ν : Type}

/-- `y` is reached from `x` along successors. -/
def Reach (succ : ν → List ν) : ν → ν → Prop := Relation.ReflTransGen fun x y => y ∈ succ x

/-! ### Depth first -/

section

variable [DecidableEq ν] (succ : ν → List ν)

/-- The depth-first search: a stack, its top first, and the set of what was seen. -/
def visit : ℕ → List ν → Finset ν → Finset ν
  | 0, _, seen => seen
  | _ + 1, [], seen => seen
  | n + 1, x :: work, seen =>
      if x ∈ seen then visit n work seen
      else visit n ((succ x).reverse ++ work) (insert x seen)

variable {succ}

lemma visit_sound (n : ℕ) : ∀ {work seen y},
    y ∈ visit succ n work seen → y ∈ seen ∨ ∃ x ∈ work, Reach succ x y := by
  induction n with
  | zero => exact fun h => Or.inl h
  | succ n ih =>
    intro work seen y h
    cases work with
    | nil => exact Or.inl h
    | cons x work =>
      unfold visit at h
      split_ifs at h with hx
      · exact (ih h).imp_right fun ⟨z, hz, hr⟩ => ⟨z, mem_cons_of_mem x hz, hr⟩
      · rcases ih h with hy | ⟨z, hz, hr⟩
        · rcases Finset.mem_insert.1 hy with rfl | hy
          · exact Or.inr ⟨y, mem_cons_self, .refl⟩
          · exact Or.inl hy
        · rcases mem_append.1 hz with hz | hz
          · exact Or.inr ⟨x, mem_cons_self, .head (mem_reverse.1 hz) hr⟩
          · exact Or.inr ⟨z, mem_cons_of_mem x hz, hr⟩

/-- With enough turns the search ends with a set that is closed.  A turn takes one vertex off the
stack, and the successors of a vertex are put there once. -/
lemma visit_closed {U} (hU : ∀ x ∈ U, ∀ y ∈ succ x, y ∈ U) (n : ℕ) :
    ∀ {work seen}, (∀ x ∈ work, x ∈ U) →
      work.length + ∑ x ∈ U \ seen, (succ x).length ≤ n →
      seen ⊆ visit succ n work seen ∧ (∀ x ∈ work, x ∈ visit succ n work seen) ∧
        ∀ x ∈ visit succ n work seen, x ∉ seen → ∀ y ∈ succ x, y ∈ visit succ n work seen := by
  induction n with
  | zero =>
    intro work seen _ hn
    obtain rfl : work = [] := eq_nil_of_length_eq_zero (by omega)
    exact ⟨Finset.Subset.refl _, nofun, fun x hx hnot => absurd hx hnot⟩
  | succ n ih =>
    intro work seen hwork hn
    cases work with
    | nil => exact ⟨Finset.Subset.refl _, nofun, fun x hx hnot => absurd hx hnot⟩
    | cons x work =>
      have hwork' : ∀ z ∈ work, z ∈ U := fun z hz => hwork z (mem_cons_of_mem x hz)
      unfold visit
      rw [length_cons] at hn
      split_ifs with hx
      · have hn' : work.length + ∑ x ∈ U \ seen, (succ x).length ≤ n := by omega
        obtain ⟨hseen, hin, hclosed⟩ := ih hwork' hn'
        refine ⟨hseen, fun z hz => ?_, hclosed⟩
        rcases mem_cons.1 hz with rfl | hz
        · exact hseen hx
        · exact hin z hz
      · have hxU : x ∈ U \ seen := Finset.mem_sdiff.2 ⟨hwork x mem_cons_self, hx⟩
        have hsum := Finset.sum_erase_add (U \ seen) (fun x => (succ x).length) hxU
        have hsdiff : U \ insert x seen = (U \ seen).erase x := by
          rw [Finset.sdiff_insert]
        have hpush : ∀ z ∈ (succ x).reverse ++ work, z ∈ U := by
          intro z hz
          rcases mem_append.1 hz with hz | hz
          · exact hU x (Finset.mem_sdiff.1 hxU).1 z (mem_reverse.1 hz)
          · exact hwork' z hz
        have hlen : ((succ x).reverse ++ work).length +
            ∑ y ∈ U \ insert x seen, (succ y).length ≤ n := by
          rw [length_append, length_reverse, hsdiff]
          omega
        obtain ⟨hseen, hin, hclosed⟩ := ih hpush hlen
        refine ⟨fun z hz => hseen (Finset.mem_insert_of_mem hz), fun z hz => ?_,
          fun z hz hnot y hy => ?_⟩
        · rcases mem_cons.1 hz with rfl | hz
          · exact hseen (Finset.mem_insert_self z seen)
          · exact hin z (mem_append_right _ hz)
        · by_cases hzx : z = x
          · subst hzx
            exact hin y (mem_append_left _ (mem_reverse.2 hy))
          · exact hclosed z hz (by simp [hzx, hnot]) y hy

/-- **The depth-first search finds what is reachable.** -/
theorem mem_visit {U} (hU : ∀ x ∈ U, ∀ y ∈ succ x, y ∈ U) {seed} (hseed : seed ∈ U) {n}
    (hn : 1 + ∑ x ∈ U, (succ x).length ≤ n) {y} :
    y ∈ visit succ n [seed] ∅ ↔ Reach succ seed y := by
  constructor
  · intro hy
    rcases visit_sound n hy with hy | ⟨x, hx, hr⟩
    · exact absurd hy (Finset.notMem_empty y)
    · rwa [mem_singleton.1 hx] at hr
  · intro hr
    have hstart : ∀ x ∈ [seed], x ∈ U := fun x hx => by rwa [mem_singleton.1 hx]
    have hfuel : [seed].length + ∑ x ∈ U \ ∅, (succ x).length ≤ n := by rwa [Finset.sdiff_empty]
    obtain ⟨-, hin, hclosed⟩ := visit_closed hU n hstart hfuel
    induction hr with
    | refl => exact hin seed (mem_singleton_self seed)
    | tail _ hstep ih => exact hclosed _ ih (Finset.notMem_empty _) _ hstep

end

/-! ### Breadth first -/

section

variable [DecidableEq ν] (avoid : ν) (succ : ν → List ν)

/-- The successors of one vertex are listed, those that are not yet there; `none` if `avoid` is one
of them. -/
def enqueue : List ν → List ν → Option (List ν)
  | [], part => some part
  | y :: ys, part =>
      if y = avoid then none
      else if y ∈ part then enqueue ys part
      else enqueue ys (part ++ [y])

/-- The breadth-first search: what was found, and the place of the vertex to look at. -/
def spread : ℕ → ℕ → List ν → Option (List ν)
  | 0, _, part => some part
  | n + 1, next, part =>
      match part[next]? with
      | none => some part
      | some x => (enqueue avoid (succ x) part).bind (spread n (next + 1))

variable {avoid succ}

lemma enqueue_eq_none {ys} : ∀ {part},
    enqueue avoid ys part = none → avoid ∈ ys := by
  induction ys with
  | nil => exact fun h => absurd h nofun
  | cons y ys ih =>
    intro part h
    unfold enqueue at h
    split_ifs at h with hy hmem
    · exact hy ▸ mem_cons_self
    · exact mem_cons_of_mem y (ih h)
    · exact mem_cons_of_mem y (ih h)

lemma enqueue_eq_some {ys} : ∀ {part part'},
    enqueue avoid ys part = some part' → avoid ∉ ys ∧
      ∃ new, part' = part ++ new ∧ (∀ y ∈ new, y ∈ ys) ∧ (∀ y ∈ ys, y ∈ part') ∧
        (part.Nodup → part'.Nodup) := by
  induction ys with
  | nil =>
    intro part part' h
    obtain rfl := some.inj h
    exact ⟨not_mem_nil, [], (append_nil _).symm, nofun, nofun, fun h => h⟩
  | cons y ys ih =>
    intro part part' h
    unfold enqueue at h
    split_ifs at h with hy hmem
    · obtain ⟨havoid, new, rfl, hsub, hall, hnodup⟩ := ih h
      refine ⟨?_, new, rfl, fun z hz => mem_cons_of_mem y (hsub z hz), fun z hz => ?_, hnodup⟩
      · exact fun h => (mem_cons.1 h).elim (fun h => hy h.symm) havoid
      · rcases mem_cons.1 hz with rfl | hz
        · exact mem_append_left _ hmem
        · exact hall z hz
    · obtain ⟨havoid, new, rfl, hsub, hall, hnodup⟩ := ih h
      refine ⟨?_, y :: new, by simp, fun z hz => ?_, fun z hz => ?_, fun hpart => hnodup ?_⟩
      · exact fun h => (mem_cons.1 h).elim (fun h => hy h.symm) havoid
      · rcases mem_cons.1 hz with rfl | hz
        · exact mem_cons_self
        · exact mem_cons_of_mem y (hsub z hz)
      · rcases mem_cons.1 hz with rfl | hz
        · simp
        · exact hall z hz
      · rw [nodup_append]
        exact ⟨hpart, nodup_singleton y, fun a ha b hb => by
          rw [mem_singleton.1 hb]
          exact fun hab => hmem (hab ▸ ha)⟩

/-- What the search has found so far: each vertex once, the first ones with their successors. -/
structure Spreads (avoid : ν) (succ : ν → List ν) (seed : ν) (next : ℕ) (part : List ν) : Prop where
  nodup : part.Nodup
  seed_mem : seed ∈ part
  avoid_notMem : avoid ∉ part
  reach : ∀ y ∈ part, Reach succ seed y
  looked : ∀ x ∈ part.take next, ∀ y ∈ succ x, y ∈ part

lemma Spreads.next {seed next part part' x} (h : Spreads avoid succ seed next part)
    (hx : part[next]? = some x) (henq : enqueue avoid (succ x) part = some part') :
    Spreads avoid succ seed (next + 1) part' := by
  obtain ⟨havoid, new, rfl, hsub, hall, hnodup⟩ := enqueue_eq_some henq
  have hlt := (List.getElem?_eq_some_iff.1 hx).1
  have hxpart : x ∈ part := mem_of_getElem? hx
  refine ⟨hnodup h.nodup, mem_append_left _ h.seed_mem, ?_, fun y hy => ?_, fun z hz y hy => ?_⟩
  · rw [mem_append]
    exact fun hmem => hmem.elim h.avoid_notMem fun hnew => havoid (hsub _ hnew)
  · rcases mem_append.1 hy with hy | hy
    · exact h.reach y hy
    · exact (h.reach x hxpart).tail (hsub y hy)
  · rw [take_append_of_le_length (by omega), take_add_one, hx] at hz
    rcases mem_append.1 hz with hz | hz
    · exact mem_append_left _ (h.looked z hz y hy)
    · obtain rfl : z = x := by simpa using hz
      exact hall y hy

lemma spread_spec {U : Finset ν} (hU : ∀ x ∈ U, ∀ y ∈ succ x, y ∈ U) {seed} (hseed : seed ∈ U)
    (n : ℕ) : ∀ {next part}, Spreads avoid succ seed next part →
      U.card + 1 ≤ n + next →
      (spread avoid succ n next part = none → Reach succ seed avoid) ∧
        ∀ part', spread avoid succ n next part = some part' →
          part'.Nodup ∧ avoid ∉ part' ∧ ∀ y, y ∈ part' ↔ Reach succ seed y := by
  have hsubset : ∀ {part : List ν}, (∀ y ∈ part, Reach succ seed y) → ∀ y ∈ part, y ∈ U := by
    intro part hpart y hy
    have hr := hpart y hy
    clear hy
    induction hr with
    | refl => exact hseed
    | tail _ hstep ih => exact hU _ ih _ hstep
  have hlength : ∀ {part : List ν}, part.Nodup → (∀ y ∈ part, Reach succ seed y) →
      part.length ≤ U.card := by
    intro part hnodup hpart
    rw [← toFinset_card_of_nodup hnodup]
    exact Finset.card_le_card fun y hy => hsubset hpart y (mem_toFinset.1 hy)
  have hdone : ∀ {next : ℕ} {part : List ν}, Spreads avoid succ seed next part →
      part.length ≤ next → part.Nodup ∧ avoid ∉ part ∧ ∀ y, y ∈ part ↔ Reach succ seed y := by
    intro next part h hle
    refine ⟨h.nodup, h.avoid_notMem, fun y => ⟨h.reach y, fun hr => ?_⟩⟩
    induction hr with
    | refl => exact h.seed_mem
    | tail _ hstep ih => exact h.looked _ (by rwa [take_of_length_le hle]) _ hstep
  induction n with
  | zero =>
    intro next part h hn
    have hle := hlength h.nodup h.reach
    refine ⟨nofun, fun part' heq => ?_⟩
    obtain rfl := some.inj heq
    exact hdone h (by omega)
  | succ n ih =>
    intro next part h hn
    unfold spread
    cases hx : part[next]? with
    | none =>
      refine ⟨nofun, fun part' heq => ?_⟩
      obtain rfl := some.inj heq
      exact hdone h (getElem?_eq_none_iff.1 hx)
    | some x =>
      dsimp only
      cases henq : enqueue avoid (succ x) part with
      | none =>
        refine ⟨fun _ => ?_, nofun⟩
        exact (h.reach x (mem_of_getElem? hx)).tail (enqueue_eq_none henq)
      | some part₁ => exact ih (h.next hx henq) (by omega)

omit [DecidableEq ν] in
lemma Spreads.start {seed} (hne : seed ≠ avoid) : Spreads avoid succ seed 0 [seed] := by
  refine ⟨nodup_singleton seed, mem_singleton_self seed, ?_, fun y hy => ?_, nofun⟩
  · exact fun h => hne (mem_singleton.1 h).symm
  · rw [mem_singleton.1 hy]
    exact .refl

variable {U : Finset ν} (hU : ∀ x ∈ U, ∀ y ∈ succ x, y ∈ U) {seed : ν} (hseed : seed ∈ U)
  (hne : seed ≠ avoid) {n : ℕ} (hn : U.card + 1 ≤ n)
include hU hseed hne hn

/-- **The breadth-first search lists each reachable vertex once.** -/
theorem spread_eq_some {part : List ν} (h : spread avoid succ n 0 [seed] = some part) :
    part.Nodup ∧ avoid ∉ part ∧ ∀ y, y ∈ part ↔ Reach succ seed y :=
  (spread_spec hU hseed n (Spreads.start hne) hn).2 part h

/-- **The breadth-first search gives up when it comes to the vertex it must not reach.** -/
theorem spread_eq_none : spread avoid succ n 0 [seed] = none ↔ Reach succ seed avoid := by
  constructor
  · exact (spread_spec hU hseed n (Spreads.start hne) hn).1
  · intro hr
    cases h : spread avoid succ n 0 [seed] with
    | none => rfl
    | some part =>
      obtain ⟨-, havoid, hmem⟩ := spread_eq_some hU hseed hne hn h
      exact absurd ((hmem avoid).2 hr) havoid

end

/-! ### Connected components -/

/-- `x` and `y` are joined by edges, in either direction. -/
def Joined (e : ν → ν → Prop) : ν → ν → Prop := Relation.ReflTransGen fun x y => e x y ∨ e y x

section

variable {e e' : ν → ν → Prop} {a b x y z : ν}

lemma Joined.refl (x : ν) : Joined e x x := Relation.ReflTransGen.refl

lemma Joined.symm (h : Joined e x y) : Joined e y x := by
  induction h with
  | refl => exact Joined.refl x
  | tail _ hstep ih => exact Relation.ReflTransGen.head hstep.symm ih

lemma Joined.trans (hxy : Joined e x y) (hyz : Joined e y z) : Joined e x z :=
  Relation.ReflTransGen.trans hxy hyz

lemma Joined.of_edge (h : e x y) : Joined e x y := Relation.ReflTransGen.single (Or.inl h)

lemma Joined.mono (he : ∀ x y, e x y → e' x y) (h : Joined e x y) : Joined e' x y := by
  induction h with
  | refl => exact Joined.refl x
  | tail _ hstep ih => exact ih.tail (hstep.imp (he _ _) (he _ _))

lemma joined_congr (he : ∀ x y, e x y ↔ e' x y) : Joined e x y ↔ Joined e' x y :=
  ⟨Joined.mono fun x y => (he x y).1, Joined.mono fun x y => (he x y).2⟩

lemma Joined.mem_of_closed {P : ν → Prop} (hP : ∀ x y, P x → e x y ∨ e y x → P y)
    (h : Joined e x y) (hx : P x) : P y := by
  induction h with
  | refl => exact hx
  | tail _ hstep ih => exact hP _ _ ih hstep

/-- **Components when an edge is added.** -/
theorem joined_addEdge : Joined (fun x y => e x y ∨ x = a ∧ y = b) x y ↔
    Joined e x y ∨ Joined e x a ∧ Joined e b y ∨ Joined e x b ∧ Joined e a y := by
  constructor
  · intro h
    induction h with
    | refl => exact Or.inl (Joined.refl x)
    | @tail y z _ hstep ih =>
      -- the last edge is an old one, or the new one in one of its directions
      have hold : (e y z ∨ e z y) ∨ (y = a ∧ z = b) ∨ (z = a ∧ y = b) := by tauto
      rcases hold with hyz | ⟨rfl, rfl⟩ | ⟨rfl, rfl⟩
      · have hlast : Joined e y z := Relation.ReflTransGen.single hyz
        exact ih.imp (fun h => h.trans hlast)
          (Or.imp (fun h => ⟨h.1, h.2.trans hlast⟩) fun h => ⟨h.1, h.2.trans hlast⟩)
      · rcases ih with h | ⟨h, -⟩ | ⟨h, -⟩
        · exact Or.inr (Or.inl ⟨h, Joined.refl _⟩)
        · exact Or.inr (Or.inl ⟨h, Joined.refl _⟩)
        · exact Or.inl h
      · rcases ih with h | ⟨h, -⟩ | ⟨h, -⟩
        · exact Or.inr (Or.inr ⟨h, Joined.refl _⟩)
        · exact Or.inl h
        · exact Or.inr (Or.inr ⟨h, Joined.refl _⟩)
  · have hold : ∀ {x y : ν}, Joined e x y → Joined (fun x y => e x y ∨ x = a ∧ y = b) x y :=
      Joined.mono fun _ _ => Or.inl
    have hnew : Joined (fun x y => e x y ∨ x = a ∧ y = b) a b :=
      Joined.of_edge (Or.inr ⟨rfl, rfl⟩)
    rintro (h | ⟨hxa, hby⟩ | ⟨hxb, hay⟩)
    · exact hold h
    · exact (hold hxa).trans (hnew.trans (hold hby))
    · exact (hold hxb).trans (hnew.symm.trans (hold hay))

lemma joined_addEdge_of_joined (h : Joined e a b) :
    Joined (fun x y => e x y ∨ x = a ∧ y = b) x y ↔ Joined e x y := by
  rw [joined_addEdge]
  refine ⟨fun hxy => ?_, Or.inl⟩
  rcases hxy with hxy | ⟨hxa, hby⟩ | ⟨hxb, hay⟩
  · exact hxy
  · exact hxa.trans (h.trans hby)
  · exact hxb.trans (h.symm.trans hay)

lemma joined_addEdge_congr {b'} (h : Joined e b b') :
    Joined (fun x y => e x y ∨ x = a ∧ y = b) x y ↔
      Joined (fun x y => e x y ∨ x = a ∧ y = b') x y := by
  have hto : ∀ z, Joined e z b ↔ Joined e z b' := fun z =>
    ⟨fun hz => hz.trans h, fun hz => hz.trans h.symm⟩
  have hfrom : ∀ z, Joined e b z ↔ Joined e b' z := fun z =>
    ⟨fun hz => h.symm.trans hz, fun hz => h.trans hz⟩
  rw [joined_addEdge, joined_addEdge, hto, hfrom]

/-- **Components when the edges of one vertex change**: a component that the vertex is not in is
still joined. -/
theorem joined_off {s} (he : ∀ x y, x ≠ s → y ≠ s → e x y → e' x y) (h : Joined e x y) :
    Joined e x s ∨ Joined e' x y := by
  induction h with
  | refl => exact Or.inr (Joined.refl x)
  | @tail y z hxy hstep ih =>
    rcases ih with hs | hxy'
    · exact Or.inl hs
    · by_cases hy : y = s
      · subst hy
        exact Or.inl hxy
      · by_cases hz : z = s
        · subst hz
          exact Or.inl (hxy.tail hstep)
        · exact Or.inr (hxy'.tail (hstep.imp (he y z hy hz) (he z y hz hy)))

end

end GraphWalk
