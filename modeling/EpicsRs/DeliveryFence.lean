/-
**The delivery fence of a connection.**

The reader of a connection gives every monitor frame a ticket.  A task calls back when its ticket is
the oldest outstanding one, and a reply goes on when every ticket issued before it is released, by
delivery, by a squash or by a backlog that is abandoned.  The release of the oldest ticket wakes the
task of the next.

Source: `client_native/monitor_queue.rs` (`DeliveryFence`, `Delivery`, `FencePoint`).  What is done
under the lock is one action; the waker that a release takes out is called by another.  A waiting
task is named by its ticket, and the map to the wakers is in the order of its keys.

Main result: `DeliveryFence.delivery_ordered`.
-/

import EpicsRs.StepRuns

set_option autoImplicit false

namespace DeliveryFence

open StepRuns List

/-! ### The fence -/

/-- `Tickets`: the next number, and the outstanding tickets with whether a waker is stored.  The last two
fields are history: the wakers that were taken out and are still to be called, and the tickets whose task
has last been told to wait and was not woken since. -/
structure Fence where
  next : ℕ
  outstanding : List (ℕ × Bool)
  waking : List ℕ
  asleep : List ℕ

inductive Action
  | issue
  | poll (seq : ℕ)
  | release (seq : ℕ)
  | wake (seq : ℕ)

namespace Fence

def new : Fence := ⟨0, [], [], []⟩

/-- `first_key_value`. -/
def oldest (f : Fence) : Option ℕ := f.outstanding.head?.map Prod.fst

/-- A ticket was issued and is not released. -/
def Outstanding (f : Fence) (seq : ℕ) : Prop := seq ∈ f.outstanding.map Prod.fst

instance (f : Fence) (seq : ℕ) : Decidable (f.Outstanding seq) :=
  inferInstanceAs (Decidable (seq ∈ f.outstanding.map Prod.fst))

def issue (f : Fence) : Fence :=
  { f with next := f.next + 1, outstanding := f.outstanding ++ [(f.next, false)] }

/-- `Delivery::turn` is ready. -/
def turnReady (f : Fence) (seq : ℕ) : Bool := f.oldest = some seq

def storeWaker (seq : ℕ) (e : ℕ × Bool) : ℕ × Bool := if e.1 = seq then (e.1, true) else e

/-- A poll of `Delivery::turn`. -/
def poll (f : Fence) (seq : ℕ) : Fence :=
  if f.turnReady seq then { f with asleep := f.asleep.filter (· ≠ seq) }
  else { f with outstanding := f.outstanding.map (storeWaker seq), asleep := seq :: f.asleep }

/-- The turn passes to the first entry: its waker is taken out. -/
def passTurn (f : Fence) : Fence :=
  match f.outstanding with
  | (k, true) :: es => { f with outstanding := (k, false) :: es, waking := k :: f.waking }
  | _ => f

def remove (f : Fence) (seq : ℕ) : Fence :=
  { f with outstanding := f.outstanding.filter (·.1 ≠ seq) }

/-- `Drop for Delivery`. -/
def release (f : Fence) (seq : ℕ) : Fence :=
  if f.oldest = some seq then (f.remove seq).passTurn else f.remove seq

def wake (f : Fence) (seq : ℕ) : Fence :=
  { f with waking := f.waking.erase seq, asleep := f.asleep.filter (· ≠ seq) }

/-- The actions: only a ticket that is outstanding is polled or released. -/
def step (f : Fence) : Action → Option Fence
  | .issue => some f.issue
  | .poll seq => if f.Outstanding seq then some (f.poll seq) else none
  | .release seq => if f.Outstanding seq then some (f.release seq) else none
  | .wake seq => if seq ∈ f.waking then some (f.wake seq) else none

/-- `DeliveryFence::point`: the place of a reply, `none` where no ticket is outstanding. -/
def point (f : Fence) : Option ℕ := if f.outstanding.isEmpty then none else some f.next

/-- The test of `FencePoint::reached`. -/
def reachedReady (f : Fence) : Option ℕ → Bool
  | none => true
  | some at_ => f.oldest.all (at_ ≤ ·)

/-! ### The invariant -/

/-- The tickets stand in the order of their numbers, and a task that was told to wait has its waker stored
or called soon. -/
structure Kept (f : Fence) : Prop where
  sorted : (f.outstanding.map Prod.fst).Pairwise (· < ·)
  issued : ∀ e ∈ f.outstanding, e.1 < f.next
  slept : ∀ k ∈ f.asleep, k < f.next
  told : ∀ e ∈ f.outstanding, e.1 ∈ f.asleep → e.2 = true ∨ e.1 ∈ f.waking

/-- The invariant: besides, the oldest ticket has no waker stored. -/
structure Ordered (f : Fence) : Prop extends Kept f where
  first : ∀ e es, f.outstanding = e :: es → e.2 = false

lemma ordered_new : Ordered new where
  sorted := Pairwise.nil
  issued _ h := absurd h not_mem_nil
  slept _ h := absurd h not_mem_nil
  told _ h := absurd h not_mem_nil
  first _ _ h := nomatch h

variable {f g : Fence} {seq : ℕ}

lemma outstanding_of_oldest {k} (h : f.oldest = some k) : f.Outstanding k := by
  obtain ⟨e, he, rfl⟩ := Option.map_eq_some_iff.1 h
  exact mem_map_of_mem (mem_of_mem_head? he)

lemma oldest_of_outstanding (h : f.Outstanding seq) : ∃ k, f.oldest = some k := by
  cases hf : f.outstanding with
  | nil =>
    rw [Outstanding, hf] at h
    exact absurd h not_mem_nil
  | cons e es => exact ⟨e.1, by simp [oldest, hf]⟩

lemma Kept.oldest_le (h : Kept f) {k m} (hk : f.oldest = some k) (hm : f.Outstanding m) :
    k ≤ m := by
  obtain ⟨e, he, rfl⟩ := Option.map_eq_some_iff.1 hk
  obtain ⟨es, hes⟩ := head?_eq_some_iff.1 he
  have hsorted := h.sorted
  rw [Outstanding, hes, map_cons, mem_cons] at hm
  rw [hes, map_cons, pairwise_cons] at hsorted
  rcases hm with rfl | hm
  · exact Nat.le_refl _
  · exact Nat.le_of_lt (hsorted.1 m hm)

lemma Ordered.issue (h : Ordered f) : Ordered f.issue where
  sorted := by
    rw [Fence.issue, map_append, pairwise_append]
    refine ⟨h.sorted, pairwise_singleton _ _, fun k hk m hm => ?_⟩
    obtain ⟨e, he, rfl⟩ := mem_map.1 hk
    rw [map_singleton, mem_singleton] at hm
    rw [hm]
    exact h.issued e he
  issued e he := by
    rcases mem_append.1 he with he | he
    · exact Nat.lt_succ_of_lt (h.issued e he)
    · rw [mem_singleton.1 he]
      exact Nat.lt_succ_self _
  slept k hk := Nat.lt_succ_of_lt (h.slept k hk)
  told e he hs := by
    rcases mem_append.1 he with he | he
    · exact h.told e he hs
    · rw [mem_singleton.1 he] at hs
      exact absurd (h.slept _ hs) (Nat.lt_irrefl _)
  first e es he := by
    rw [Fence.issue] at he
    cases hf : f.outstanding with
    | nil =>
      rw [hf, nil_append] at he
      rw [← (cons.inj he).1]
    | cons a as =>
      rw [hf, cons_append] at he
      exact h.first e as (by rw [hf, (cons.inj he).1])

@[simp] lemma storeWaker_fst (e : ℕ × Bool) : (storeWaker seq e).1 = e.1 := by
  unfold storeWaker
  split <;> rfl

lemma storeWaker_of_ne {e} (h : e.1 ≠ seq) : storeWaker seq e = e := if_neg h

lemma map_fst_storeWaker (es : List (ℕ × Bool)) :
    (es.map (storeWaker seq)).map Prod.fst = es.map Prod.fst := by
  rw [map_map]
  exact map_congr_left fun e _ => storeWaker_fst e

lemma Ordered.poll (h : Ordered f) (hseq : seq < f.next) : Ordered (f.poll seq) := by
  unfold Fence.poll
  split
  · exact ⟨⟨h.sorted, h.issued, fun k hk => h.slept k (mem_filter.1 hk).1,
      fun e he hs => h.told e he (mem_filter.1 hs).1⟩, h.first⟩
  · rename_i hready
    refine { sorted := ?sorted, issued := ?issued, slept := ?slept, told := ?told, first := ?first }
    case sorted =>
      rw [map_fst_storeWaker]
      exact h.sorted
    case issued =>
      intro e' he'
      obtain ⟨e, he, rfl⟩ := mem_map.1 he'
      rw [storeWaker_fst]
      exact h.issued e he
    case slept => exact forall_mem_cons.2 ⟨hseq, h.slept⟩
    case told =>
      intro e' he' hs
      obtain ⟨e, he, rfl⟩ := mem_map.1 he'
      by_cases hk : e.1 = seq
      · exact .inl (by rw [storeWaker, if_pos hk])
      · rw [storeWaker_of_ne hk] at hs ⊢
        exact h.told e he ((mem_cons.1 hs).resolve_left hk)
    case first =>
      intro e' es' he
      cases hf : f.outstanding with
      | nil =>
        rw [hf] at he
        cases he
      | cons e es =>
        -- the oldest ticket is not the one that was polled
        have hk : e.1 ≠ seq := fun hk => hready (by simp [turnReady, oldest, hf, hk])
        rw [hf, map_cons, storeWaker_of_ne hk] at he
        rw [← (cons.inj he).1]
        exact h.first e es hf

lemma Kept.passTurn (h : Kept f) : Ordered f.passTurn := by
  unfold Fence.passTurn
  split
  · rename_i k es hf
    have hsorted := h.sorted
    have hissued := h.issued
    have htold := h.told
    rw [hf] at hsorted hissued htold
    refine { sorted := hsorted, issued := ?issued, slept := h.slept, told := ?told, first := ?first }
    case issued =>
      obtain ⟨hk, hes⟩ := forall_mem_cons.1 hissued
      exact forall_mem_cons.2 ⟨hk, hes⟩
    case told =>
      intro e he hs
      rcases mem_cons.1 he with rfl | he
      · exact .inr mem_cons_self
      · exact (htold e (mem_cons_of_mem _ he) hs).imp_right (mem_cons_of_mem _)
    case first =>
      intro e es' he
      rw [← (cons.inj he).1]
  · rename_i hnone
    refine ⟨h, fun e es he => ?_⟩
    obtain ⟨k, b⟩ := e
    cases b with
    | false => rfl
    | true => exact absurd he (hnone k es)

lemma Kept.remove (h : Kept f) : Kept (f.remove seq) where
  sorted := h.sorted.sublist (filter_sublist.map _)
  issued e he := h.issued e (mem_filter.1 he).1
  slept := h.slept
  told e he hs := h.told e (mem_filter.1 he).1 hs

lemma Ordered.release (h : Ordered f) : Ordered (f.release seq) := by
  unfold Fence.release
  split
  · exact h.toKept.remove.passTurn
  · rename_i hold
    refine ⟨h.toKept.remove, fun e' es' he => ?_⟩
    cases hf : f.outstanding with
    | nil =>
      rw [Fence.remove, hf] at he
      cases he
    | cons e es =>
      have hk : e.1 ≠ seq := fun hk => hold (by simp [oldest, hf, hk])
      rw [Fence.remove, hf, filter_cons_of_pos (by simpa using hk)] at he
      rw [← (cons.inj he).1]
      exact h.first e es hf

lemma Ordered.wake (h : Ordered f) : Ordered (f.wake seq) where
  sorted := h.sorted
  issued := h.issued
  slept k hk := h.slept k (mem_filter.1 hk).1
  told e he hs := by
    obtain ⟨hs, hk⟩ := mem_filter.1 hs
    refine (h.told e he hs).imp_right fun hw => ?_
    exact (mem_erase_of_ne (by simpa using hk)).2 hw
  first := h.first

lemma Kept.lt_next (h : Kept f) (hseq : f.Outstanding seq) : seq < f.next := by
  obtain ⟨e, he, rfl⟩ := mem_map.1 hseq
  exact h.issued e he

theorem step_ordered {a} (h : Ordered f) (hstep : f.step a = some g) : Ordered g := by
  cases a with
  | issue =>
    cases hstep
    exact h.issue
  | poll seq =>
    obtain ⟨hseq, hg⟩ := Option.ite_none_right_eq_some.1 hstep
    cases hg
    exact h.poll (h.toKept.lt_next hseq)
  | release seq =>
    obtain ⟨-, hg⟩ := Option.ite_none_right_eq_some.1 hstep
    cases hg
    exact h.release
  | wake seq =>
    obtain ⟨-, hg⟩ := Option.ite_none_right_eq_some.1 hstep
    cases hg
    exact h.wake

/-! ### Released tickets -/

lemma passTurn_keys (f : Fence) :
    f.passTurn.outstanding.map Prod.fst = f.outstanding.map Prod.fst ∧ f.passTurn.next = f.next := by
  unfold passTurn
  split
  · rename_i k es hf
    rw [hf]
    exact ⟨rfl, rfl⟩
  · exact ⟨rfl, rfl⟩

def Released (f : Fence) (k : ℕ) : Prop := k < f.next ∧ ¬ f.Outstanding k

instance (f : Fence) (k : ℕ) : Decidable (f.Released k) :=
  inferInstanceAs (Decidable (k < f.next ∧ ¬ f.Outstanding k))

lemma step_released {a k} (h : Released f k) (hstep : f.step a = some g) :
    Released g k := by
  cases a with
  | issue =>
    cases hstep
    refine ⟨Nat.lt_succ_of_lt h.1, fun hk => ?_⟩
    rw [Outstanding, Fence.issue, map_append, mem_append] at hk
    rcases hk with hk | hk
    · exact h.2 hk
    · exact Nat.ne_of_lt h.1 (mem_singleton.1 hk)
  | poll seq =>
    obtain ⟨-, hg⟩ := Option.ite_none_right_eq_some.1 hstep
    cases hg
    unfold Fence.poll
    split
    · exact h
    · refine ⟨h.1, fun hk => h.2 ?_⟩
      rwa [Outstanding, map_fst_storeWaker] at hk
  | release seq =>
    obtain ⟨-, hg⟩ := Option.ite_none_right_eq_some.1 hstep
    cases hg
    have hremove : Released (f.remove seq) k :=
      ⟨h.1, fun hk => h.2 ((filter_sublist.map _).subset hk)⟩
    unfold Fence.release
    split
    · obtain ⟨hkeys, hnext⟩ := passTurn_keys (f.remove seq)
      refine ⟨Nat.lt_of_lt_of_eq hremove.1 hnext.symm, fun hk => hremove.2 ?_⟩
      rwa [Outstanding, hkeys] at hk
    · exact hremove
  | wake seq =>
    obtain ⟨-, hg⟩ := Option.ite_none_right_eq_some.1 hstep
    cases hg
    exact h

variable {as : List Action}

lemma run_released {k} (h : Released f k) (hrun : run step as f = some g) :
    Released g k :=
  run_invariant (fun _ _ _ h _ hstep => step_released h hstep) as f g h (along_true as f) hrun

lemma next_le_step {a} (hstep : f.step a = some g) : f.next ≤ g.next := by
  cases a with
  | issue =>
    cases hstep
    exact Nat.le_succ _
  | poll seq =>
    obtain ⟨-, hg⟩ := Option.ite_none_right_eq_some.1 hstep
    cases hg
    unfold Fence.poll
    split <;> exact Nat.le_refl _
  | release seq =>
    obtain ⟨-, hg⟩ := Option.ite_none_right_eq_some.1 hstep
    cases hg
    unfold Fence.release
    split
    · exact Nat.le_of_eq (passTurn_keys (f.remove seq)).2.symm
    · exact Nat.le_refl _
  | wake seq =>
    obtain ⟨-, hg⟩ := Option.ite_none_right_eq_some.1 hstep
    cases hg
    exact Nat.le_refl _

lemma next_le_run (hrun : run step as f = some g) : f.next ≤ g.next :=
  run_invariant (I := fun h => f.next ≤ h.next)
    (fun _ _ _ h _ hstep => Nat.le_trans h (next_le_step hstep)) as f g (Nat.le_refl _)
    (along_true as f) hrun

lemma run_ordered (h : Ordered f) (hrun : run step as f = some g) : Ordered g :=
  run_invariant (fun _ _ _ h _ hstep => step_ordered h hstep) as f g h (along_true as f) hrun

end Fence

/-! ### Main result -/

open Fence

/-- **The order of deliveries**: whatever is issued, polled, released and woken, in any order, a turn is
granted to a ticket only when every ticket issued before it is released; the place of a reply that was
taken in a state `f` is reached in a later state `g` exactly when every ticket issued before it was taken
is released, whatever was issued since; and the oldest outstanding ticket has no waker stored, so that a
task that was told to wait for it has been woken or is about to be. -/
theorem delivery_ordered (as bs : List Action) (f g : Fence) (hf : run step as new = some f)
    (hg : run step bs f = some g) :
    (∀ seq, g.turnReady seq = true → ∀ k < seq, g.Released k) ∧
      (g.reachedReady f.point = true ↔ ∀ k < f.next, g.Released k) ∧
      ∀ k waker es, g.outstanding = (k, waker) :: es →
        waker = false ∧ (k ∈ g.asleep → k ∈ g.waking) := by
  have hordered : Ordered f := run_ordered ordered_new hf
  have hordered' : Ordered g := run_ordered hordered hg
  refine ⟨fun seq hturn k hk => ?_, ?_, fun k waker es he => ?_⟩
  · have hold : g.oldest = some seq := of_decide_eq_true hturn
    have hseq : seq < g.next := hordered'.toKept.lt_next (outstanding_of_oldest hold)
    refine ⟨Nat.lt_trans hk hseq, fun hout => ?_⟩
    exact absurd (hordered'.toKept.oldest_le hold hout) (Nat.not_le_of_lt hk)
  · unfold point
    split
    · -- nothing was outstanding, so nothing is waited for
      rename_i hnone
      refine ⟨fun _ k hk => run_released ⟨hk, fun hout => ?_⟩ hg, fun _ => rfl⟩
      rw [Outstanding, isEmpty_iff.1 hnone] at hout
      exact absurd hout not_mem_nil
    · rw [reachedReady, Option.all_eq_true]
      constructor
      · intro hall k hk
        refine ⟨Nat.lt_of_lt_of_le hk (next_le_run hg), fun hout => ?_⟩
        obtain ⟨m, hm⟩ := oldest_of_outstanding hout
        have hlater : f.next ≤ m := of_decide_eq_true (hall m hm)
        exact Nat.not_lt_of_le (Nat.le_trans hlater (hordered'.toKept.oldest_le hm hout)) hk
      · intro hall m hm
        refine decide_eq_true (Nat.le_of_not_lt fun hlt => ?_)
        exact (hall m hlt).2 (outstanding_of_oldest hm)
  · have hwaker := hordered'.first _ es he
    refine ⟨hwaker, fun hs => ?_⟩
    have htold := hordered'.told (k, waker) (by rw [he]; exact mem_cons_self) hs
    exact htold.resolve_left fun hw => absurd (hwaker.symm.trans hw) (by simp)

/-- Three tickets; a reply routed behind the second; the third waits for its turn while the second and then
the first are released. -/
theorem delivery_ordered_three :
    ∃ f g, run step [.issue, .issue] new = some f ∧
      run step [.issue, .poll 2, .release 1, .release 0] f = some g ∧ g.turnReady 2 = true ∧
      g.reachedReady f.point = true ∧ 2 ∈ g.asleep ∧ 2 ∈ g.waking := by
  obtain ⟨-, hreached, hwoken⟩ := delivery_ordered [.issue, .issue]
    [.issue, .poll 2, .release 1, .release 0] _ _ rfl rfl
  refine ⟨_, _, rfl, rfl, by decide, hreached.2 (by decide), by decide, ?_⟩
  exact (hwoken 2 false [] rfl).2 (by decide)

end DeliveryFence
