/-
**The occupancy counter of a monitor output.**

A source posts updates into a bounded channel and counts them in `pending`; the consumer counts them
down.  A value that is taken and counted down before it is counted leaves `pending` one too high for
good, since a countdown at zero is swallowed; so the gate refuses posts to a channel with room, in
the end to an empty one.

Source: `server_native/monitor_control.rs` (`MonitorControlOp::channel`, `try_post`, `force_post`,
`MonitorReceiver::recv`, `try_recv`, `note_one`).  The atomic operations are the steps, for any
number of producers and one consumer; the compare-exchange may fail for no reason.

Main result: `MonitorControl.pending_exact_iff`.
-/

import EpicsRs.SlotCount
import EpicsRs.StepRuns

set_option autoImplicit false

namespace MonitorControl

open SlotCount StepRuns

/-! ### The parties -/

/-- Where a producer is in `try_post` or `force_post`. -/
inductive Producer (α : Type)
  | idle
  /-- `try_post` is about to load `pending`. -/
  | entered (value : α)
  /-- It has loaded `pending`, and is about to load the watermark. -/
  | loaded (value : α) (p : ℕ)
  /-- The value is about to be sent. -/
  | sending (value : α)
  /-- The value is in the channel and not counted yet. -/
  | counting

def Producer.owed {α : Type} : Producer α → Option Unit
  | .counting => some ()
  | _ => none

/-- Where the consumer is in `recv` or `try_recv`. -/
inductive Consumer
  | idle
  /-- It has taken a value and is about to load `pending`. -/
  | taken
  /-- It has loaded `pending`, and is about to exchange it. -/
  | noting (cur : ℕ)

/-- Whether a value that was taken is not counted down yet. -/
def Consumer.owes : Consumer → ℕ
  | .idle => 0
  | _ => 1

/-- The channel, the counter, the watermark, and where everybody is. -/
structure State (ι α : Type) where
  capacity : ℕ
  queue : List α
  pending : ℕ
  highWatermark : ℕ
  producers : ι → Producer α
  consumer : Consumer

/-- The gate of `try_post`. -/
def overHighWatermark (hw p : ℕ) : Bool := decide (0 < hw) && decide (hw ≤ p)

inductive Action (ι α : Type)
  | tryPost (i : ι) (value : α)
  | forcePost (i : ι) (value : α)
  | loadPending (i : ι)
  | loadWatermark (i : ι)
  | trySend (i : ι)
  | fetchAdd (i : ι)
  | take
  | loadCur
  | exchange (spurious : Bool)
  | setHighWatermark (n : ℕ)

namespace State

variable {ι α : Type} [DecidableEq ι]

def channel (capacity : ℕ) : State ι α := ⟨capacity, [], 0, capacity / 2, fun _ => .idle, .idle⟩

def setProducer (s : State ι α) (i : ι) (p : Producer α) : State ι α :=
  { s with producers := Function.update s.producers i p }

def step (s : State ι α) : Action ι α → Option (State ι α)
  | .tryPost i value =>
      match s.producers i with
      | .idle => some (s.setProducer i (.entered value))
      | _ => none
  | .forcePost i value =>
      match s.producers i with
      | .idle => some (s.setProducer i (.sending value))
      | _ => none
  | .loadPending i =>
      match s.producers i with
      | .entered value => some (s.setProducer i (.loaded value s.pending))
      | _ => none
  -- the post is refused, or goes on
  | .loadWatermark i =>
      match s.producers i with
      | .loaded value p =>
          some (s.setProducer i
            (if overHighWatermark s.highWatermark p then .idle else .sending value))
      | _ => none
  -- a full channel refuses the value
  | .trySend i =>
      match s.producers i with
      | .sending value =>
          if s.queue.length < s.capacity then
            some { s.setProducer i .counting with queue := s.queue ++ [value] }
          else some (s.setProducer i .idle)
      | _ => none
  | .fetchAdd i =>
      match s.producers i with
      | .counting => some { s.setProducer i .idle with pending := s.pending + 1 }
      | _ => none
  | .take =>
      match s.consumer, s.queue with
      | .idle, _ :: queue => some { s with queue := queue, consumer := .taken }
      | _, _ => none
  | .loadCur =>
      match s.consumer with
      | .taken => some { s with consumer := .noting s.pending }
      | _ => none
  -- a failed exchange hands back what it saw
  | .exchange spurious =>
      match s.consumer with
      | .noting cur =>
          if s.pending = cur ∧ spurious = false then
            some { s with pending := cur - 1, consumer := .idle }
          else some { s with consumer := .noting s.pending }
      | _ => none
  | .setHighWatermark n => some { s with highWatermark := n }

/-- A countdown does not find `pending` at zero. -/
def counts (s : State ι α) : Action ι α → Bool
  | .exchange spurious =>
      match s.consumer with
      | .noting cur => decide (0 < s.pending) || decide (s.pending ≠ cur) || spurious
      | _ => true
  | _ => true

structure Quiet (s : State ι α) : Prop where
  producers : ∀ i, s.producers i = .idle
  consumer : s.consumer = .idle

variable [Fintype ι]

def owed (s : State ι α) : ℕ := holders (fun i => (s.producers i).owed) ()

/-- What the counter will say when everybody is done, against what the channel will hold. -/
def surplus (s : State ι α) : ℤ :=
  (s.pending + s.owed : ℤ) - (s.queue.length + s.consumer.owes : ℤ)

/-! ### What a step does to the surplus -/

variable {s t : State ι α}

lemma owed_setProducer (s : State ι α) (i : ι) (p : Producer α) :
    (s.setProducer i p).owed =
      holders (Function.update (fun j => (s.producers j).owed) i p.owed) () := by
  unfold owed setProducer
  congr 1
  funext j
  by_cases hj : j = i
  · subst hj
    simp
  · simp [Function.update_of_ne hj]

lemma surplus_setProducer {i p} (hold : (s.producers i).owed = none) (hnew : p.owed = none)
    : (s.setProducer i p).surplus = s.surplus := by
  have howed : (s.setProducer i p).owed = s.owed := by
    rw [owed_setProducer, holders_update_of_ne]
    · rfl
    · simp [hold]
    · simp [hnew]
  rw [surplus, howed]
  rfl

lemma owed_setProducer_counting {i} (hold : (s.producers i).owed = none) :
    (s.setProducer i .counting).owed = s.owed + 1 := by
  rw [owed_setProducer, Producer.owed, holders_fill]
  · rfl
  · simp [hold]

lemma owed_setProducer_counted {i} (hold : s.producers i = .counting) :
    (s.setProducer i .idle).owed + 1 = s.owed := by
  rw [owed_setProducer]
  exact holders_drop (by simp [hold, Producer.owed]) (by simp [Producer.owed])

/-- **The step lemma**: a countdown of zero adds one to the surplus, nothing else changes it. -/
theorem step_surplus {a} (hstep : s.step a = some t) :
    t.surplus = s.surplus + if s.counts a = true then 0 else 1 := by
  cases a with
  | tryPost i value =>
    cases hp : s.producers i <;> simp only [step, hp] at hstep <;> cases hstep
    simpa [counts] using surplus_setProducer (by rw [hp]; rfl) rfl
  | forcePost i value =>
    cases hp : s.producers i <;> simp only [step, hp] at hstep <;> cases hstep
    simpa [counts] using surplus_setProducer (by rw [hp]; rfl) rfl
  | loadPending i =>
    cases hp : s.producers i <;> simp only [step, hp] at hstep <;> cases hstep
    simpa [counts] using surplus_setProducer (by rw [hp]; rfl) rfl
  | loadWatermark i =>
    cases hp : s.producers i <;> simp only [step, hp] at hstep <;> cases hstep
    rename_i value p
    have hnew : (if overHighWatermark s.highWatermark p then Producer.idle
        else .sending value).owed = none := by
      split <;> rfl
    simpa [counts] using surplus_setProducer (by rw [hp]; rfl) hnew
  | trySend i =>
    cases hp : s.producers i <;> simp only [step, hp] at hstep <;> try cases hstep
    rename_i value
    split at hstep <;> cases hstep
    · have howed := owed_setProducer_counting (s := s) (i := i) (by rw [hp]; rfl)
      show ((s.pending : ℤ) + (s.setProducer i .counting).owed) -
        ((s.queue ++ [value]).length + s.consumer.owes) = _
      rw [howed, List.length_append, List.length_singleton]
      simp only [surplus, counts, if_true]
      omega
    · simpa [counts] using surplus_setProducer (by rw [hp]; rfl) rfl
  | fetchAdd i =>
    cases hp : s.producers i <;> simp only [step, hp] at hstep <;> cases hstep
    have howed := owed_setProducer_counted hp
    show ((s.pending + 1 : ℕ) + (s.setProducer i .idle).owed : ℤ) -
      (s.queue.length + s.consumer.owes) = _
    simp only [surplus, counts, if_true]
    omega
  | take =>
    cases hc : s.consumer <;> cases hq : s.queue <;> simp only [step, hc, hq] at hstep <;>
      cases hstep
    rename_i queue
    show ((s.pending : ℤ) + s.owed) - (queue.length + 1) = _
    simp only [surplus, counts, if_true, hc, hq, List.length_cons, Consumer.owes]
    omega
  | loadCur =>
    cases hc : s.consumer <;> simp only [step, hc] at hstep <;> cases hstep
    show ((s.pending : ℤ) + s.owed) - (s.queue.length + 1) = _
    simp only [surplus, counts, if_true, hc, Consumer.owes]
    omega
  | exchange spurious =>
    cases hc : s.consumer <;> simp only [step, hc] at hstep <;> try cases hstep
    rename_i cur
    split at hstep <;> cases hstep
    · -- the exchange: the count goes down, unless it is at zero
      rename_i hswap
      show (((cur - 1 : ℕ) : ℤ) + s.owed) - (s.queue.length + (0 : ℕ)) = _
      simp only [surplus, counts, hc, Consumer.owes, hswap]
      rcases Nat.eq_zero_or_pos cur with hz | hpos
      · simp only [hz]
        simp
        omega
      · simp [hpos]
        omega
    · rename_i hfail
      show ((s.pending : ℤ) + s.owed) - (s.queue.length + 1) = _
      have hcounts : s.counts (.exchange spurious) = true := by
        by_cases hp : s.pending = cur
        · have hsp : spurious = true := by simpa [hp] using hfail
          simp [counts, hc, hsp]
        · simp [counts, hc, hp]
      simp only [hcounts, if_true, surplus, hc, Consumer.owes]
      omega
  | setHighWatermark n =>
    cases hstep
    simp [surplus, counts, owed]

omit [DecidableEq ι] in
/-- Between calls, the surplus is what `pending` is too high by. -/
lemma Quiet.surplus_eq (h : Quiet s) : s.surplus = (s.pending : ℤ) - s.queue.length := by
  have howed : s.owed = 0 := holders_eq_zero_iff.2 fun i => by simp [h.producers i, Producer.owed]
  rw [surplus, howed, h.consumer]
  simp [Consumer.owes]

end State

/-! ### Main results -/

section Runs

variable {ι α : Type} [DecidableEq ι] [Fintype ι]

open State

omit [DecidableEq ι] in
lemma surplus_channel (capacity : ℕ) : (channel capacity : State ι α).surplus = 0 := by
  have hquiet : Quiet (channel capacity : State ι α) := ⟨fun _ => rfl, rfl⟩
  rw [hquiet.surplus_eq]
  rfl

/-- **Between calls `pending` is what the channel holds, and the gate refuses a post only where that many
values are queued, if and only if no countdown found `pending` at zero.** -/
theorem pending_exact_iff (capacity : ℕ) (as : List (Action ι α)) (s : State ι α)
    (hrun : run step as (channel capacity) = some s) (hquiet : s.Quiet) :
    (s.pending = s.queue.length ∧
      (overHighWatermark s.highWatermark s.pending = true → s.highWatermark ≤ s.queue.length)) ↔
      Along step (fun s a => s.counts a = true) as (channel capacity) := by
  constructor
  · rintro ⟨hexact, -⟩
    by_contra halong
    -- a surplus is never taken back
    have hkept : ∀ (s : State ι α) a t, 0 ≤ s.surplus → step s a = some t → 0 ≤ t.surplus := by
      intro s a t h ht
      rw [step_surplus ht]
      split <;> omega
    have hraised : ∀ (s : State ι α) a t, 0 ≤ s.surplus → ¬ s.counts a = true → step s a = some t →
        0 < t.surplus := by
      intro s a t h ha ht
      rw [step_surplus ht, if_neg ha]
      omega
    have hstays : ∀ (s : State ι α) a t, 0 < s.surplus → step s a = some t → 0 < t.surplus := by
      intro s a t h ht
      rw [step_surplus ht]
      split <;> omega
    have hpos : 0 < s.surplus :=
      run_of_not_along hkept hraised hstays as _ s (Int.le_of_eq (surplus_channel capacity).symm)
        halong hrun
    rw [hquiet.surplus_eq, hexact] at hpos
    omega
  · intro halong
    have hzero : s.surplus = 0 :=
      run_invariant (I := fun s : State ι α => s.surplus = 0)
        (fun s a t h ha ht => by rw [step_surplus ht, if_pos ha, h]; rfl) as _ s
        (surplus_channel capacity) halong hrun
    rw [hquiet.surplus_eq] at hzero
    have hexact : s.pending = s.queue.length := by omega
    refine ⟨hexact, fun hgate => ?_⟩
    rw [hexact, overHighWatermark, Bool.and_eq_true] at hgate
    exact of_decide_eq_true hgate.2

end Runs

def countedRun : List (Action Unit ℕ) :=
  [.tryPost () 7, .loadPending (), .loadWatermark (), .trySend (), .fetchAdd (), .take, .loadCur,
    .exchange true, .exchange false]

theorem pending_exact_iff_counted :
    ∃ s : State Unit ℕ, run State.step countedRun (State.channel 2) = some s ∧ s.Quiet ∧
      s.pending = s.queue.length ∧
      Along State.step (fun s a => s.counts a = true) countedRun (State.channel 2) := by
  have hquiet : ∀ s : State Unit ℕ, run State.step countedRun (State.channel 2) = some s → s.Quiet := by
    rintro s ⟨⟩
    exact ⟨fun _ => rfl, rfl⟩
  refine ⟨_, rfl, hquiet _ rfl, ?_, by decide⟩
  exact ((pending_exact_iff 2 countedRun _ rfl (hquiet _ rfl)).2 (by decide)).1

/-- A post into a channel for two values whose consumer takes the value and counts it down before the
producer counts it: the channel is empty, and the gate refuses every further post. -/
def swallowedRun : List (Action Unit ℕ) :=
  [.forcePost () 7, .trySend (), .take, .loadCur, .exchange false, .fetchAdd ()]

theorem pending_too_high :
    ∃ s : State Unit ℕ, run State.step swallowedRun (State.channel 2) = some s ∧ s.Quiet ∧
      s.queue = [] ∧ s.pending = 1 ∧ s.highWatermark = 1 ∧
      overHighWatermark s.highWatermark s.pending = true :=
  ⟨_, rfl, ⟨fun _ => rfl, rfl⟩, rfl, rfl, rfl, rfl⟩

end MonitorControl
