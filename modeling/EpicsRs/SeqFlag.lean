/-
**The event flag of a queued channel.**

A monitor puts its value into the queue of the channel and sets the event flag, under the lock of
the program.  `pvGetQ` and `pvFlushQ` take from the queue without that lock and clear the flag under
it, `pvFlushQ` whatever the queue holds: a value that arrives in between stays behind a flag that is
not set.

Source: `epics-seq-rs/src/state_set.rs` (`clear_synced_flag`, `pv_get_q`, `pv_flush_q`), `ca.rs`
(`proc_db_events`), `queue.rs` (`SeqQueue`).

Main result: `SeqFlag.flag_set_while_queued`.
-/

import EpicsRs.StepRuns

set_option autoImplicit false

namespace SeqFlag

open List StepRuns

variable {α : Type}

/-- `SeqQueue::put`: on a full queue the newest value is overwritten. -/
def put (numElems : ℕ) (queue : List α) (value : α) : List α :=
  if queue.length < numElems then queue ++ [value] else queue.dropLast ++ [value]

/-- The queue and the flag, and the calls that are in progress. -/
structure World (α : Type) where
  numElems : ℕ
  queue : List α
  flag : Bool
  /-- A delivery has the lock of the program, between its put and its set. -/
  delivering : Bool
  /-- The `pvGetQ` calls between their get and their clear. -/
  getting : ℕ
  /-- The `pvFlushQ` calls between their flush and their clear. -/
  flushing : ℕ
deriving DecidableEq

inductive Act (α : Type) where
  | deliverPut (value : Option α)
  | deliverSet
  | get
  | clearIfEmpty
  | flush
  | clear

namespace World

def Quiet (w : World α) : Prop := w.delivering = false ∧ w.getting = 0 ∧ w.flushing = 0

/-- The flag is cleared under the lock, at once or if the queue is empty. -/
def clearSyncedFlag (w : World α) (onlyIfEmpty : Bool) : World α :=
  if !onlyIfEmpty || w.queue.isEmpty then { w with flag := false } else w

/-- One step; those under the lock wait for a delivery to end. -/
def step (w : World α) : Act α → Option (World α)
  | .deliverPut value =>
      if w.delivering then none
      else some { w with queue := value.elim w.queue (put w.numElems w.queue), delivering := true }
  | .deliverSet => if w.delivering then some { w with flag := true, delivering := false } else none
  | .get => some { w with queue := w.queue.tail, getting := w.getting + 1 }
  | .clearIfEmpty =>
      if w.delivering || w.getting = 0 then none
      else some { w.clearSyncedFlag true with getting := w.getting - 1 }
  | .flush => some { w with queue := [], flushing := w.flushing + 1 }
  | .clear =>
      if w.delivering || w.flushing = 0 then none
      else some { w.clearSyncedFlag false with flushing := w.flushing - 1 }

def start (numElems : ℕ) (flag : Bool) : World α := ⟨numElems, [], flag, false, 0, 0⟩

/-- The step does not deliver a value while a flush has not cleared the flag. -/
def apart (w : World α) : Act α → Bool
  | .deliverPut (some _) => w.flushing = 0
  | _ => true

/-- A value in the queue has the flag set, or a delivery about to set it; and a flush that has not
cleared the flag has left the queue empty. -/
structure Raised (w : World α) : Prop where
  flag : w.queue ≠ [] → w.flag = true ∨ w.delivering = true
  flushed : w.flushing ≠ 0 → w.queue = []

lemma Raised.step {w w'} {a : Act α} (h : Raised w) (hapart : w.apart a = true)
    (hstep : w.step a = some w') : Raised w' := by
  cases a with
  | deliverPut value =>
    obtain ⟨-, hstep⟩ := Option.ite_none_left_eq_some.1 hstep
    cases hstep
    refine ⟨fun _ => Or.inr rfl, fun hflush => ?_⟩
    cases value with
    | none => exact h.flushed hflush
    | some value => exact absurd (of_decide_eq_true hapart) hflush
  | deliverSet =>
    obtain ⟨-, hstep⟩ := Option.ite_none_right_eq_some.1 hstep
    cases hstep
    exact ⟨fun _ => Or.inl rfl, h.flushed⟩
  | get =>
    cases hstep
    refine ⟨fun hne => h.flag fun hnil => hne ?_, fun hflush => ?_⟩
    · rw [hnil, tail_nil]
    · rw [h.flushed hflush, tail_nil]
  | clearIfEmpty =>
    obtain ⟨-, hstep⟩ := Option.ite_none_left_eq_some.1 hstep
    cases hstep
    rw [clearSyncedFlag]
    split_ifs with hempty
    · have hnil : w.queue = [] := by simpa using hempty
      exact ⟨fun hne => absurd hnil hne, fun _ => hnil⟩
    · exact ⟨h.flag, h.flushed⟩
  | flush =>
    cases hstep
    exact ⟨fun hne => absurd rfl hne, fun _ => rfl⟩
  | clear =>
    obtain ⟨hheld, hstep⟩ := Option.ite_none_left_eq_some.1 hstep
    cases hstep
    -- nothing has arrived since the flush
    have hnil : w.queue = [] := h.flushed fun hzero => hheld (by simp [hzero])
    exact ⟨fun hne => absurd hnil hne, fun _ => hnil⟩

end World

/-- **A value in the queue has its flag set whenever no call is in progress**, if no value arrives
between the flush of a `pvFlushQ` and its clear. -/
theorem flag_set_while_queued (numElems : ℕ) (flag : Bool) (acts : List (Act α)) (w : World α)
    (hapart : Along World.step (fun w a => w.apart a = true) acts (World.start numElems flag))
    (hrun : run World.step acts (World.start numElems flag) = some w) (hquiet : w.Quiet)
    (hqueue : w.queue ≠ []) : w.flag = true := by
  have hstart : (World.start numElems flag : World α).Raised :=
    ⟨fun h => absurd rfl h, fun h => absurd rfl h⟩
  have hraised : w.Raised :=
    run_invariant (fun _ _ _ h hapart hstep => h.step hapart hstep) acts _ w hstart hapart hrun
  rcases hraised.flag hqueue with hflag | hdeliver
  · exact hflag
  · rw [hquiet.1] at hdeliver
    exact absurd hdeliver Bool.false_ne_true

/-- A value that arrives after the clear. -/
theorem flag_set_after_flush : ∃ w : World ℕ,
    run World.step [.flush, .clear, .deliverPut (some 7), .deliverSet] (World.start 2 false) = some w ∧
      w.queue = [7] ∧ w.flag = true :=
  ⟨_, rfl, rfl, flag_set_while_queued 2 false [.flush, .clear, .deliverPut (some 7), .deliverSet] _
    (by decide) rfl ⟨rfl, rfl, rfl⟩ (by decide)⟩

/-- A value that arrives between the flush and the clear stays behind a flag that is not set. -/
theorem queued_behind_cleared_flag : ∃ w : World ℕ,
    run World.step [.flush, .deliverPut (some 7), .deliverSet, .clear] (World.start 2 false) =
      some w ∧ w.Quiet ∧ w.queue = [7] ∧ w.flag = false :=
  ⟨_, rfl, ⟨rfl, rfl, rfl⟩, rfl, rfl⟩

end SeqFlag
