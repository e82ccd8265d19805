/-
**Put-callbacks: wait-sets, the slot of a record and its restart list.**

A put with callback is answered when the record it was made to, and every record that the processing
went on to, has ended its cycle.  A wait-set counts the records that have not, a record's slot holds
the set it is in, and a request that finds the record busy waits on its restart list.

Source: `server/record/record_instance.rs` (`NotifyWaitSet`, `PactExit`, the slot and the restart
list), `server/database/field_io.rs` (`NotifyClaim`, `restart_next_notify_put`,
`cancel_unanswerable_notify`, the arrivals) and `server/database/processing.rs`
(`process_get_notify`, the exits of a cycle).  Every action is one such call, and those of other
frames fall between any two.  Arrivals from outside, the restart task, the sweep of a dead set and
the removal of a record wait while the record's put or cycle is on its way.  What process routine,
links and fields decide is the argument of an action.
-/

import EpicsRs.SlotCount
import EpicsRs.StepRuns

set_option autoImplicit false

namespace PutNotify

open SlotCount Function Option

/-! ### Wait-sets -/

/-- `NotifyWaitSet`.  `tx` says that the sender of the completion is still there and `closed` that its
receiver is gone.  The last three fields are history: how often the completion was sent, how many holds
are out that belong to no record's slot (the initiator's, and those of external puts), and whether a
claim on the set was abandoned, the set was cancelled, or a member was destroyed. -/
structure WaitSet (ι : Type) where
  pending : ℕ
  entry : Option ι
  joined : List ι
  tx : Bool
  failed : Bool
  closed : Bool
  sent : ℕ
  holds : ℕ
  spoiled : Bool

namespace WaitSet

variable {ι : Type}

/-- `NotifyWaitSet::new` and `for_entry_record`, with the hold that `pending` starts from counted if it is
the initiator's. -/
def new (entry : Option ι) (holds : ℕ) : WaitSet ι :=
  ⟨1, entry, [], true, false, false, 0, holds, false⟩

def enter (w : WaitSet ι) : WaitSet ι := { w with pending := w.pending + 1 }

/-- `fetch_sub(1)` on a `usize`. -/
def wrapPred : ℕ → ℕ
  | 0 => 2 ^ 64 - 1
  | n + 1 => n

/-- The sender is taken, and used unless the put failed. -/
def fire (w : WaitSet ι) : WaitSet ι :=
  { w with tx := false, sent := if w.tx && !w.failed then w.sent + 1 else w.sent }

/-- `leave`: the completion is sent by the `leave` that empties the set. -/
def leave (w : WaitSet ι) : WaitSet ι :=
  let w' := { w with pending := wrapPred w.pending }
  if w.pending = 1 then w'.fire else w'

def fail (w : WaitSet ι) : WaitSet ι := { w with failed := true }

/-- `abandon`: a member was destroyed. -/
def abandon (w : WaitSet ι) : WaitSet ι := { w with tx := false, spoiled := true }

/-- A claim on the set was dropped, or the set was swept. -/
def spoil (w : WaitSet ι) : WaitSet ι := { w with spoiled := true }

def close (w : WaitSet ι) : WaitSet ι := { w with closed := true }

def hold (w : WaitSet ι) : WaitSet ι := { w.enter with holds := w.holds + 1 }

def release (w : WaitSet ι) : WaitSet ι := { w.leave with holds := w.holds - 1 }

def recordJoined [DecidableEq ι] (w : WaitSet ι) (r : ι) : WaitSet ι :=
  if w.entry = some r then w else { w with joined := w.joined ++ [r] }

def joinedRecords (w : WaitSet ι) : List ι := w.entry.toList ++ w.joined

def isUnanswerable (w : WaitSet ι) : Bool := w.tx && w.closed

end WaitSet

/-! ### Records -/

/-- `DeferredNotify`: what a request on the restart list asks for. -/
inductive Kind
  | put
  | process
  | processGet
  | wait
deriving DecidableEq

/-- A request on the restart list, with its number among the requests that arrived at the record. -/
structure Request where
  ticket : ℕ
  kind : Kind
deriving DecidableEq

/-- What a record keeps: whether it was removed, its PACT flag, its slot, its restart list and the restart
tasks that were spawned for it; the set of the put whose claim is open (`NotifyClaim`), and for each cycle
of it that is running the `PactExit` minted so far.  The last two fields are history: how many requests
arrived, and which of them were taken up, in order. -/
structure Rec where
  destroyed : Bool
  pact : Bool
  slot : Option ℕ
  restart : List Request
  tasks : ℕ
  claim : Option ℕ
  running : List Bool
  arrived : ℕ
  started : List ℕ
deriving DecidableEq

namespace Rec

def init : Rec := ⟨false, false, none, [], 0, none, [], 0, []⟩

/-- `notify_restart_pending`. -/
def restartPending (x : Rec) : Bool := !x.restart.isEmpty

/-- `notify_put_is_owned`. -/
def owned (x : Rec) : Bool := x.slot.isSome || x.pact || x.restartPending

/-- No put and no cycle of the record is on its way, so its lock is free. -/
def atRest (x : Rec) : Bool := x.running.isEmpty && x.claim.isNone

/-- `queue_notify_put`. -/
def queue (x : Rec) (kind : Kind) : Rec :=
  { x with restart := x.restart ++ [⟨x.arrived, kind⟩], arrived := x.arrived + 1 }

def admitFresh (x : Rec) : Rec :=
  { x with started := x.started ++ [x.arrived], arrived := x.arrived + 1 }

/-- `apply_pact_exit`. -/
def applyExit (x : Rec) (exit : Bool) : Rec := if exit then { x with tasks := x.tasks + 1 } else x

def vacate (x : Rec) : Rec := { x with slot := none }

def take (x : Rec) (w : ℕ) : Rec := { x with slot := some w }

def setClaim (x : Rec) (claim : Option ℕ) : Rec := { x with claim := claim }

def enterPact (x : Rec) : Rec := { x with pact := true }

def openCycle (x : Rec) : Rec := { x with running := x.restartPending :: x.running }

/-- `leave_pact` at the head of the cycle that continues or completes. -/
def leavePact (x : Rec) : Rec := { x.openCycle with pact := false }

/-- The cycle mints again, and the tokens are merged. -/
def remint (x : Rec) : Rec :=
  { x with running := (x.running.headD false || x.restartPending) :: x.running.tail }

def closeCycle (x : Rec) : Rec := { x with running := x.running.tail }

def token (x : Rec) : Bool := x.running.headD false

/-- `release_notify` by a sweep, and the restart check it owes. -/
def releaseNotify (x : Rec) (dead : ℕ) : Rec :=
  if x.slot = some dead then x.vacate.applyExit x.restartPending else x

def destroy (x : Rec) : Rec := { x with destroyed := true, restart := [], slot := none }

def endTask (x : Rec) : Rec := { x with tasks := x.tasks - 1 }

/-- `take_next_notify_restart`: the head of the list of a record that is free. -/
def takeNext (x : Rec) : Option Request :=
  if x.destroyed || x.slot.isSome || x.pact then none else x.restart.head?

def popNext (x : Rec) : Rec :=
  { x with restart := x.restart.tail, started := x.started ++ (x.restart.head?.map Request.ticket).toList }

end Rec

/-! ### The state -/

structure State (ι : Type) where
  recs : ι → Rec
  sets : ℕ → WaitSet ι
  made : ℕ

/-- The actions.  `passive` says that the record's SCAN is Passive, `onChain` that a frame of the record
is on the current chain, and `complete` that the cycle called its forward link and `is_put_complete`. -/
inductive Action (ι : Type)
  | newPutNotify
  | externalPut (w : ℕ)
  | dropHold (w : ℕ)
  | closeReceiver (w : ℕ)
  | cancel (r : ι)
  | putArrives (r : ι)
  | processArrives (r : ι) (passive : Bool)
  | waitArrives (r : ι)
  | getArrives (r : ι) (passive : Bool)
  | dropClaim (r : ι)
  | completeUnprocessed (r : ι)
  | commit (r : ι) (refused : Bool)
  | admitTarget (r : ι) (w : ℕ) (onChain : Bool)
  | beginCycle (r : ι)
  | resume (r : ι)
  | remint (r : ι)
  | finish (r : ι) (complete : Bool)
  | goAsync (r : ι)
  | handOff (r : ι)
  | bail (r : ι)
  | missingDset (r : ι)
  | refusedEntry (r : ι)
  | valuePut (r : ι) (complete : Bool)
  | restart (r : ι) (passive refused current : Bool)
  | destroy (r : ι)

namespace State

variable {ι : Type} [DecidableEq ι]

def init : State ι := ⟨fun _ => .init, fun _ => ⟨0, none, [], false, false, false, 0, 0, false⟩, 0⟩

def slots (s : State ι) (r : ι) : Option ℕ := (s.recs r).slot

def setRec (s : State ι) (r : ι) (x : Rec) : State ι := { s with recs := Function.update s.recs r x }

def mapSet (s : State ι) (w : ℕ) (f : WaitSet ι → WaitSet ι) : State ι :=
  { s with sets := Function.update s.sets w (f (s.sets w)) }

/-- A wait-set is made; its number is the old `made`. -/
def newSet (s : State ι) (entry : Option ι) (holds : ℕ) : State ι :=
  { s with sets := Function.update s.sets s.made (.new entry holds), made := s.made + 1 }

/-- `take_notify_slot`, with what else changes in the record. -/
def takeSlot (s : State ι) (r : ι) (w : ℕ) (x : Rec) : State ι :=
  (s.mapSet w (·.recordJoined r)).setRec r (x.take w)

/-- `join_put_notify`. -/
def join (s : State ι) (r : ι) (w : ℕ) : State ι :=
  if (s.recs r).slot.isSome then s else (s.mapSet w WaitSet.enter).takeSlot r w (s.recs r)

/-- `install_or_queue_notify` on a free slot: the set the record enters is the last one made. -/
def install (s : State ι) (r : ι) (x : Rec) : State ι := (s.newSet (some r) 0).takeSlot r s.made x

/-- The slot is emptied and the set left; `x` is what the record becomes besides. -/
def leaveSlot (s : State ι) (r : ι) (x : Rec) : State ι :=
  ((s.recs r).slot.elim s fun w => s.mapSet w WaitSet.leave).setRec r x.vacate

/-- The records the sweep of a set would release have no put on its way. -/
def sweepable (s : State ι) (w : ℕ) : Bool :=
  (s.sets w).joinedRecords.all fun m => (s.recs m).slot != some w || (s.recs m).claim.isNone

/-- The sweep of `cancel_unanswerable_notify` over the members of a dead set. -/
def sweep (s : State ι) (w : ℕ) : State ι :=
  { s.mapSet w WaitSet.spoil with
    recs := fun m =>
      if m ∈ (s.sets w).joinedRecords then (s.recs m).releaseNotify w else s.recs m }

/-- `unanswerable_notify`. -/
def unanswerable (s : State ι) (r : ι) : Option ℕ :=
  (s.recs r).slot.filter fun w => (s.sets w).isUnanswerable

/-- `cancel_unanswerable_notify`. -/
def cancelUnanswerable (s : State ι) (r : ι) : Option (State ι) :=
  (s.unanswerable r).elim (some s) fun w => if s.sweepable w then some (s.sweep w) else none

/-- A fresh put with callback: it waits behind who owns the record, or claims the slot. -/
def arrivePut (s : State ι) (r : ι) : State ι :=
  if (s.recs r).owned then s.setRec r ((s.recs r).queue .put)
  else s.install r ((s.recs r).admitFresh.setClaim (some s.made))

/-- A fresh request to process: it waits, completes at once, or takes the slot. -/
def arriveProcess (s : State ι) (r : ι) (passive : Bool) : State ι :=
  if (s.recs r).owned then s.setRec r ((s.recs r).queue .process)
  else if passive then s.install r (s.recs r).admitFresh
  else s.setRec r (s.recs r).admitFresh

def arriveWait (s : State ι) (r : ι) : State ι :=
  if (s.recs r).owned then s.setRec r ((s.recs r).queue .wait)
  else s.setRec r (s.recs r).admitFresh

/-- `process_get_notify`, made from another record's cycle: the set starts with the hold of the
initiator, and the record joins it. -/
def arriveGet (s : State ι) (r : ι) (passive : Bool) : State ι :=
  if (s.recs r).owned then s.setRec r ((s.recs r).queue .processGet)
  else if passive then ((s.setRec r (s.recs r).admitFresh).newSet (some r) 1).join r s.made
  else s.setRec r (s.recs r).admitFresh

/-- One round of `restart_next_notify_put`.  `refused` says that the body of a replayed put refuses it
before its claim, `current` that the requester of a `ProcessGet` still waits. -/
def restartNext (s : State ι) (r : ι) (passive refused current : Bool) : State ι :=
  let skip := s.setRec r (s.recs r).popNext
  let replay := s.install r (s.recs r).popNext.endTask
  match (s.recs r).takeNext.map Request.kind with
  | none => s.setRec r (s.recs r).endTask
  | some .put =>
      if refused then skip else s.install r ((s.recs r).popNext.setClaim (some s.made))
  | some .wait => skip
  | some .process => if passive then replay else skip
  | some .processGet => if current && passive then replay else skip

/-- The claim of a put on a record, and the set it holds. -/
def withClaim (s : State ι) (r : ι) (f : ℕ → State ι) : Option (State ι) := (s.recs r).claim.map f

/-- A step of the innermost running cycle of a record. -/
def inCycle (s : State ι) (r : ι) (f : Rec → State ι) : Option (State ι) :=
  if (s.recs r).running.isEmpty then none else some (f (s.recs r).closeCycle)

def step (s : State ι) : Action ι → Option (State ι)
  | .newPutNotify => some (s.newSet none 1)
  -- `dbCaPutLinkCallback`: the writer holds the set while it writes
  | .externalPut w => if 0 < (s.sets w).holds then some (s.mapSet w WaitSet.hold) else none
  | .dropHold w => if 0 < (s.sets w).holds then some (s.mapSet w WaitSet.release) else none
  | .closeReceiver w => some (s.mapSet w WaitSet.close)
  | .cancel r => s.cancelUnanswerable r
  | .putArrives r =>
      if (s.recs r).atRest && !(s.recs r).destroyed then
        (s.cancelUnanswerable r).map (·.arrivePut r) else none
  | .processArrives r passive =>
      if (s.recs r).atRest && !(s.recs r).destroyed then
        (s.cancelUnanswerable r).map (·.arriveProcess r passive) else none
  | .waitArrives r =>
      if (s.recs r).atRest && !(s.recs r).destroyed then
        (s.cancelUnanswerable r).map (·.arriveWait r) else none
  | .getArrives r passive =>
      if (s.recs r).destroyed then none else some (s.arriveGet r passive)
  -- the claim is dropped: the slot is emptied and the set is not left
  | .dropClaim r =>
      s.withClaim r fun w =>
        (s.mapSet w WaitSet.spoil).setRec r ((s.recs r).setClaim none).vacate
  | .completeUnprocessed r =>
      s.withClaim r fun w =>
        (s.mapSet w WaitSet.leave).setRec r ((s.recs r).setClaim none).vacate
  | .commit r refused =>
      s.withClaim r fun w =>
        (if refused then s.mapSet w WaitSet.fail else s).setRec r ((s.recs r).setClaim none)
  | .admitTarget r w onChain =>
      if s.made ≤ w then none
      else if (s.recs r).destroyed || onChain || (s.recs r).pact then some s
      else some (s.join r w)
  -- a record that is active refuses the entry
  | .beginCycle r =>
      if (s.recs r).destroyed || (s.recs r).pact then some s
      else some (s.setRec r (s.recs r).openCycle)
  | .resume r =>
      if (s.recs r).destroyed || !(s.recs r).pact then none
      else some (s.setRec r (s.recs r).leavePact)
  | .remint r =>
      if (s.recs r).running.isEmpty then none else some (s.setRec r (s.recs r).remint)
  -- `finish_cycle` on a cycle that made its forward link call, then `apply_pact_exit`
  | .finish r complete =>
      s.inCycle r fun x =>
        let x' := x.applyExit (s.recs r).token
        if complete then s.leaveSlot r x' else s.setRec r x'
  | .goAsync r => s.inCycle r fun x => s.setRec r (x.enterPact.applyExit (s.recs r).token)
  -- `hand_off_to_async_completion`: the token is dropped
  | .handOff r => s.inCycle r fun x => s.setRec r x.enterPact
  -- the disabled record leaves its set and returns; the token is dropped
  | .bail r => s.inCycle r fun x => s.leaveSlot r x
  | .missingDset r => s.inCycle r fun x => s.leaveSlot r x.enterPact
  -- `entry_did_not_run`: the record is on the chain already
  | .refusedEntry r =>
      if (s.recs r).running.isEmpty then none
      else if (s.recs r).pact then some s else some (s.leaveSlot r (s.recs r))
  -- `value_put_in`: `finish_cycle` with no restart check
  | .valuePut r complete => some (if complete then s.leaveSlot r (s.recs r) else s)
  | .restart r passive refused current =>
      if (s.recs r).atRest && decide (0 < (s.recs r).tasks) then
        some (s.restartNext r passive refused current) else none
  | .destroy r =>
      if (s.recs r).atRest then
        some (((s.recs r).slot.elim s fun w => s.mapSet w WaitSet.abandon).setRec r (s.recs r).destroy)
      else none

/-! ### What the parts of an action do -/

variable (s : State ι)

@[simp] lemma recs_setRec (r : ι) (x : Rec) : (s.setRec r x).recs = update s.recs r x := rfl

omit [DecidableEq ι] in
@[simp] lemma recs_mapSet (w : ℕ) (f : WaitSet ι → WaitSet ι) : (s.mapSet w f).recs = s.recs := rfl

omit [DecidableEq ι] in
@[simp] lemma sets_mapSet (w : ℕ) (f : WaitSet ι → WaitSet ι) :
    (s.mapSet w f).sets = update s.sets w (f (s.sets w)) := rfl

omit [DecidableEq ι] in
@[simp] lemma sets_newSet (entry : Option ι) (holds : ℕ) :
    (s.newSet entry holds).sets = update s.sets s.made (.new entry holds) := rfl

omit [DecidableEq ι] in
@[simp] lemma recs_newSet (entry : Option ι) (holds : ℕ) :
    (s.newSet entry holds).recs = s.recs := rfl

@[simp] lemma recs_install (r : ι) (x : Rec) :
    (s.install r x).recs = update s.recs r (x.take s.made) := rfl

@[simp] lemma recs_leaveSlot (r : ι) (x : Rec) :
    (s.leaveSlot r x).recs = update s.recs r x.vacate := by
  unfold leaveSlot
  cases (s.recs r).slot <;> rfl

lemma recs_join (r : ι) (w : ℕ) : (s.join r w).recs = s.recs ∨
      (s.join r w).recs = update s.recs r ((s.recs r).take w) := by
  unfold join
  split
  · exact .inl rfl
  · exact .inr rfl

omit [DecidableEq ι] in
lemma withClaim_eq_some {s t : State ι} {r f} (h : s.withClaim r f = some t) :
    ∃ w, (s.recs r).claim = some w ∧ t = f w := by
  obtain ⟨w, hw, ht⟩ := map_eq_some_iff.1 h
  exact ⟨w, hw, ht.symm⟩

omit [DecidableEq ι] in
lemma inCycle_eq_some {s t : State ι} {r f} (h : s.inCycle r f = some t) :
    (s.recs r).running ≠ [] ∧ t = f (s.recs r).closeCycle := by
  rw [inCycle, ite_none_left_eq_some] at h
  exact ⟨fun he => h.1 (by rw [he]; rfl), (some.inj h.2).symm⟩

lemma cancelUnanswerable_cases {s t : State ι} {r} (h : s.cancelUnanswerable r = some t) :
    t = s ∨ ∃ w, (s.recs r).slot = some w ∧ s.sweepable w = true ∧ t = s.sweep w := by
  unfold cancelUnanswerable at h
  cases hu : s.unanswerable r with
  | none =>
    rw [hu] at h
    exact .inl (some.inj h).symm
  | some w =>
    rw [hu, elim_some, ite_none_right_eq_some] at h
    exact .inr ⟨w, (filter_eq_some_iff.1 hu).1, h.1, (some.inj h.2).symm⟩

end State

end PutNotify
