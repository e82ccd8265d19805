/-
**The queue of puts to external links.**

`server/database/link_put_queue.rs`.  A record that puts to an external link stages the value and
goes on; one owner task takes the links in turn and hands out their values.  A newer value takes the
place of a staged one.  The completion of a put with a waiter is resolved when the write finishes,
when the value is superseded, or when the link is removed.

The functions run under one mutex, and are atomic here; what is resolved after the mutex is let go
is `inHand` until then.  Calls of `stage_put` are numbered; no function reads the number.  Wake-ups
and the opening of links are not modelled: the owner may look at any time.

Main result: `LinkPut.PutCompletion.put_resolve`.
-/

import EpicsRs.KeyTable
import EpicsRs.LockDatabase
import EpicsRs.StepRuns

set_option autoImplicit false

namespace LinkPut

open RecordLock (FieldName eqIgnoreAsciiCase)
open KeyTable (Table)

/-! ### Links -/

/-- `Channel`, equal by the serial of the link. -/
structure Channel where
  serial : ℕ
deriving DecidableEq

/-- `LinkInstall`: the parse that the record had installed on the field. -/
inductive LinkInstall
  | installed (parse : ℕ)
  | detached
deriving DecidableEq

/-- `LinkInstall::removed`, when the parses of `dropped` have been dropped. -/
def LinkInstall.removed (dropped : Finset ℕ) : LinkInstall → Bool
  | installed parse => parse ∈ dropped
  | detached => false

structure LinkId where
  record : Option ℕ
  field : FieldName
  install : LinkInstall
deriving DecidableEq

structure LinkKey where
  link : LinkId
  channel : Channel
deriving DecidableEq

/-- `Site`: what the counters of a link are kept under. -/
abbrev Site : Type := Option ℕ × FieldName × Channel

def site (key : LinkKey) : Site := (key.link.record, key.link.field, key.channel)

/-! ### Completions -/

inductive CallbackPriority
  | low
  | medium
  | high
deriving DecidableEq

/-- `PutWaiter`: who a put reports its completion to. -/
inductive PutWaiter
  | none
  | notify
  | record (band : CallbackPriority)

/-- `Written`: what the write of a value came to. -/
structure Written where
  inline : Bool
  result : Except String Unit
  unsent : Bool

inductive Cause
  | wire (written : Written)
  | superseded
  | removedUnsent
  | removedInFlight
  | dropped

/-- The `inline` argument of `PutCompletion::resolve`. -/
def Cause.inline : Cause → Bool
  | wire written => written.inline
  | removedInFlight => true
  | superseded | removedUnsent | dropped => false

/-- The `result` argument of `PutCompletion::resolve`. -/
def Cause.result : Cause → Except String Unit
  | wire written => written.result
  | superseded => .error "external link put superseded by a newer put on the same link"
  | removedUnsent =>
      .error "external link put dropped: the link was removed before it was sent"
  | removedInFlight =>
      .error "external link put dropped: the link was removed before it completed"
  | dropped =>
      .error "external link put dropped before completion (link queue torn down)"

inductive Seen
  | answered (result : Except String Unit)
  | completed (band : CallbackPriority)

structure Resolved where
  put : ℕ
  cause : Cause
  seen : Seen

/-- `PutCompletion`: the sender or the handle of the put, until it is used. -/
inductive PutCompletion
  | notify (tx : Option ℕ)
  | record (done : Option (ℕ × CallbackPriority))

namespace PutCompletion

def finish (cause : Cause) : PutCompletion → PutCompletion × List Resolved
  | notify (some put) => (notify none, [⟨put, cause, .answered cause.result⟩])
  | notify none => (notify none, [])
  | record (some (put, band)) =>
      (record none, [⟨put, cause, .completed (if cause.inline then .medium else band)⟩])
  | record none => (record none, [])

/-- `Drop for PutCompletion`. -/
def drop (c : PutCompletion) : List Resolved := (c.finish .dropped).2

/-- `PutCompletion::resolve`: the completion is dropped on the way out. -/
def resolve (c : PutCompletion) (cause : Cause) : List Resolved :=
  (c.finish cause).2 ++ (c.finish cause).1.drop

def puts : PutCompletion → List ℕ
  | notify tx => tx.toList
  | record done => (done.map Prod.fst).toList

/-- **A completion that is resolved is resolved once**: its `Drop` finds it taken. -/
theorem put_resolve (c : PutCompletion) (cause : Cause) :
    (c.resolve cause).map Resolved.put = c.puts := by
  rcases c with (_ | put) | (_ | ⟨put, band⟩) <;> rfl

lemma cause_resolve {c : PutCompletion} {cause r} (h : r ∈ c.resolve cause)
    : r.cause = cause := by
  rcases c with (_ | put) | (_ | ⟨put, band⟩) <;>
    simp [resolve, finish, drop] at h <;> rw [h]

end PutCompletion

/-! ### The queue -/

inductive LinkPutOp
  | plain
  | async
deriving DecidableEq

variable {V : Type}

structure StagedPut (V : Type) where
  put : ℕ
  value : V
  op : LinkPutOp
  completion : Option PutCompletion

def StagedPut.puts (staged : StagedPut V) : List ℕ := staged.completion.elim [] PutCompletion.puts

/-- The completion of a put that goes no further is resolved. -/
def resolveAll (completion : Option PutCompletion) (cause : Cause) : List Resolved :=
  completion.elim [] fun c => c.resolve cause

def StagedPut.removed (staged : StagedPut V) : List Resolved :=
  resolveAll staged.completion .removedUnsent

structure WireWrite (V : Type) where
  put : ℕ
  value : V
  op : LinkPutOp

inductive LinkState (V : Type)
  | queued (staged : StagedPut V)
  | inFlight (sent : Option PutCompletion)
  | inFlightRestaged (sent : Option PutCompletion) (staged : StagedPut V)

@[ext] structure QueueInner (V : Type) where
  links : Table LinkKey (LinkState V)
  ready : List LinkKey
  unsent : Table Site LinkInstall
  coalesced : Table Site (LinkInstall × ℕ)
  completed : ℕ

/-- What `stage_put` makes of its waiter: the flavour of the put and its completion. -/
def PutWaiter.staged (put : ℕ) (value : V) : PutWaiter → StagedPut V
  | none => ⟨put, value, .plain, Option.none⟩
  | notify => ⟨put, value, .async, some (.notify (some put))⟩
  | record band => ⟨put, value, .async, some (.record (some (put, band)))⟩

namespace QueueInner

/-- The count of `supersede`, which starts over at a relink. -/
def countSuperseded (inner : QueueInner V) (key : LinkKey) : QueueInner V :=
  let count := (inner.coalesced.lookup (site key)).getD (key.link.install, 0)
  let count := if count.1 = key.link.install then count else (key.link.install, 0)
  { inner with coalesced := inner.coalesced.insert (site key) (count.1, count.2 + 1) }

def supersede (inner : QueueInner V) (key : LinkKey) (prev : Option PutCompletion) :
    QueueInner V × List Resolved :=
  (inner.countSuperseded key, resolveAll prev .superseded)

/-- The put that the owner dropped unsent is superseded by the next one on the link. -/
def takeUnsent (inner : QueueInner V) (key : LinkKey) : QueueInner V :=
  let rest := { inner with unsent := inner.unsent.erase (site key) }
  if inner.unsent.lookup (site key) = some key.link.install then rest.countSuperseded key else rest

def stagePut (inner : QueueInner V) (key : LinkKey) (staged : StagedPut V) :
    QueueInner V × List Resolved :=
  let inner := inner.takeUnsent key
  match inner.links.lookup key with
  | none =>
      ({ inner with links := KeyTable.put inner.links key (.queued staged),
                    ready := inner.ready ++ [key] }, [])
  | some (.queued prev) =>
      let (inner, resolved) := inner.supersede key prev.completion
      -- The link is in the deque already.
      ({ inner with links := KeyTable.put inner.links key (.queued staged) }, resolved)
  | some (.inFlight sent) =>
      ({ inner with links := KeyTable.put inner.links key (.inFlightRestaged sent staged) }, [])
  | some (.inFlightRestaged sent prev) =>
      let (inner, resolved) := inner.supersede key prev.completion
      ({ inner with links := KeyTable.put inner.links key (.inFlightRestaged sent staged) },
        resolved)

/-- `LinkPutQueue::finish`, up to where the mutex is let go: with the completion of the write, which
is resolved next, and what was resolved before. -/
def finish (dropped : Finset ℕ) (inner : QueueInner V) (key : LinkKey) (written : Written) :
    QueueInner V × Option PutCompletion × List Resolved :=
  let inner := { inner with completed := inner.completed + 1 }
  match inner.links.lookup key with
  | some (.inFlight sent) =>
      let rest := { inner with links := inner.links.erase key }
      if written.unsent && !key.link.install.removed dropped then
        ({ rest with unsent := rest.unsent.insert (site key) key.link.install }, sent, [])
      else (rest, sent, [])
  | none => (inner, none, [])
  | some (.inFlightRestaged sent staged) =>
      let inner := if written.unsent then inner.countSuperseded key else inner
      if key.link.install.removed dropped then
        ({ inner with links := inner.links.erase key }, sent, staged.removed)
      else
        ({ inner with links := KeyTable.put inner.links key (.queued staged),
                      ready := inner.ready ++ [key] }, sent, [])
  | some other => ({ inner with links := KeyTable.put inner.links key other }, none, [])

end QueueInner

/-- What `take_ready` comes to. -/
structure Taken (V : Type) where
  links : Table LinkKey (LinkState V)
  ready : List LinkKey
  resolved : List Resolved
  write : Option (LinkKey × WireWrite V)

/-- The loop of `LinkPutQueue::take_ready`. -/
def takeReadyLoop (dropped : Finset ℕ) : List LinkKey → Table LinkKey (LinkState V) → Taken V
  | [], links => ⟨links, [], [], none⟩
  | key :: ready, links =>
    match links.lookup key with
    | some (.queued staged) =>
        if key.link.install.removed dropped then
          let rest := takeReadyLoop dropped ready (links.erase key)
          { rest with resolved := staged.removed ++ rest.resolved }
        else
          ⟨KeyTable.put links key (.inFlight staged.completion), ready, [],
            some (key, ⟨staged.put, staged.value, staged.op⟩)⟩
    | some other => takeReadyLoop dropped ready (KeyTable.put links key other)
    | none => takeReadyLoop dropped ready links

/-- The links that `remove_link` is about: those that the field had before `current`. -/
def removes (record : Option ℕ) (field : FieldName) (current : LinkInstall) (key : LinkKey) : Bool :=
  key.link.record = record && eqIgnoreAsciiCase key.link.field field && key.link.install ≠ current

/-- What `remove_link` leaves of the state of such a link. -/
def LinkState.cleared : LinkState V → LinkState V
  | queued staged => queued staged
  | inFlight _ | inFlightRestaged _ _ => inFlight none

/-- The completions that `remove_link` takes out of it: of the write that is out, and of the value
behind it. -/
def LinkState.taken : LinkState V → List (PutCompletion × Cause)
  | queued _ => []
  | inFlight sent => sent.toList.map fun c => (c, .removedInFlight)
  | inFlightRestaged sent staged =>
      (sent.toList.map fun c => (c, .removedInFlight)) ++
        staged.completion.toList.map fun c => (c, .removedUnsent)

/-- `LinkPutQueue::remove_link`, up to where the mutex is let go: with the completions that are
resolved next. -/
def removeLink (record : Option ℕ) (field : FieldName) (current : LinkInstall)
    (links : Table LinkKey (LinkState V)) :
    Table LinkKey (LinkState V) × List (PutCompletion × Cause) :=
  (KeyTable.mapValues
      (fun key state => if removes record field current key then state.cleared else state) links,
    links.entries.flatMap fun e => if removes record field current e.1 then e.2.taken else [])

/-! ### The queue with its history -/

/-- The queue, the parses that have been dropped, and the history. -/
structure World (V : Type) where
  inner : QueueInner V
  dropped : Finset ℕ
  /-- The links whose write was handed out and has not finished. -/
  out : List LinkKey
  /-- The completions that a thread has taken out, and resolves next. -/
  inHand : List (PutCompletion × Cause)
  staged : List (LinkKey × ℕ × V)
  handed : List (LinkKey × ℕ × V)
  awaited : List ℕ
  resolved : List Resolved

def World.start : World V := ⟨⟨∅, [], ∅, ∅, 0⟩, ∅, [], [], [], [], [], []⟩

inductive Action (V : Type)
  | stagePut (key : LinkKey) (value : V) (waiter : PutWaiter)
  | takeReady
  | finish (key : LinkKey) (written : Written)
  | removeLink (record : Option ℕ) (field : FieldName) (current : LinkInstall)
  | dropParse (parse : ℕ)
  | settle (n : ℕ)

def Action.Removes (key : LinkKey) : Action V → Prop
  | removeLink record field current => removes record field current key = true
  | dropParse parse => key.link.install = .installed parse
  | stagePut _ _ _ | takeReady | finish _ _ | settle _ => False

namespace World

def stagePut (w : World V) (key : LinkKey) (value : V) (waiter : PutWaiter) : World V :=
  let staged := waiter.staged w.staged.length value
  { w with
    inner := (w.inner.stagePut key staged).1
    staged := w.staged ++ [(key, staged.put, staged.value)]
    awaited := w.awaited ++ staged.puts
    resolved := w.resolved ++ (w.inner.stagePut key staged).2 }

/-- The owner has taken a link, or found none. -/
def taken (w : World V) (t : Taken V) : World V :=
  { w with
    inner := { w.inner with links := t.links, ready := t.ready }
    out := w.out ++ (t.write.map Prod.fst).toList
    handed := w.handed ++ (t.write.map fun e => (e.1, e.2.put, e.2.value)).toList
    resolved := w.resolved ++ t.resolved }

def finish (w : World V) (key : LinkKey) (written : Written) : World V :=
  { w with
    inner := (w.inner.finish w.dropped key written).1
    out := w.out.erase key
    inHand := w.inHand ++
      (w.inner.finish w.dropped key written).2.1.toList.map fun c => (c, .wire written)
    resolved := w.resolved ++ (w.inner.finish w.dropped key written).2.2 }

def removeLink (w : World V) (record : Option ℕ) (field : FieldName) (current : LinkInstall) :
    World V :=
  { w with
    inner := { w.inner with links := (LinkPut.removeLink record field current w.inner.links).1 }
    inHand := w.inHand ++ (LinkPut.removeLink record field current w.inner.links).2 }

def settle (w : World V) (n : ℕ) : Option (World V) :=
  w.inHand[n]?.map fun c =>
    { w with inHand := w.inHand.eraseIdx n, resolved := w.resolved ++ c.1.resolve c.2 }

/-- One action.  A write finishes only if it is out. -/
def step (w : World V) : Action V → Option (World V)
  | .stagePut key value waiter => some (w.stagePut key value waiter)
  | .takeReady => some (w.taken (takeReadyLoop w.dropped w.inner.ready w.inner.links))
  | .finish key written => if key ∈ w.out then some (w.finish key written) else none
  | .removeLink record field current => some (w.removeLink record field current)
  | .dropParse parse => some { w with dropped := insert parse w.dropped }
  | .settle n => w.settle n

def state (w : World V) (key : LinkKey) : Option (LinkState V) := w.inner.links.lookup key

end World

/-! ### The write that is out and the value that waits -/

def flightOf : Option (LinkState V) → Option (Option PutCompletion)
  | none | some (.queued _) => none
  | some (.inFlight sent) | some (.inFlightRestaged sent _) => some sent

def pendingOf : Option (LinkState V) → Option (StagedPut V)
  | none | some (.inFlight _) => none
  | some (.queued staged) | some (.inFlightRestaged _ staged) => some staged

def stageOn (state : Option (LinkState V)) (staged : StagedPut V) : LinkState V :=
  (flightOf state).elim (.queued staged) fun sent => .inFlightRestaged sent staged

@[simp] lemma flightOf_stageOn (state : Option (LinkState V)) (staged : StagedPut V) :
    flightOf (some (stageOn state staged)) = flightOf state := by
  rcases state with _ | (_ | _ | _) <;> rfl

@[simp] lemma pendingOf_stageOn (state : Option (LinkState V)) (staged : StagedPut V) :
    pendingOf (some (stageOn state staged)) = some staged := by
  rcases state with _ | (_ | _ | _) <;> rfl

def isQueued : Option (LinkState V) → Bool
  | some (.queued _) => true
  | none | some (.inFlight _) | some (.inFlightRestaged _ _) => false

lemma isQueued_iff {state : Option (LinkState V)} :
    isQueued state = true ↔ ∃ staged, state = some (.queued staged) := by
  rcases state with _ | (_ | _ | _) <;> simp [isQueued]

lemma isQueued_stageOn (state : Option (LinkState V)) (staged : StagedPut V) :
    isQueued (some (stageOn state staged)) = (state.isNone || isQueued state) := by
  rcases state with _ | (_ | _ | _) <;> rfl

lemma not_isQueued_of_flight {state : Option (LinkState V)} {sent} (h : flightOf state = some sent)
    : isQueued state = false := by
  rcases state with _ | (_ | _ | _)
  · rfl
  · cases h
  · rfl
  · rfl

def pendingCompletion (state : Option (LinkState V)) : Option PutCompletion :=
  (pendingOf state).bind StagedPut.completion

namespace QueueInner

variable (inner : QueueInner V) (key : LinkKey)

@[simp] lemma countSuperseded_links : (inner.countSuperseded key).links = inner.links := rfl

@[simp] lemma countSuperseded_ready : (inner.countSuperseded key).ready = inner.ready := rfl

@[simp] lemma takeUnsent_links : (inner.takeUnsent key).links = inner.links := by
  simp only [takeUnsent]
  split_ifs <;> rfl

@[simp] lemma takeUnsent_ready : (inner.takeUnsent key).ready = inner.ready := by
  simp only [takeUnsent]
  split_ifs <;> rfl

/-- **Staging**: the value takes the place of the one that waits, and a link that had nothing is
queued. -/
theorem stagePut_eq (staged : StagedPut V) : ∃ unsent coalesced completed,
    inner.stagePut key staged =
      (⟨KeyTable.put inner.links key (stageOn (inner.links.lookup key) staged),
        if (inner.links.lookup key).isNone then inner.ready ++ [key] else inner.ready,
        unsent, coalesced, completed⟩,
      resolveAll (pendingCompletion (inner.links.lookup key)) .superseded) := by
  rw [stagePut]
  simp only [takeUnsent_links]
  rcases hstate : inner.links.lookup key with _ | (prev | sent | ⟨sent, prev⟩)
  all_goals
    refine ⟨_, _, _, Prod.ext (QueueInner.ext ?_ ?_ rfl rfl rfl) rfl⟩
    · simp [supersede, stageOn, flightOf]
    · simp [supersede]

/-- **A write finishes and the link has nothing left to write**, or the link was removed. -/
theorem finish_ends {dropped sent} (written : Written)
    (hflight : flightOf (inner.links.lookup key) = some sent)
    (hend : (pendingOf (inner.links.lookup key)).isSome → key.link.install.removed dropped) :
    ∃ unsent coalesced completed, inner.finish dropped key written =
      (⟨inner.links.erase key, inner.ready, unsent, coalesced, completed⟩, sent,
        resolveAll (pendingCompletion (inner.links.lookup key)) .removedUnsent) := by
  rw [finish]
  rcases hstate : inner.links.lookup key with _ | (prev | sent' | ⟨sent', staged⟩)
  all_goals rw [hstate] at hflight hend
  · cases hflight
  · cases hflight
  · obtain rfl : sent' = sent := Option.some.inj hflight
    simp only
    split_ifs <;> exact ⟨_, _, _, rfl⟩
  · obtain rfl : sent' = sent := Option.some.inj hflight
    simp only [if_pos (hend rfl)]
    split_ifs <;> exact ⟨_, _, _, rfl⟩

/-- **A write finishes with a value behind it**, which is queued. -/
theorem finish_requeues {dropped sent staged} (written : Written)
    (hstate : inner.links.lookup key = some (.inFlightRestaged sent staged))
    (hkept : key.link.install.removed dropped = false) :
    ∃ unsent coalesced completed, inner.finish dropped key written =
      (⟨KeyTable.put inner.links key (.queued staged), inner.ready ++ [key], unsent, coalesced,
        completed⟩, sent, []) := by
  rw [finish]
  simp only [hstate, hkept, Bool.false_eq_true, if_false]
  split_ifs <;> exact ⟨_, _, _, rfl⟩

end QueueInner

end LinkPut
