/-
**The block holders of an asyn port and the requests they hold back.**

A user of a port may count a block on the port or on its device; its next callback makes it a
holder, and then the requests of other users wait until the count is given up.  The requests of a
port are in the heap, held back by a holder, parked with a disabled device or a port that is down,
or kept out by an open section.

Source: `asyn-rs/src/port_actor.rs` (`BlockBook`, `SectionHold`, `PortActor`), for a port with
`ASYN_CANBLOCK`.  Each action is atomic.  A request's queue timer or a cancel appears as its `Fate`,
a change of the driver's state as `linkTo`.  Calls of `blockProcessCallback` from other threads are
not refused as a queued cell refuses them.
-/

import EpicsRs.KeyTable
import EpicsRs.StepRuns

set_option autoImplicit false

namespace AsynBlock

open KeyTable

/-! ### Holders and counts -/

/-- `DpKey`: the port's own slot, or a device's. -/
inductive DpKey
  | port
  | device (addr : ℤ)
deriving DecidableEq

def DpKey.of (multiDevice : Bool) (addr : ℤ) : DpKey :=
  if multiDevice && decide (0 ≤ addr) then .device addr else .port

/-- `BlockBook`: the port count and the device count of each user, the holders, and whether one was
released since the actor last looked. -/
structure Book where
  counts : Table ℕ (ℕ × ℕ)
  port : Option ℕ
  dpCommons : Table DpKey ℕ
  released : Bool

namespace Book

def init : Book := ⟨∅, none, ∅, false⟩

def countsOf (b : Book) (token : ℕ) : ℕ × ℕ := (b.counts.lookup token).getD (0, 0)

def free (token : Option ℕ) : Option ℕ → Bool
  | none => true
  | some owner => token == some owner

/-- `BlockBook::admits`: both holders are nobody or this user. -/
def admits (b : Book) (token : Option ℕ) (dp : DpKey) : Bool :=
  free token b.port && free token (b.dpCommons.lookup dp)

def count (b : Book) (token : ℕ) (allDevices : Bool) : ℕ :=
  if allDevices then (b.countsOf token).1 else (b.countsOf token).2

def block (b : Book) (token : ℕ) (allDevices : Bool) : Book :=
  let (port, device) := b.countsOf token
  { b with counts := put b.counts token (if allDevices then (port + 1, device) else (port, device + 1)) }

def owns (b : Book) (token : ℕ) (dp : DpKey) (allDevices : Bool) : Bool :=
  if allDevices then b.port == some token else b.dpCommons.lookup dp == some token

def giveUp (b : Book) (dp : DpKey) (allDevices : Bool) : Book :=
  if allDevices then { b with port := none, released := true }
  else { b with dpCommons := b.dpCommons.erase dp, released := true }

def dropCount (b : Book) (token : ℕ) (allDevices : Bool) : Table ℕ (ℕ × ℕ) :=
  let (port, device) := b.countsOf token
  let left := if allDevices then (port - 1, device) else (port, device - 1)
  if left = (0, 0) then b.counts.erase token else put b.counts token left

/-- `BlockBook::unblock`: the count drops, and at zero the holder that is this user is released.  There
is no result where the user counts no block. -/
def unblock (b : Book) (token : ℕ) (dp : DpKey) (allDevices : Bool) : Option Book :=
  let b' := { b with counts := b.dropCount token allDevices }
  if b.count token allDevices = 0 then none
  else if b.count token allDevices = 1 && b.owns token dp allDevices then
    some (b'.giveUp dp allDevices)
  else some b'

/-- `BlockBook::settle`: a user that still counts a block becomes its holder; true when a holder was
newly taken. -/
def settle (b : Book) (token : ℕ) (dp : DpKey) : Bool × Book :=
  let (port, device) := b.countsOf token
  let takesPort := decide (0 < port) && b.port != some token
  let takesDevice := decide (0 < device) && b.dpCommons.lookup dp != some token
  (takesPort || takesDevice,
    { b with
      port := if takesPort then some token else b.port
      dpCommons := if takesDevice then put b.dpCommons dp token else b.dpCommons })

/-- `BlockBook::release`: the end of a block identity whose owner is gone. -/
def release (b : Book) (token : ℕ) : Book :=
  let heldPort := b.port == some token
  let heldDevice := b.dpCommons.entries.any fun e => e.2 == token
  { counts := b.counts.erase token
    port := if heldPort then none else b.port
    dpCommons := retain (fun _ owner => owner != token) b.dpCommons
    released := b.released || heldPort || heldDevice }

end Book

/-! ### Requests -/

/-- `CDispatch`. -/
inductive Dispatch
  | direct
  | connectQueue
  | queued
deriving DecidableEq

/-- `SectionCallbacks`: the sets of a section that may be open still, or the end of one. -/
inductive SectionGate
  | opened
  | held
deriving DecidableEq

/-- `RequestOp`, as far as the queue tells operations apart.  `manager` stands for the manager's calls
that C makes without the port's lock, `direct` for the other direct calls, `connect` for what rides the
Connect queue, and `io` for everything that C hands to `queueRequest`. -/
inductive ReqOp
  | block (allDevices : Bool)
  | unblock (allDevices : Bool)
  | callbacks (gate : Option SectionGate)
  | afterQueue
  | manager
  | direct
  | connect
  | io
deriving DecidableEq

/-- `QueuePriority`. -/
inductive Priority
  | low
  | medium
  | high
  | connect
deriving DecidableEq

def Priority.toNat : Priority → ℕ
  | .low => 0
  | .medium => 1
  | .high => 2
  | .connect => 3

/-- `ConnectCheck`, on a port that can block. -/
inductive ConnectCheck
  | required
  | waived
deriving DecidableEq

/-- `ActorMessage`: `token` is the user's block identity, `lend` says that the waiter runs the claimed
request itself, and `timeoutUser` that it is told when its device is down. -/
structure Req where
  op : ReqOp
  token : Option ℕ
  addr : ℤ
  priority : Priority
  evenIfNotConnected : Bool
  seq : ℕ
  scope : ℕ
  lend : Bool
  timeoutUser : Bool
deriving DecidableEq

namespace Req

/-- `c_dispatch`. -/
def dispatch (r : Req) : Dispatch :=
  match r.op with
  | .io => .queued
  | .connect => .connectQueue
  | _ => .direct

/-- `is_lifecycle_op`: no holder stalls it. -/
def isLifecycle (r : Req) : Bool := r.dispatch != .queued

/-- `runs_while_a_section_holds`. -/
def runsWhileHeld (r : Req) : Bool :=
  match r.op with
  | .callbacks gate => gate == some .held
  | .block _ | .unblock _ | .manager => true
  | _ => false

/-- `connect_check_at_connect_priority`. -/
def checkAtConnect (multiDevice : Bool) (r : Req) : ConnectCheck :=
  if DpKey.of multiDevice r.addr = .port || r.evenIfNotConnected then .waived else .required

/-- `queue_gate`: which refusals of the gate the request is subject to, if C queues it at all. -/
def queueGate (multiDevice : Bool) (r : Req) : Option ConnectCheck :=
  match r.dispatch with
  | .direct => none
  | .connectQueue => some (r.checkAtConnect multiDevice)
  | .queued => some (if r.priority = .connect then r.checkAtConnect multiDevice else .required)

/-- `Rank`, on a port that can block: a band, or above every band. -/
def rank (r : Req) : ℕ :=
  if r.op = .afterQueue then Priority.low.toNat
  else if r.dispatch = .direct then 4
  else r.priority.toNat

/-- The heap's order: the higher rank first, then the lower sequence number. -/
def ahead (r r' : Req) : Bool := decide (r'.rank < r.rank) || (r.rank == r'.rank && decide (r.seq < r'.seq))

end Req

/-- `BinaryHeap::pop`, on the list of what is in the heap. -/
def popHeap : List Req → Option (Req × List Req)
  | [] => none
  | r :: rest =>
      match popHeap rest with
      | none => some (r, [])
      | some (first, others) =>
          if r.ahead first then some (r, first :: others) else some (first, r :: others)

/-! ### The actor -/

inductive SectionHold
  | free
  | held (scope holds : ℕ) (back : List Req)

namespace SectionHold

/-- The requests that a hold keeps out. -/
def back : SectionHold → List Req
  | .free => []
  | .held _ _ back => back

def hold (scope : ℕ) : SectionHold → SectionHold
  | .free => .held scope 1 []
  | .held scope' holds back => .held scope' (holds + 1) back

/-- `SectionHold::end`, with the requests that go back to the heap. -/
def endHold : SectionHold → SectionHold × List Req
  | .free => (.free, [])
  | .held scope holds back => if holds = 1 then (.free, back) else (.held scope (holds - 1) back, [])

def keepsOut (r : Req) : SectionHold → Bool
  | .free => false
  | .held scope _ _ => r.scope != scope && !r.runsWhileHeld

def keep (r : Req) : SectionHold → SectionHold
  | .free => .free
  | .held scope holds back => .held scope holds (back ++ [r])

end SectionHold

/-- What the gates read of the driver. -/
structure Link where
  enabled : Bool
  connected : Bool
  deviceEnabled : ℤ → Bool
  deviceConnected : ℤ → Bool

namespace Link

def check (l : Link) (connect : ConnectCheck) : Bool :=
  l.enabled && (connect == .waived || l.connected)

def checkDeviceEnabled (l : Link) : DpKey → Bool
  | .port => true
  | .device addr => l.deviceEnabled addr

def checkDeviceConnected (l : Link) : DpKey → Bool
  | .port => true
  | .device addr => l.deviceConnected addr

end Link

/-- Where the actor is: in its loop, in a request that it runs itself, in the hands of the thread that it
is lent to, or testing requests again one by one, `exempt` being whether the lifecycle operations pass
untested and `lent` whether it is lent. -/
inductive Place
  | home
  | running (r : Req)
  | lent
  | sorting (todo : List Req) (exempt lent : Bool)

/-- The loop, or the hands of the thread that the actor is lent to. -/
def Place.after (isLent : Bool) : Place := if isLent then .lent else .home

/-- Whether the channel may be drained here, and if so whether the actor is lent. -/
def Place.drains : Place → Option Bool
  | .home => some false
  | .lent => some true
  | .running _ | .sorting _ _ _ => none

/-- `PortActor`: the requests of a port, wherever they are. -/
structure Actor where
  book : Book
  link : Link
  announced : ℕ
  rescannedExceptions : ℕ
  incoming : List Req
  heap : List Req
  dequeued : Option Req
  pendingWhileBlocked : List Req
  parked : List Req
  hold : SectionHold
  rescanParked : Bool
  place : Place

/-- How the token of a request answers: it left the queue before it was looked at, its port went down
between two looks, it left at the last moment, or it runs. -/
inductive Fate
  | gone
  | refused
  | left
  | run
deriving DecidableEq

/-- What `process_one` does with a request. -/
inductive Disposal
  | dropped
  | back
  | parked
  | run
deriving DecidableEq

namespace Actor

def init (link : Link) : Actor :=
  ⟨Book.init, link, 0, 0, [], [], none, [], [], .free, false, .home⟩

variable (multiDevice : Bool)

def admits (s : Actor) (r : Req) : Bool := s.book.admits r.token (DpKey.of multiDevice r.addr)

/-- `is_queued`: a request of this user waits in the queue. -/
def isQueued (s : Actor) (token : ℕ) : Bool :=
  (s.heap ++ s.pendingWhileBlocked ++ s.parked ++ s.hold.back).any fun r => r.token == some token

def enqueueMessage (s : Actor) (r : Req) : Actor :=
  let s' := { s with rescanParked := true }
  if !r.isLifecycle && !s.admits multiDevice r then
    { s' with pendingWhileBlocked := s.pendingWhileBlocked ++ [r] }
  else { s' with heap := r :: s.heap }

/-- `rescan_parked`: what was parked goes back to the heap, if anything happened. -/
def rescan (s : Actor) : Actor :=
  let s' := { s with rescannedExceptions := s.announced }
  if !s.rescanParked && s.announced == s.rescannedExceptions then s'
  else { s' with rescanParked := false, heap := s.parked ++ s.heap, parked := [] }

/-- `drop_left`: the requests that left the queue on another clock are dropped wherever they are. -/
def dropLeft (s : Actor) (gone : List ℕ) : Actor :=
  let stays (r : Req) : Bool := !gone.contains r.seq
  { s with
    parked := s.parked.filter stays
    hold := match s.hold with
      | .free => .free
      | .held scope holds back => .held scope holds (back.filter stays)
    pendingWhileBlocked := s.pendingWhileBlocked.filter stays
    heap := s.heap.filter stays }

/-- `pop_next`: what was taken off the queue at a give back, else the heap's first. -/
def popNext (s : Actor) : Option (Req × Actor) :=
  match s.dequeued with
  | some r => some (r, { s with dequeued := none })
  | none => (popHeap s.heap).map fun p => (p.1, { s with heap := p.2 })

/-- `idle`: nothing for `process_one` to take, so that the loop waits. -/
def waits (s : Actor) : Bool :=
  match s.place with
  | .home => s.dequeued.isNone && s.heap.isEmpty
  | _ => false

/-- The way of a request through `process_one`, up to its claim. -/
def disposal (s : Actor) (r : Req) (fate : Fate) : Disposal :=
  let claim : Disposal := if fate = .run then .run else .dropped
  if fate = .gone then .dropped
  else if s.hold.keepsOut r then .back
  else
    match r.queueGate multiDevice with
    | none => claim
    | some connect =>
        if !s.link.check connect then .parked
        else if fate = .refused then .dropped
        else if connect = .required && r.dispatch = .queued then
          if !s.link.checkDeviceEnabled (DpKey.of multiDevice r.addr) then .parked
          else if r.timeoutUser && !s.link.checkDeviceConnected (DpKey.of multiDevice r.addr) then
            .dropped
          else claim
        else claim

/-- `process_one`, up to the run of a claimed request. -/
def processOne (s : Actor) (fate : Fate) : Actor :=
  match s.popNext with
  | none => s
  | some (r, s') =>
      match s'.disposal multiDevice r fate with
      | .dropped => s'
      | .back => { s' with hold := s'.hold.keep r }
      | .parked => { s' with parked := s'.parked ++ [r] }
      | .run => { s' with rescanParked := true, place := if r.lend then .lent else .running r }

/-- The operations that act on the queue itself.  `holds` is the scope of a section that is still open
when its sets are done. -/
def body (s : Actor) (r : Req) (holds : Option ℕ) : Actor :=
  match r.op, r.token with
  | .block allDevices, some token =>
      if s.isQueued token then s else { s with book := s.book.block token allDevices }
  | .unblock allDevices, some token =>
      if s.isQueued token then s
      else
        match s.book.unblock token (DpKey.of multiDevice r.addr) allDevices with
        | some book => { s with book := book }
        | none => s
  | .callbacks (some .opened), _ =>
      match holds with
      | some scope => { s with hold := s.hold.hold scope }
      | none => s
  | .callbacks (some .held), _ =>
      { s with hold := s.hold.endHold.1, heap := s.hold.endHold.2 ++ s.heap }
  | _, _ => s

/-- `settle_block`: the blocks that the user counts become holders, and what the heap holds is tested
again. -/
def settleBlock (s : Actor) (token : Option ℕ) (addr : ℤ) (lent : Bool) : Actor :=
  let back := { s with place := .after lent }
  match token with
  | none => back
  | some token =>
      if (s.book.settle token (DpKey.of multiDevice addr)).1 then
        { s with
          book := (s.book.settle token (DpKey.of multiDevice addr)).2
          heap := []
          place := .sorting s.heap true lent }
      else back

/-- The end of `run_claimed`: the operation, and after a callback the block settlement. -/
def finish (s : Actor) (r : Req) (holds : Option ℕ) (lent : Bool) : Actor :=
  let s' := { s.body multiDevice r holds with rescanParked := true }
  if r.dispatch = .direct then { s' with place := .after lent }
  else s'.settleBlock multiDevice r.token r.addr lent

/-- `readmitReleased`: a holder was released, and what is held back is tested again. -/
def readmitReleased (s : Actor) (lent : Bool) : Actor :=
  { s with
    book := { s.book with released := false }
    pendingWhileBlocked := []
    place := .sorting s.pendingWhileBlocked false lent }

def sortOne (s : Actor) (r : Req) (rest : List Req) (exempt lent : Bool) : Actor :=
  let s' := { s with place := .sorting rest exempt lent }
  if (exempt && r.isLifecycle) || s.admits multiDevice r then { s' with heap := r :: s.heap }
  else { s' with pendingWhileBlocked := s.pendingWhileBlocked ++ [r] }

/-- `dequeue_at_release`, after its drain, and the actor is back in its loop. -/
def giveBack (s : Actor) : Actor :=
  match s.popNext with
  | some (r, s') => { s' with dequeued := some r, place := .home }
  | none => { s with place := .home }

end Actor

/-- What may happen: in the first group by any thread, in the second by the actor or the thread that it
is lent to.  `lentFinish` is the end of a request that this thread runs. -/
inductive Action
  | submit (r : Req)
  | block (token : ℕ) (allDevices : Bool)
  | unblock (token : ℕ) (addr : ℤ) (allDevices : Bool)
  | release (token : ℕ)
  | linkTo (link : Link) (exception : Bool)
  | readmitReleased
  | enqueue
  | rescan
  | dropLeft (gone : List ℕ)
  | process (fate : Fate)
  | finish (holds : Option ℕ)
  | sort
  | lentFinish (r : Req) (holds : Option ℕ)
  | giveBack

namespace Actor

variable (multiDevice : Bool)

/-- One action; there is no result where the actor is not at the place for it. -/
def step (s : Actor) : Action → Option Actor
  | .submit r => some { s with incoming := s.incoming ++ [r] }
  | .block token allDevices => some { s with book := s.book.block token allDevices }
  | .unblock token addr allDevices =>
      (s.book.unblock token (DpKey.of multiDevice addr) allDevices).map fun book =>
        { s with book := book }
  | .release token => some { s with book := s.book.release token }
  | .linkTo link exception =>
      some { s with link := link, announced := if exception then s.announced + 1 else s.announced }
  | .readmitReleased => if s.book.released then s.place.drains.map s.readmitReleased else none
  | .enqueue =>
      match s.place.drains, s.incoming with
      | some _, r :: incoming => some ({ s with incoming := incoming }.enqueueMessage multiDevice r)
      | _, _ => none
  | .rescan =>
      match s.place with
      | .home => some s.rescan
      | _ => none
  | .dropLeft gone =>
      match s.place with
      | .home => some (s.dropLeft gone)
      | _ => none
  | .process fate =>
      match s.place with
      | .home => some (s.processOne multiDevice fate)
      | _ => none
  | .finish holds =>
      match s.place with
      | .running r => some (s.finish multiDevice r holds false)
      | _ => none
  | .sort =>
      match s.place with
      | .sorting (r :: rest) exempt lent => some (s.sortOne multiDevice r rest exempt lent)
      | .sorting [] _ lent => some { s with place := .after lent }
      | _ => none
  | .lentFinish r holds =>
      match s.place with
      | .lent => some (s.finish multiDevice r holds true)
      | _ => none
  | .giveBack =>
      match s.place with
      | .lent => some s.giveBack
      | _ => none

/-- The request that an action starts: `process_one` claimed it. -/
def starts (s : Actor) : Action → Option Req
  | .process fate =>
      match s.place, s.popNext with
      | .home, some (r, s') => if s'.disposal multiDevice r fate = .run then some r else none
      | _, _ => none
  | _ => none

end Actor

end AsynBlock
