/-
**The event user of a circuit.**

An `EventUser` chains the queues of a circuit.  One consumer reads them all: a poll takes the chain
lock, returns a reply that is due, looks at the queues in turn, and else returns an owed reply or
parks.  Producers post in bursts and wake it when a burst ends; closes, EVENTS_ON and replies wake
it at once.

A step is what a party does under one lock.  A party that holds the chain lock over several steps is
a state of that lock; `park` also holds the lock of a queue.  A wake is a step of its own.  The
history is read by no step.
-/

import EpicsRs.EventQueueRuns

set_option autoImplicit false

namespace EventQueue

open RingCells

/-! ### The state -/

/-- `OwedReply`: a frame, and for each queue that held entries the count at which they have left. -/
structure OwedReply (ρ : Type) where
  frame : ρ
  ahead : List (ℕ × ℕ)

/-- `PostBurst`.  `marked` is the queue that a post has marked and not yet chained; `off` the queue
that the drop has taken off the chain and not yet woken. -/
structure PostBurst where
  chain : List ℕ
  marked : Option ℕ
  off : Option ℕ
  dropping : Bool

def PostBurst.new : PostBurst := ⟨[], none, none, false⟩

/-- Who holds the chain lock, and how far it has come. -/
inductive ChainLock (κ ρ : Type)
  | free
  /-- `reply_due`: what is still to be compared for the first reply. -/
  | due (rest : List (ℕ × ℕ))
  /-- `poll_next_into`: the turn of the queue to look at. -/
  | look (turn : ℕ)
  /-- `poll_next_into`: nothing was found, and the queue is still locked. -/
  | park (turn : ℕ)
  /-- `post_reply`: the queues before `place` have been sampled. -/
  | reply (frame : ρ) (place : ℕ) (ahead : List (ℕ × ℕ)) (upTo : List ℕ)
  /-- `attach_que`: the queues before `place` had no room. -/
  | attach (place : ℕ) (generation : UInt64) (sid : UInt32) (kind : LogKind) (context : κ)
  /-- `flow_ctrl_off`: the readers of the queues before `place` were woken. -/
  | flowOff (place : ℕ)

/-- A queue that was looked at, and nothing was delivered. -/
structure Look where
  que : ℕ
  used : ℕ
  mayDrain : Bool

/-- A reply that was posted: how many entries each queue had been given when the call began, and
where the history stood when the reply was queued. -/
structure Posting (ρ : Type) where
  frame : ρ
  upTo : List ℕ
  polls : ℕ
  work : ℕ
  added : ℕ
  before : ℕ

/-- A reply that was returned: how many entries had left each queue, and the looks of the poll. -/
structure Returned (ρ : Type) where
  frame : ρ
  taken : List ℕ
  looks : List Look

structure History (ρ : Type) where
  appended : List (ℕ × AttachId)
  ends : ℕ
  posted : List (Posting ρ)
  returned : List (Returned ρ)
  polls : ℕ
  looks : List Look

def History.appendedTo {ρ : Type} (h : History ρ) (i : ℕ) : List AttachId :=
  h.appended.filterMap fun p => if p.1 = i then some p.2 else none

/-- `EventUser` and the parties that are under way: `waking` closes and replies that have still to
wake, and `offs` calls of `flow_ctrl_off` that have still to take the chain lock.  `pending` says
that the last poll parked, and `woken` that a wake was fired since it began. -/
structure User (η α κ ρ : Type) where
  eventsPerQue : ℕ
  ques : List (QueInner η α κ)
  flowOn : Bool
  reading : ℕ
  replies : List (OwedReply ρ)
  closed : Bool
  lock : ChainLock κ ρ
  ppendsem : Bool
  bursts : List PostBurst
  waking : ℕ
  offs : ℕ
  pending : Bool
  woken : Bool
  hist : History ρ

namespace User

variable {η α κ ρ : Type}

def new (eventsPerQue : ℕ) : User η α κ ρ where
  eventsPerQue := eventsPerQue
  ques := [QueInner.new eventsPerQue]
  flowOn := false
  reading := 0
  replies := []
  closed := false
  lock := .free
  ppendsem := false
  bursts := []
  waking := 0
  offs := 0
  pending := false
  woken := false
  hist := ⟨[], 0, [], [], 0, []⟩

variable (u : User η α κ ρ)

def turn (s : ℕ) : ℕ := wrap (u.reading + s) u.ques.length

/-- The consumer holds the lock of queue `i`. -/
def holds (i : ℕ) : Prop := ∃ s, u.lock = .park s ∧ u.turn s = i

/-- `wake_readers`: the parked waker is taken out and fired. -/
def wake : User η α κ ρ := if u.ppendsem then { u with ppendsem := false, woken := true } else u

def work : ℕ := (u.ques.map fun q => q.used + q.unreportedEnds).sum

def added : ℕ := u.hist.appended.length + u.hist.ends

/-- `EvQue::post` on queue `i`, in the burst `b`. -/
def post (b : ℕ) (burst : PostBurst) (i : ℕ) (q : QueInner η α κ) (id : AttachId)
    (log : PostLog η α) : User η α κ ρ :=
  let r := q.post u.flowOn id log
  { u with
    ques := u.ques.set i r.1
    bursts := if r.2.2 then u.bursts.set b { burst with marked := some i } else u.bursts
    hist := match r.2.1 with
      | .appended _ => { u.hist with appended := u.hist.appended ++ [(i, id)] }
      | _ => u.hist }

def pollBegin : User η α κ ρ :=
  { u with
    lock := match u.replies with
      | [] => .look 0
      | reply :: _ => .due reply.ahead
    pending := false
    woken := false
    hist := { u.hist with looks := [] } }

def pollReply (reply : OwedReply ρ) (rest : List (OwedReply ρ)) : User η α κ ρ :=
  { u with
    replies := rest
    lock := .free
    hist := { u.hist with
      returned := u.hist.returned ++ [⟨reply.frame, u.ques.map QueInner.taken, u.hist.looks⟩]
      polls := u.hist.polls + 1 } }

/-- A poll returns an event of queue `i`. -/
def pollEvent (i : ℕ) (q : QueInner η α κ) : User η α κ ρ :=
  { u with
    ques := u.ques.set i q
    reading := i
    lock := .free
    hist := { u.hist with polls := u.hist.polls + 1 } }

/-- A poll found nothing on queue `i`. -/
def pollNothing (s i : ℕ) (q : QueInner η α κ) : User η α κ ρ :=
  { u with
    ques := u.ques.set i q
    lock := .park s
    hist := { u.hist with looks := u.hist.looks ++ [⟨i, q.used, q.mayDrain u.flowOn⟩] } }

/-- A poll found nothing on any queue, and no reply is owed. -/
def pollPending : User η α κ ρ :=
  { u with
    reading := 0
    lock := .free
    pending := true
    hist := { u.hist with polls := u.hist.polls + 1 } }

/-- `post_reply` queues the frame, lets go of the chain lock, and has still to wake. -/
def pushReply (frame : ρ) (ahead : List (ℕ × ℕ)) (upTo : List ℕ) : User η α κ ρ :=
  { u with
    replies := u.replies ++ [⟨frame, ahead⟩]
    lock := .free
    waking := u.waking + 1
    hist := { u.hist with
      posted := u.hist.posted ++
        [⟨frame, upTo, u.hist.polls, u.work, u.added, u.replies.length⟩] } }

end User

section

variable {η α κ ρ : Type} (u : User η α κ ρ)

@[simp] lemma wake_ques : u.wake.ques = u.ques := by
  unfold User.wake
  split_ifs <;> rfl

@[simp] lemma wake_eventsPerQue : u.wake.eventsPerQue = u.eventsPerQue := by
  unfold User.wake
  split_ifs <;> rfl

@[simp] lemma wake_reading : u.wake.reading = u.reading := by
  unfold User.wake
  split_ifs <;> rfl

@[simp] lemma wake_replies : u.wake.replies = u.replies := by
  unfold User.wake
  split_ifs <;> rfl

@[simp] lemma wake_closed : u.wake.closed = u.closed := by
  unfold User.wake
  split_ifs <;> rfl

@[simp] lemma wake_lock : u.wake.lock = u.lock := by
  unfold User.wake
  split_ifs <;> rfl

@[simp] lemma wake_hist : u.wake.hist = u.hist := by
  unfold User.wake
  split_ifs <;> rfl

@[simp] lemma wake_flowOn : u.wake.flowOn = u.flowOn := by
  unfold User.wake
  split_ifs <;> rfl

end

lemma not_holds {η α κ ρ : Type} {u : User η α κ ρ} (h : u.lock = .free) (i : ℕ) :
    ¬ u.holds i := by
  rintro ⟨s, hs, -⟩
  exact absurd (h.symm.trans hs) nofun

/-! ### The steps -/

section

variable {η α κ ρ : Type}

inductive UserStep : User η α κ ρ → User η α κ ρ → Prop
  | newBurst (u : User η α κ ρ) : UserStep u { u with bursts := u.bursts ++ [PostBurst.new] }
  | post {u b i burst q} (id : AttachId)
      (log : PostLog η α) (hburst : u.bursts[b]? = some burst) (hmarked : burst.marked = none)
      (hdropping : burst.dropping = false) (hque : u.ques[i]? = some q) (hlock : ¬ u.holds i) :
      UserStep u (u.post b burst i q id log)
  /-- `PostBurst::push`. -/
  | push {u b i burst} (hburst : u.bursts[b]? = some burst)
      (hmarked : burst.marked = some i) :
      UserStep u { u with
        bursts := u.bursts.set b { burst with chain := burst.chain ++ [i], marked := none } }
  /-- `wake_chain` takes the first queue off the chain, under its lock. -/
  | unchain {u b i burst rest q}
      (hburst : u.bursts[b]? = some burst) (hmarked : burst.marked = none) (hoff : burst.off = none)
      (hchain : burst.chain = i :: rest) (hque : u.ques[i]? = some q) (hlock : ¬ u.holds i) :
      UserStep u { u with
        ques := u.ques.set i { q with inBurst := false }
        bursts := u.bursts.set b { burst with chain := rest, off := some i, dropping := true } }
  /-- `wake_chain` wakes the reader of that queue. -/
  | wakeBurst {u b i} {burst : PostBurst} (hburst : u.bursts[b]? = some burst)
      (hoff : burst.off = some i) :
      UserStep u { u with bursts := u.bursts.set b { burst with off := none } }.wake
  /-- `close_producer`; nothing is done for a monitor that is detached. -/
  | closeProducer {u i q id}
      (hque : u.ques[i]? = some q) (hlock : ¬ u.holds i) (hsub : (q.sub id).isSome) :
      UserStep u { u with
        ques := u.ques.set i (q.closeProducer id)
        waking := u.waking + 1
        hist := { u.hist with ends := u.hist.ends + 1 } }
  /-- `close_reader`. -/
  | closeReader {u i q id}
      (hque : u.ques[i]? = some q) (hlock : ¬ u.holds i) (hsub : (q.sub id).isSome) :
      UserStep u { u with ques := u.ques.set i (q.closeReader id), waking := u.waking + 1 }
  /-- The wake of a close, or of `post_reply`. -/
  | wakeCall {u} (hwaking : 0 < u.waking) :
      UserStep u { u with waking := u.waking - 1 }.wake
  /-- `flow_ctrl_on`. -/
  | flowCtrlOn (u : User η α κ ρ) : UserStep u { u with flowOn := true }
  /-- `flow_ctrl_off` stores the flag. -/
  | flowCtrlOff (u : User η α κ ρ) : UserStep u { u with flowOn := false, offs := u.offs + 1 }
  /-- `flow_ctrl_off` takes the chain lock. -/
  | flowOffLock {u} (hfree : u.lock = .free) (hoffs : 0 < u.offs) :
      UserStep u { u with offs := u.offs - 1, lock := .flowOff 0 }
  /-- `flow_ctrl_off` wakes the reader of one queue. -/
  | flowOffWake {u k} (hlock : u.lock = .flowOff k)
      (hk : k < u.ques.length) :
      UserStep u
        { u with lock := if k + 1 = u.ques.length then .free else .flowOff (k + 1) }.wake
  /-- `post_reply` takes the chain lock; it returns at once when replies are closed. -/
  | replyLock {u} (frame : ρ) (hfree : u.lock = .free) (hclosed : u.closed = false) :
      UserStep u { u with
        lock := .reply frame 0 []
          ((List.range u.ques.length).map fun i => (u.hist.appendedTo i).length) }
  /-- `post_reply` samples a queue, under its lock. -/
  | replySample {u frame k ahead upTo q} (hlock : u.lock = .reply frame k ahead upTo)
      (hque : u.ques[k]? = some q) :
      UserStep u { u with
        lock := .reply frame (k + 1)
          (if 0 < q.used then ahead ++ [(k, q.taken + q.used)] else ahead) upTo }
  /-- `post_reply` queues the frame. -/
  | replyPush {u frame k ahead upTo}
      (hlock : u.lock = .reply frame k ahead upTo) (hk : k = u.ques.length) :
      UserStep u (u.pushReply frame ahead upTo)
  /-- `close_replies`. -/
  | closeReplies {u} (hfree : u.lock = .free) :
      UserStep u { u with closed := true, replies := [] }
  /-- `attach_que` takes the chain lock. -/
  | attachLock {u} (generation : UInt64) (sid : UInt32) (kind : LogKind)
      (context : κ) (hfree : u.lock = .free) :
      UserStep u { u with lock := .attach 0 generation sid kind context }
  /-- `attach_que` tries a queue, under its lock. -/
  | attachTry {u : User η α κ ρ} {k : ℕ} {generation : UInt64} {sid : UInt32} {kind : LogKind}
      {context : κ} {q : QueInner η α κ} (hlock : u.lock = .attach k generation sid kind context)
      (hque : u.ques[k]? = some q) :
      UserStep u { u with
        ques := u.ques.set k (q.tryAttach generation sid kind context).1
        lock := match (q.tryAttach generation sid kind context).2 with
          | some _ => .free
          | none => .attach (k + 1) generation sid kind context }
  /-- `attach_que` chains a new queue. -/
  | attachNew {u k generation sid kind context} (hlock : u.lock = .attach k generation sid kind context)
      (hk : k = u.ques.length) :
      UserStep u { u with
        ques := u.ques ++ [((QueInner.new u.eventsPerQue).tryAttach generation sid kind context).1]
        lock := .free }
  /-- `poll_next_into` takes the chain lock. -/
  | pollBegin {u} (hfree : u.lock = .free) : UserStep u u.pollBegin
  /-- `reply_due` compares the count of one queue, under its lock. -/
  | pollDue {u i mark rest q}
      (hlock : u.lock = .due ((i, mark) :: rest)) (hque : u.ques[i]? = some q) :
      UserStep u { u with lock := if mark ≤ q.taken then .due rest else .look 0 }
  /-- The first reply is due. -/
  | pollReply {u reply rest}
      (hlock : u.lock = .due []) (hreplies : u.replies = reply :: rest) :
      UserStep u (u.pollReply reply rest)
  /-- `poll_oldest` finds an event. -/
  | pollEvent {u s q q' e}
      (hlock : u.lock = .look s) (hs : s < u.ques.length) (hque : u.ques[u.turn s]? = some q)
      (hpoll : q.pollOldest u.flowOn = (q', some e)) : UserStep u (u.pollEvent (u.turn s) q')
  /-- `poll_oldest` finds nothing. -/
  | pollNothing {u s q q'} (hlock : u.lock = .look s)
      (hs : s < u.ques.length) (hque : u.ques[u.turn s]? = some q)
      (hpoll : q.pollOldest u.flowOn = (q', none)) : UserStep u (u.pollNothing s (u.turn s) q')
  /-- The consumer parks, and lets go of the queue. -/
  | pollPark {u s} (hlock : u.lock = .park s) :
      UserStep u { u with ppendsem := true, lock := .look (s + 1) }
  /-- All queues were looked at: an owed reply is returned. -/
  | pollPassed {u s reply rest}
      (hlock : u.lock = .look s) (hs : s = u.ques.length) (hreplies : u.replies = reply :: rest) :
      UserStep u (u.pollReply reply rest)
  /-- All queues were looked at, and no reply is owed. -/
  | pollPending {u s} (hlock : u.lock = .look s) (hs : s = u.ques.length)
      (hreplies : u.replies = []) : UserStep u u.pollPending

/-- The states of the runs of a circuit with queues for `n` monitors. -/
def Reachable (n : ℕ) (u : User η α κ ρ) : Prop := Relation.ReflTransGen UserStep (User.new n) u

end

end EventQueue
