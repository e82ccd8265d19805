/-
**The monitor event queue.**

`server/event_queue.rs`: a ring of entries that the monitors of a circuit share.  A post appends an
entry or, when the ring is nearly full or the client has said EVENTS_OFF, overwrites the monitor's
newest one.  Entries leave in ring order, or one monitor at a time.  A cancelled monitor keeps its
slot until its last entry has left.

The fields of a log that no decision reads are `η`, the values `α`, the delivery contexts `κ`.  An
index that the source takes to be occupied is looked up as an option; that it is occupied is part of
the invariant.
-/

import EpicsRs.RingCells

set_option autoImplicit false

namespace EventQueue

open RingCells

/-! ### Handles and logs -/

def eventEntries : ℕ := 4

def maxEventsPerQue : ℕ := 65535

/-- `AttachId`: a generation and the slot of the monitor, in one word. -/
structure AttachId where
  val : UInt64
deriving DecidableEq

namespace AttachId

/-- `AttachId::new`; the shift drops the bits of the generation past 48. -/
def new (generation : UInt64) (slot : UInt16) : AttachId := ⟨generation <<< 16 ||| slot.toUInt64⟩

def slot (id : AttachId) : UInt16 := id.val.toUInt16

@[simp] lemma slot_new (generation : UInt64) (slot : UInt16) :
    (new generation slot).slot = slot := by
  apply UInt16.toBitVec_inj.1
  apply BitVec.eq_of_getLsbD_eq
  intro i hi
  simp [new, AttachId.slot]

end AttachId

abbrev EventMask : Type := UInt16

/-- `LogKind`: whether the entries of a monitor copy the value. -/
inductive LogKind
  | val
  | ref
deriving DecidableEq

/-- `LogData`: a scalar that was copied, nothing, or a copy that a filter made. -/
inductive LogData (α : Type)
  | val (v : α)
  | ref
  | owned (v : α)
deriving DecidableEq

def LogData.isRef {α : Type} : LogData α → Bool
  | .ref => true
  | _ => false

/-- `PostLog`; `head` is what no decision reads. -/
structure PostLog (η α : Type) where
  head : η
  mask : EventMask
  value : LogData α
deriving DecidableEq

namespace PostLog

variable {η α : Type}

/-- `LogSource::drop_val`: a copied scalar becomes a reference. -/
def dropVal (log : PostLog η α) : PostLog η α :=
  match log.value with
  | .val _ => { log with value := .ref }
  | _ => log

def setMaskOr (log : PostLog η α) (mask : EventMask) : PostLog η α :=
  { log with mask := log.mask ||| mask }

def stored (kind : LogKind) (log : PostLog η α) : PostLog η α :=
  match kind with
  | .ref => log.dropVal
  | .val => log

end PostLog

/-- `SubQ`; the bits of `gone` are two fields. -/
structure SubQ (κ : Type) where
  id : AttachId
  sid : UInt32
  kind : LogKind
  npend : ℕ
  last : ℕ
  nreplace : ℕ
  ncollapse : ℕ
  producerGone : Bool
  readerGone : Bool
  endReported : Bool
  context : κ

def SubQ.new {κ : Type} (id : AttachId) (sid : UInt32) (kind : LogKind) (context : κ) : SubQ κ :=
  ⟨id, sid, kind, 0, 0, 0, 0, false, false, false, context⟩

structure Entry (η α : Type) where
  id : AttachId
  log : PostLog η α
deriving DecidableEq

inductive PostOutcome
  | appended (firstEvent : Bool)
  | replaced
  | collapsed
  | closed
deriving DecidableEq

/-- `CircuitEvent`, without the replies of the circuit. -/
inductive CircuitEvent (η α κ : Type)
  | event (id : AttachId) (sid : UInt32) (context : κ) (log : PostLog η α) (remaining : Bool)
  | ended (id : AttachId)

/-! ### The state of a queue -/

/-- `QueInner`.  The top of the free list is its first item; the chain of a burst is kept with the
burst. -/
structure QueInner (η α κ : Type) where
  ring : List (Option (Entry η α))
  getix : ℕ
  used : ℕ
  nDuplicates : ℕ
  draining : Bool
  inBurst : Bool
  subs : List (Option (SubQ κ))
  free : List UInt16
  quota : ℕ
  size : ℕ
  replaceThreshold : ℕ
  unreportedEnds : ℕ
  taken : ℕ

namespace QueInner

variable {η α κ : Type}

/-- `EvQue::new`, with `events_per_que()` for its argument. -/
def new (eventsPerQue : ℕ) : QueInner η α κ where
  ring := List.replicate (eventEntries * eventsPerQue) none
  getix := 0
  used := 0
  nDuplicates := 0
  draining := false
  inBurst := false
  subs := List.replicate eventsPerQue none
  free := (List.range eventsPerQue).map UInt16.ofNat
  quota := 0
  size := eventEntries * eventsPerQue
  replaceThreshold := eventsPerQue
  unreportedEnds := 0
  taken := 0

variable (q : QueInner η α κ)

/-- The monitor in slot `i`. -/
def subAt (i : ℕ) : Option (SubQ κ) := q.subs[i]?.join

/-- `QueInner::sub`: the monitor that `id` names, until its slot is freed. -/
def sub (id : AttachId) : Option (SubQ κ) := (q.subAt id.slot.toNat).filter fun s => s.id = id

/-- The monitor `s` as it is now, in its slot. -/
def setSub (s : SubQ κ) : QueInner η α κ :=
  { q with subs := q.subs.set s.id.slot.toNat (some s) }

def entryAt (i : ℕ) : Option (Entry η α) := q.ring[i]?.join

def ringSpace : ℕ := q.size - q.used

def ix (k : ℕ) : ℕ := wrap (q.getix + k) q.size

def mayDrain (flowOn : Bool) : Bool := q.draining || !flowOn || decide (0 < q.nDuplicates)

def clear (i : ℕ) : QueInner η α κ := { q with ring := q.ring.set i none }

/-! ### Attaching and closing -/

def freeSlot (id : AttachId) : QueInner η α κ :=
  { q with
    subs := q.subs.set id.slot.toNat none
    unreportedEnds :=
      if (q.subAt id.slot.toNat).any fun s => s.producerGone && !s.endReported then
        q.unreportedEnds - 1
      else q.unreportedEnds
    free := id.slot :: q.free
    quota := q.quota - eventEntries }

def tryAttach (generation : UInt64) (sid : UInt32) (kind : LogKind) (context : κ) :
    QueInner η α κ × Option AttachId :=
  if q.size - eventEntries ≤ q.quota then (q, none)
  else
    match q.free with
    | [] => (q, none)
    | slot :: free =>
        let id := AttachId.new generation slot
        ({ q with quota := q.quota + eventEntries, free }.setSub (SubQ.new id sid kind context),
          some id)

/-- `QueInner::close_producer`: the flag is set once and counted once. -/
def closeProducer (id : AttachId) : QueInner η α κ :=
  match q.sub id with
  | none => q
  | some s =>
      if s.producerGone then q
      else { q with unreportedEnds := q.unreportedEnds + 1 }.setSub { s with producerGone := true }

/-- `EvQue::close_reader`: the slot is freed at once if nothing is queued for it. -/
def closeReader (id : AttachId) : QueInner η α κ :=
  match q.sub id with
  | none => q
  | some s =>
      let q := q.setSub { s with readerGone := true }
      if s.npend = 0 then q.freeSlot id else q

/-! ### Posting -/

/-- The last arm of `EvQue::post`: a new entry at the end of the ring.  The flag says that the
queue is to be chained to the burst. -/
def append (s : SubQ κ) (log : PostLog η α) : QueInner η α κ × PostOutcome × Bool :=
  let i := wrap (q.getix + q.used) q.size
  let firstEvent := decide (q.ringSpace = q.size)
  let chain := firstEvent && !q.inBurst
  ({ q with
      ring := q.ring.set i (some ⟨s.id, log⟩)
      nDuplicates := if 0 < s.npend then q.nDuplicates + 1 else q.nDuplicates
      used := q.used + 1
      inBurst := q.inBurst || chain }.setSub { s with npend := s.npend + 1, last := i },
    .appended firstEvent, chain)

def overwrite (s : SubQ κ) (log : PostLog η α) : QueInner η α κ :=
  { q with ring := q.ring.set s.last (some ⟨s.id, log⟩) }.setSub s

def post (flowOn : Bool) (id : AttachId) (log : PostLog η α) :
    QueInner η α κ × PostOutcome × Bool :=
  match (q.sub id).filter fun s => !s.producerGone && !s.readerGone with
  | none => (q, .closed, false)
  | some s =>
      let log := log.stored s.kind
      match if 0 < s.npend then q.entryAt s.last else none with
      | none => q.append s log
      | some newest =>
          if log.value.isRef && newest.log.value.isRef then
            (q.overwrite { s with ncollapse := s.ncollapse + 1 } (newest.log.setMaskOr log.mask),
              .collapsed, false)
          else if flowOn || decide (q.ringSpace ≤ q.replaceThreshold) then
            (q.overwrite { s with nreplace := s.nreplace + 1 } (log.setMaskOr newest.log.mask),
              .replaced, false)
          else q.append s log

/-! ### Taking -/

/-- `QueInner::release`: one entry of `id` leaves the ring; the flag says that it is delivered. -/
def release (id : AttachId) : QueInner η α κ × Bool :=
  match q.sub id with
  | none => (q, false)
  | some s =>
      let npend := s.npend - 1
      let q := q.setSub { s with npend }
      let q := if 0 < npend then { q with nDuplicates := q.nDuplicates - 1 } else q
      let q := if s.readerGone && decide (npend = 0) then q.freeSlot id else q
      (q, !s.readerGone)

/-- `QueInner::advance`: the head entry is retired; it stays in its cell for the caller. -/
def advance : Option (QueInner η α κ × ℕ × AttachId × Bool) :=
  if q.used = 0 then none
  else
    match q.entryAt q.getix with
    | none => none
    | some e =>
        let r := { q with getix := q.ix 1, used := q.used - 1, taken := q.taken + 1 }.release e.id
        some ({ r.1 with draining := decide (0 < r.1.used) }, q.getix, e.id, r.2)

/-- The loop of `take_oldest`, with as many turns as there are entries. -/
def takeOldestLoop : ℕ → QueInner η α κ → QueInner η α κ × Option (CircuitEvent η α κ)
  | 0, q => (q, none)
  | n + 1, q =>
      match q.advance with
      | none => (q, none)
      | some (q', i, id, live) =>
          if live then
            match q'.sub id, q'.entryAt i with
            | some s, some e =>
                (q'.clear i, some (.event id s.sid s.context e.log (decide (0 < q'.used))))
            | _, _ => (q', none)
          else takeOldestLoop n (q'.clear i)

def takeOldest (flowOn : Bool) : QueInner η α κ × Option (CircuitEvent η α κ) :=
  if q.used = 0 || !q.mayDrain flowOn then (q, none)
  else takeOldestLoop q.used { q with draining := true }

/-- The first loop of `take_for`: the entries of cancelled monitors at the head are dropped. -/
def dropCancelled : ℕ → QueInner η α κ → QueInner η α κ
  | 0, q => q
  | n + 1, q =>
      match (if q.used = 0 then none else q.entryAt q.getix) with
      | none => q
      | some e =>
          if (q.sub e.id).any fun s => !s.readerGone then q
          else
            match q.advance with
            | none => q
            | some (q', i, _, _) => dropCancelled n (q'.clear i)

/-- The second part of `take_for`: entry `k` comes to the head, and the entries that it passes one
place further back. -/
def moveToHead (k : ℕ) : QueInner η α κ :=
  if 0 < k then
    { q with
      ring := bubble q.ring q.getix k
      subs := q.subs.map (Option.map fun s =>
        if 0 < s.npend && decide (wrap (s.last + q.size - q.getix) q.size < k) then
          { s with last := wrap (s.last + 1) q.size }
        else s) }
  else q

def takeFor (id : AttachId) : QueInner η α κ × Option (PostLog η α) :=
  let q := dropCancelled q.used q
  match (List.range q.used).find? fun k => (q.entryAt (q.ix k)).any fun e => e.id = id with
  | none => (q, none)
  | some k =>
      match (q.moveToHead k).advance with
      | none => (q.moveToHead k, none)
      | some (q', i, _, _) => (q'.clear i, (q'.entryAt i).map Entry.log)

def takeEnded : QueInner η α κ × Option (CircuitEvent η α κ) :=
  if q.unreportedEnds = 0 then (q, none)
  else
    match q.subs.findIdx? fun o =>
        o.any fun s => s.producerGone && !s.endReported && decide (s.npend = 0) with
    | none => (q, none)
    | some i =>
        match q.subAt i with
        | none => (q, none)
        | some s =>
            ({ q with
                subs := q.subs.set i (some { s with endReported := true })
                unreportedEnds := q.unreportedEnds - 1 }, some (.ended s.id))

/-! ### The reads of the consumers -/

/-- `EvQue::poll_oldest`: an event, an end, or `none` where the source parks. -/
def pollOldest (flowOn : Bool) : QueInner η α κ × Option (CircuitEvent η α κ) :=
  match q.takeOldest flowOn with
  | (q', some e) => (q', some e)
  | (q', none) => q'.takeEnded

inductive Polled (η α : Type)
  | event (log : PostLog η α)
  | ended
  | pending

/-- `EvQue::poll_next`; `try_next` has the same arms. -/
def pollNext (flowOn : Bool) (id : AttachId) : QueInner η α κ × Polled η α :=
  match q.sub id with
  | none => (q, .ended)
  | some s =>
      if 0 < s.npend then
        if q.mayDrain flowOn then
          match { q with draining := true }.takeFor id with
          | (q', some log) => (q', .event log)
          | (q', none) => (q', .ended)
        else (q, .pending)
      else if s.producerGone then (q, .ended)
      else (q, .pending)

end QueInner

end EventQueue
