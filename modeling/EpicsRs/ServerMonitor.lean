/-
**The queue of a monitor on the server.**

A subscriber of the server owns a `MonitorQueue` (`server_native/tcp.rs`).  A post lists the paths
of the fields that its source assigned, or nothing where it assigned all.  The queue resolves them
to bits when the post arrives: a post without bits is dropped.  A full queue merges a post into its
tail, the paths as lists and the stored bits as sets.

A list that a source shares among its posts is resolved once and then found by its *address*, which
is why the cache holds the list itself.  An arriving list therefore agrees with every list at the
same address that the queue still holds (`Coherent`): this is what the allocator guarantees, and all
that is assumed.

Main result: `ServerMonitor.gate_equals_wire`.
-/

import EpicsRs.PvaPaths
import EpicsRs.StepRuns

set_option autoImplicit false

namespace ServerMonitor

open Pva StepRuns List BitSet

/-! ### Updates -/

/-- `Marks`.  A shared list is known by the address at which it lives. -/
inductive Marks where
  | owned (paths : List String)
  | shared (addr : ℕ) (paths : List String)
deriving DecidableEq

namespace Marks

/-- What a `Marks` dereferences to. -/
def paths : Marks → List String
  | owned ps => ps
  | shared _ ps => ps

def sameSet : Marks → Marks → Bool
  | shared a _, shared b _ => a == b
  | _, _ => false

end Marks

structure MonitorUpdate where
  value : PvField
  marked : Option Marks
  /-- The update is a terminal: the frame it becomes ends the subscription. -/
  typeChanged : Bool
  overrun : List String

def MonitorUpdate.typeChange : MonitorUpdate := ⟨.null, none, true, []⟩

def MonitorUpdate.markedPaths (u : MonitorUpdate) : Option (List String) := u.marked.map Marks.paths

structure SourceRead where
  value : PvField
  marked : Option (List String)

/-- `MonitorUpdate::from(SourceRead)`. -/
def SourceRead.toUpdate (r : SourceRead) : MonitorUpdate := ⟨r.value, r.marked.map .owned, false, []⟩

structure QueuedUpdate where
  update : MonitorUpdate
  changed : BitSet

def readChangedBitset (intro : FieldDesc) (mask : BitSet) : Option (List String) → BitSet
  | some paths => markedWireChangedBitset intro paths mask
  | none => canonicalChangedBitset intro mask

/-! ### Merging -/

/-- Every path of the second list that the first does not hold, appended to it. -/
def unionPaths (into paths : List String) : List String :=
  paths.foldl (fun into p => if into.contains p then into else into ++ [p]) into

/-- The paths that two updates with explicit marks both name. -/
def lostPaths : Option Marks → Option Marks → List String
  | some a, some b => a.paths.filter b.paths.contains
  | _, _ => []

def mergeMarks : Option Marks → Option Marks → Option Marks
  | some a, some b => if a.sameSet b then some a else some (.owned (unionPaths a.paths b.paths))
  | _, _ => none

def coalesceMonitorUpdate (older newer : MonitorUpdate) : MonitorUpdate :=
  if older.typeChanged || newer.typeChanged then .typeChange
  else
    { value := newer.value
      marked := mergeMarks older.marked newer.marked
      typeChanged := false
      overrun := unionPaths (unionPaths older.overrun newer.overrun)
        (lostPaths older.marked newer.marked) }

/-- `coalesce_queued_update`.  Where both hold one and the same set it is kept, which is what the
union is then. -/
def coalesceQueuedUpdate (older newer : QueuedUpdate) : QueuedUpdate :=
  if (coalesceMonitorUpdate older.update newer.update).typeChanged then
    ⟨coalesceMonitorUpdate older.update newer.update, BitSet.new⟩
  else
    ⟨coalesceMonitorUpdate older.update newer.update, older.changed.unionWith newer.changed⟩

structure MonitorStat where
  maxQueue : ℕ := 0
  nSquash : ℕ := 0

def MonitorStat.queued (stat : MonitorStat) (depth : ℕ) : MonitorStat :=
  if stat.maxQueue < depth then { stat with maxQueue := depth } else stat

def MonitorStat.squashed (stat : MonitorStat) : MonitorStat := { stat with nSquash := stat.nSquash + 1 }

/-- `push_squash_monitor`; `none` is the failure of its `expect`. -/
def pushSquashMonitor {τ : Type} (isTerminal : τ → Bool) (coalesce : τ → τ → τ) (pending : List τ)
    (ev : τ) (limit : ℕ) (stat : MonitorStat) : Option (List τ × MonitorStat) :=
  if isTerminal ev || decide (pending.length < limit) then
    some (pending ++ [ev], stat.queued (pending.length + 1))
  else
    pending.getLast?.map fun tail => (pending.dropLast ++ [coalesce tail ev], stat.squashed)

/-! ### The queue -/

/-- `MonitorQueue`.  `new` sees to it that a full queue has a tail to merge into. -/
structure MonitorQueue where
  pending : List QueuedUpdate
  limit : ℕ
  limit_pos : 1 ≤ limit
  first : Bool
  intro : FieldDesc
  mask : BitSet
  unmarkedChanged : BitSet
  sharedChanged : List (Marks × BitSet)
  stat : MonitorStat

def sharedChangedCap : ℕ := 8

namespace MonitorQueue

def new (limit : ℕ) (intro : FieldDesc) (mask : BitSet) : MonitorQueue where
  pending := []
  limit := max limit 1
  limit_pos := le_max_right limit 1
  first := true
  intro := intro
  mask := mask
  unmarkedChanged := canonicalChangedBitset intro mask
  sharedChanged := []
  stat := {}

/-- A shared list that was just resolved enters the cache; the oldest one leaves a full cache. -/
def remember (q : MonitorQueue) (marks : Marks) (bits : BitSet) : MonitorQueue :=
  { q with
    sharedChanged :=
      (if q.sharedChanged.length = sharedChangedCap then q.sharedChanged.drop 1
        else q.sharedChanged) ++ [(marks, bits)] }

def wireChanged (q : MonitorQueue) (ev : MonitorUpdate) : BitSet × MonitorQueue :=
  if ev.typeChanged then (BitSet.new, q)
  else match ev.marked with
    | none => (q.unmarkedChanged, q)
    | some (.owned paths) => (markedWireChangedBitset q.intro paths q.mask, q)
    | some (.shared addr paths) =>
        match q.sharedChanged.find? fun mb => mb.1.sameSet (.shared addr paths) with
        | some mb => (mb.2, q)
        | none =>
            (markedWireChangedBitset q.intro paths q.mask,
              q.remember (.shared addr paths) (markedWireChangedBitset q.intro paths q.mask))

def seed (q : MonitorQueue) (initial : SourceRead) : MonitorQueue :=
  { (q.wireChanged initial.toUpdate).2 with
    first := false
    pending := q.pending ++ [⟨initial.toUpdate, (q.wireChanged initial.toUpdate).1⟩]
    stat := q.stat.queued (q.pending.length + 1) }

/-- Whether `push` lets an update in. -/
def admits (q : MonitorQueue) (ev : MonitorUpdate) : Bool :=
  q.first || ev.typeChanged || !(q.wireChanged ev).1.isEmpty

/-- `MonitorQueue::push`; the update was queued if the first component says so. -/
def push (q : MonitorQueue) (ev : MonitorUpdate) : Option (Bool × MonitorQueue) :=
  if q.admits ev then
    (pushSquashMonitor (fun e : QueuedUpdate => e.update.typeChanged) coalesceQueuedUpdate q.pending
      ⟨ev, (q.wireChanged ev).1⟩ q.limit q.stat).map fun ps =>
        (true, { (q.wireChanged ev).2 with first := false, pending := ps.1, stat := ps.2 })
  else some (false, (q.wireChanged ev).2)

def pop (q : MonitorQueue) : Option QueuedUpdate × MonitorQueue :=
  (q.pending.head?, { q with pending := q.pending.tail })

def heldMarks (q : MonitorQueue) : List Marks :=
  q.sharedChanged.map Prod.fst ++ q.pending.filterMap fun e => e.update.marked

/-- Two lists that are alive at once and have the same address are the same list. -/
def Coherent (q : MonitorQueue) (ev : MonitorUpdate) : Prop :=
  ∀ marks ∈ ev.marked, ∀ held ∈ q.heldMarks, held.sameSet marks = true → held.paths = marks.paths

instance (q : MonitorQueue) (ev : MonitorUpdate) : Decidable (q.Coherent ev) :=
  inferInstanceAs (Decidable (∀ marks ∈ ev.marked, _))

end MonitorQueue

/-! ### What the stored bits are -/

section Matches

variable (intro : FieldDesc) (mask : BitSet)

/-- The stored bits of an update are those of its marks, and a terminal has none. -/
def Matches (e : QueuedUpdate) : Prop :=
  ∀ i, e.changed.get i =
    (!e.update.typeChanged && (readChangedBitset intro mask e.update.markedPaths).get i)

variable {intro mask}

lemma get_readChangedBitset_none (i : ℕ) :
    (readChangedBitset intro mask none).get i = (intro.leafBit i && mask.get i) :=
  get_canonicalChangedBitset intro mask i

lemma get_readChangedBitset_some (paths : List String) (i : ℕ) :
    (readChangedBitset intro mask (some paths)).get i = true ↔
      (intro.leafBit i && mask.get i) = true ∧ ∃ path ∈ paths, path ≠ "" ∧ intro.Covers path i :=
  get_markedWireChangedBitset intro paths mask i

lemma mem_unionPaths {p} (paths : List String) :
    ∀ into, p ∈ unionPaths into paths ↔ p ∈ into ∨ p ∈ paths := by
  induction paths with
  | nil => simp [unionPaths]
  | cons x paths ih =>
    intro into
    rw [unionPaths, foldl_cons]
    refine (ih _).trans ?_
    by_cases hx : into.contains x = true
    · rw [if_pos hx, mem_cons]
      have hmem : x ∈ into := by simpa using hx
      constructor
      · exact Or.imp_right Or.inr
      · rintro (h | rfl | h)
        · exact Or.inl h
        · exact Or.inl hmem
        · exact Or.inr h
    · rw [if_neg hx, mem_append, mem_singleton, mem_cons, or_assoc]

/-- **Resolving distributes over the union of the marks.** -/
theorem get_readChangedBitset_merge (a b : Option Marks)
    (hsame : ∀ x ∈ a, ∀ y ∈ b, x.sameSet y = true → x.paths = y.paths) (i : ℕ) :
    (readChangedBitset intro mask ((mergeMarks a b).map Marks.paths)).get i =
      ((readChangedBitset intro mask (a.map Marks.paths)).get i ||
        (readChangedBitset intro mask (b.map Marks.paths)).get i) := by
  -- explicit marks never stand for more than all fields do
  have hall : ∀ m : Option Marks, (readChangedBitset intro mask (m.map Marks.paths)).get i = true →
      (readChangedBitset intro mask none).get i = true := by
    intro m hm
    cases m with
    | none => exact hm
    | some m =>
      rw [get_readChangedBitset_none]
      exact ((get_readChangedBitset_some m.paths i).1 hm).1
  rw [Bool.eq_iff_iff, Bool.or_eq_true]
  cases a with
  | none => exact ⟨Or.inl, fun h => h.elim id (hall b)⟩
  | some x =>
    cases b with
    | none => exact ⟨Or.inr, fun h => h.elim (hall (some x)) id⟩
    | some y =>
      simp only [mergeMarks, Option.map_some]
      by_cases hxy : x.sameSet y = true
      · rw [if_pos hxy, Option.map_some, hsame x rfl y rfl hxy, or_self]
      · rw [if_neg hxy]
        simp only [Option.map_some, Marks.paths, get_readChangedBitset_some, mem_unionPaths]
        rw [← and_or_left]
        simp only [or_and_right, exists_or]

lemma matches_coalesce {older newer} (ho : Matches intro mask older) (hn : Matches intro mask newer)
    (hsame : ∀ x ∈ older.update.marked, ∀ y ∈ newer.update.marked, x.sameSet y = true →
      x.paths = y.paths) : Matches intro mask (coalesceQueuedUpdate older newer) := by
  intro i
  by_cases hterm : (older.update.typeChanged || newer.update.typeChanged) = true
  · have hcoal : coalesceMonitorUpdate older.update newer.update = .typeChange := if_pos hterm
    have hqueued : coalesceQueuedUpdate older newer = ⟨.typeChange, new⟩ := by
      rw [coalesceQueuedUpdate, hcoal]
      rfl
    rw [hqueued]
    exact get_new i
  · have hcoal : (coalesceMonitorUpdate older.update newer.update).typeChanged = false := by
      rw [coalesceMonitorUpdate, if_neg hterm]
    have hmarked : (coalesceMonitorUpdate older.update newer.update).marked =
        mergeMarks older.update.marked newer.update.marked := by
      rw [coalesceMonitorUpdate, if_neg hterm]
    obtain ⟨hold, hnew⟩ := Bool.or_eq_false_iff.1 (Bool.eq_false_iff.2 hterm)
    have hbits := @get_readChangedBitset_merge intro mask _ _ hsame i
    have hoi := ho i
    have hni := hn i
    rw [hold, Bool.not_false, Bool.true_and] at hoi
    rw [hnew, Bool.not_false, Bool.true_and] at hni
    rw [coalesceQueuedUpdate, hcoal, if_neg Bool.false_ne_true]
    simp only [get_unionWith, hoi, hni, hcoal, Bool.not_false, Bool.true_and,
      MonitorUpdate.markedPaths, hmarked, hbits]

end Matches

/-! ### What an operation does -/

namespace MonitorQueue

section

variable {intro : FieldDesc} {mask : BitSet} {q : MonitorQueue} {ev : MonitorUpdate}

/-- What the queue keeps beside the updates was resolved against its descriptor and its mask. -/
structure Resolved (intro : FieldDesc) (mask : BitSet) (q : MonitorQueue) : Prop where
  intro_eq : q.intro = intro
  mask_eq : q.mask = mask
  unmarked : q.unmarkedChanged = canonicalChangedBitset intro mask
  cached : ∀ mb ∈ q.sharedChanged, mb.2 = markedWireChangedBitset intro mb.1.paths mask

lemma wireChanged_snd (q : MonitorQueue) (ev : MonitorUpdate) :
    (q.wireChanged ev).2 = { q with sharedChanged := (q.wireChanged ev).2.sharedChanged } := by
  unfold wireChanged
  by_cases hterm : ev.typeChanged = true
  · rw [if_pos hterm]
  · rw [if_neg hterm]
    cases ev.marked with
    | none => rfl
    | some marks =>
      cases marks with
      | owned paths => rfl
      | shared addr paths =>
        dsimp only
        cases q.sharedChanged.find? fun mb => mb.1.sameSet (.shared addr paths) <;> rfl

lemma mem_remember {marks bits mb} (h : mb ∈ (q.remember marks bits).sharedChanged)
    : mb ∈ q.sharedChanged ∨ mb = (marks, bits) := by
  rcases mem_append.1 h with h | h
  · split at h
    · exact Or.inl (mem_of_mem_drop h)
    · exact Or.inl h
  · exact Or.inr (mem_singleton.1 h)

/-- **The gate**: what an update is resolved to are the bits of its marks. -/
theorem Resolved.wireChanged (h : Resolved intro mask q) (hco : q.Coherent ev) :
    Matches intro mask ⟨ev, (q.wireChanged ev).1⟩ ∧ Resolved intro mask (q.wireChanged ev).2 := by
  obtain ⟨rfl, rfl, hunmarked, hcached⟩ := h
  unfold MonitorQueue.wireChanged
  by_cases hterm : ev.typeChanged = true
  · rw [if_pos hterm]
    refine ⟨fun i => ?_, rfl, rfl, hunmarked, hcached⟩
    simp only [hterm, Bool.not_true, Bool.false_and]
    exact get_new i
  · rw [if_neg hterm]
    have hmatch : ∀ {bits : BitSet}, bits = readChangedBitset q.intro q.mask ev.markedPaths →
        Matches q.intro q.mask ⟨ev, bits⟩ := by
      rintro bits rfl i
      simp only [Bool.eq_false_iff.2 hterm, Bool.not_false, Bool.true_and]
    cases hmarked : ev.marked with
    | none =>
      refine ⟨hmatch ?_, rfl, rfl, hunmarked, hcached⟩
      rw [hunmarked, MonitorUpdate.markedPaths, hmarked]
      rfl
    | some marks =>
      have hread : readChangedBitset q.intro q.mask ev.markedPaths =
          markedWireChangedBitset q.intro marks.paths q.mask := by
        rw [MonitorUpdate.markedPaths, hmarked]
        rfl
      cases marks with
      | owned paths => exact ⟨hmatch hread.symm, rfl, rfl, hunmarked, hcached⟩
      | shared addr paths =>
        dsimp only
        cases hfind : q.sharedChanged.find? fun mb => mb.1.sameSet (.shared addr paths) with
        | none =>
          refine ⟨hmatch hread.symm, rfl, rfl, hunmarked, fun mb hmb => ?_⟩
          rcases mem_remember hmb with hmb | rfl
          · exact hcached mb hmb
          · rfl
        | some mb =>
          have hmem := mem_of_find?_eq_some hfind
          have hheld : mb.1 ∈ q.heldMarks :=
            mem_append_left _ (mem_map_of_mem hmem)
          -- the list at this address is still the one that was resolved
          have hsame : mb.1.sameSet (.shared addr paths) = true := by
            simpa using find?_some hfind
          have hpaths : mb.1.paths = paths := hco _ hmarked mb.1 hheld hsame
          have hbits : mb.2 = readChangedBitset q.intro q.mask ev.markedPaths := by
            rw [hread, hcached mb hmem, hpaths]
            rfl
          exact ⟨hmatch hbits, rfl, rfl, hunmarked, hcached⟩

end

/-- What becomes of the pending updates when `e` is pushed; the flag says whether it was queued. -/
inductive Pushed (q : MonitorQueue) (e : QueuedUpdate) : Bool → List QueuedUpdate → Prop
  | dropped (hfirst : q.first = false) (hterm : e.update.typeChanged = false)
      (hempty : e.changed.isEmpty = true) : Pushed q e false q.pending
  | appended (hadmits : q.first || e.update.typeChanged || !e.changed.isEmpty)
      (hroom : e.update.typeChanged = true ∨ q.pending.length < q.limit) :
      Pushed q e true (q.pending ++ [e])
  | squashed (hadmits : q.first || e.update.typeChanged || !e.changed.isEmpty)
      (hterm : e.update.typeChanged = false) (hfull : q.limit ≤ q.pending.length)
      (before : List QueuedUpdate) (tail : QueuedUpdate) (hpending : q.pending = before ++ [tail]) :
      Pushed q e true (before ++ [coalesceQueuedUpdate tail e])

/-- **A push never fails**, and these are its three outcomes. -/
theorem push_spec (q : MonitorQueue) (ev : MonitorUpdate) :
    ∃ queued pending stat,
      q.push ev = some (queued, { (q.wireChanged ev).2 with first := false, pending, stat }) ∧
        Pushed q ⟨ev, (q.wireChanged ev).1⟩ queued pending := by
  unfold push
  by_cases hadmits : q.admits ev = true
  · rw [if_pos hadmits, pushSquashMonitor]
    by_cases hroom : (ev.typeChanged || decide (q.pending.length < q.limit)) = true
    · rw [if_pos hroom]
      refine ⟨true, _, _, rfl, .appended hadmits ?_⟩
      rwa [Bool.or_eq_true, decide_eq_true_iff] at hroom
    · rw [if_neg hroom]
      obtain ⟨hterm, hfull⟩ := Bool.or_eq_false_iff.1 (Bool.eq_false_iff.2 hroom)
      rw [decide_eq_false_iff_not, Nat.not_lt] at hfull
      have hne : q.pending ≠ [] := by
        intro h
        rw [h, length_nil] at hfull
        exact absurd hfull (Nat.not_le.2 q.limit_pos)
      obtain ⟨before, tail, hpending⟩ : ∃ before tail, q.pending = before ++ [tail] :=
        ⟨q.pending.dropLast, q.pending.getLast hne, (dropLast_append_getLast hne).symm⟩
      refine ⟨true, before ++ [coalesceQueuedUpdate tail ⟨ev, (q.wireChanged ev).1⟩],
        q.stat.squashed, ?_, Pushed.squashed (q := q) (e := ⟨ev, _⟩) hadmits hterm hfull
          before tail hpending⟩
      rw [hpending, getLast?_append, dropLast_concat]
      rfl
  · rw [if_neg hadmits]
    have hout := Bool.eq_false_iff.2 hadmits
    rw [admits, Bool.or_eq_false_iff, Bool.or_eq_false_iff, Bool.not_eq_false'] at hout
    obtain ⟨⟨hfirst, hterm⟩, hempty⟩ := hout
    refine ⟨false, q.pending, q.stat, ?_, .dropped hfirst hterm hempty⟩
    rw [wireChanged_snd, ← hfirst]

end MonitorQueue

/-! ### Runs -/

structure World where
  queue : MonitorQueue
  popped : List QueuedUpdate

inductive Action where
  | seed (initial : SourceRead)
  | push (ev : MonitorUpdate)
  | pop

namespace World

def start (limit : ℕ) (intro : FieldDesc) (mask : BitSet) : World := ⟨.new limit intro mask, []⟩

/-- The updates in the order in which they leave the queue. -/
def log (w : World) : List QueuedUpdate := w.popped ++ w.queue.pending

/-- The memory is sound: a pushed list agrees with those that are alive. -/
def Allows (w : World) : Action → Prop
  | .push ev => w.queue.Coherent ev
  | _ => True

instance (w : World) : (a : Action) → Decidable (w.Allows a)
  | .push ev => inferInstanceAs (Decidable (w.queue.Coherent ev))
  | .seed _ => inferInstanceAs (Decidable True)
  | .pop => inferInstanceAs (Decidable True)

end World

/-- One operation; `none` if it fails. -/
def step (w : World) : Action → Option World
  | .seed initial => some { w with queue := w.queue.seed initial }
  | .push ev => (w.queue.push ev).map fun bq => { w with queue := bq.2 }
  | .pop =>
      some { w with queue := w.queue.pop.2, popped := w.popped ++ w.queue.pop.1.toList }

/-! ### The stored bits along a run -/

lemma terminal_coalesce {tail e} (h : tail.update.typeChanged = true) :
    (coalesceQueuedUpdate tail e).update.typeChanged = true := by
  have hcoal : coalesceMonitorUpdate tail.update e.update = .typeChange :=
    if_pos (by rw [h, Bool.true_or])
  rw [coalesceQueuedUpdate, hcoal]
  rfl

structure Sound (limit : ℕ) (intro : FieldDesc) (mask : BitSet) (w : World) : Prop where
  resolved : w.queue.Resolved intro mask
  limit_eq : w.queue.limit = max limit 1
  /-- The stored bits of every update are those of its marks. -/
  stored : ∀ e ∈ w.queue.pending, Matches intro mask e

section

variable {limit : ℕ} {intro : FieldDesc} {mask : BitSet} {w : World}

lemma sound_start (limit : ℕ) (intro : FieldDesc) (mask : BitSet) :
    Sound limit intro mask (.start limit intro mask) where
  resolved := ⟨rfl, rfl, rfl, forall_mem_nil _⟩
  limit_eq := rfl
  stored := forall_mem_nil _

lemma Sound.stored_pushed (h : Sound limit intro mask w) {ev} (hco : w.queue.Coherent ev) {bits}
    (hbits : Matches intro mask ⟨ev, bits⟩) {queued pending} (hpushed : w.queue.Pushed ⟨ev, bits⟩ queued pending) :
    ∀ e ∈ pending, Matches intro mask e := by
  intro e he
  cases hpushed with
  | dropped => exact h.stored e he
  | appended =>
    rcases mem_append.1 he with he | he
    · exact h.stored e he
    · rw [mem_singleton.1 he]
      exact hbits
  | squashed _ _ _ before tail hpending =>
    have hmem : ∀ e' ∈ before ++ [tail], e' ∈ w.queue.pending := fun e' h => hpending ▸ h
    have htail : tail ∈ w.queue.pending := hmem tail (by simp)
    rcases mem_append.1 he with he | he
    · exact h.stored e (hmem e (mem_append_left _ he))
    · rw [mem_singleton.1 he]
      refine matches_coalesce (h.stored tail htail) hbits fun x hx y hy hxy => ?_
      have hheld : x ∈ w.queue.heldMarks :=
        mem_append_right _ (mem_filterMap.2 ⟨tail, htail, hx⟩)
      exact hco y hy x hheld hxy

/-- **Every operation can be made and keeps the stored bits those of the marks.** -/
theorem step_sound (h : Sound limit intro mask w) (a : Action) (hallows : w.Allows a) :
    ∃ t, step w a = some t ∧ Sound limit intro mask t := by
  cases a with
  | seed initial =>
    refine ⟨_, rfl, ?_⟩
    -- the marks of a seed are its own, and need no other list to agree with them
    have hco : w.queue.Coherent initial.toUpdate := by
      intro marks hmarks held _ hsame
      obtain ⟨paths, -, rfl⟩ := Option.map_eq_some_iff.1 hmarks
      cases held <;> cases hsame
    obtain ⟨hbits, hres⟩ := h.resolved.wireChanged hco
    have hframe := MonitorQueue.wireChanged_snd w.queue initial.toUpdate
    refine ⟨⟨hres.1, hres.2, hres.3, hres.4⟩, ?_, fun e he => ?_⟩
    · simp only [MonitorQueue.seed]
      rw [hframe]
      exact h.limit_eq
    · rcases mem_append.1 he with he | he
      · exact h.stored e he
      · rw [mem_singleton.1 he]
        exact hbits
  | push ev =>
    obtain ⟨hbits, hres⟩ := h.resolved.wireChanged hallows
    obtain ⟨queued, pending, stat, hpush, hpushed⟩ := w.queue.push_spec ev
    have hstep : step w (.push ev) = some { w with
        queue := { (w.queue.wireChanged ev).2 with first := false, pending, stat } } := by
      rw [step, hpush, Option.map_some]
    refine ⟨_, hstep, ⟨hres.1, hres.2, hres.3, hres.4⟩, ?_,
      h.stored_pushed hallows hbits hpushed⟩
    rw [MonitorQueue.wireChanged_snd]
    exact h.limit_eq
  | pop =>
    exact ⟨_, rfl, ⟨h.resolved.1, h.resolved.2, h.resolved.3, h.resolved.4⟩, h.limit_eq,
      fun e he => h.stored e (mem_of_mem_tail he)⟩

end

/-! ### The order of the updates -/

/-- What an operation does to the updates in the order in which they leave: nothing, one more at the
end, or a merge into the last one, which stays a terminal if it was one. -/
inductive Grew : List QueuedUpdate → List QueuedUpdate → Prop
  | same (xs : List QueuedUpdate) : Grew xs xs
  | append (xs : List QueuedUpdate) (e : QueuedUpdate) : Grew xs (xs ++ [e])
  | squash (xs : List QueuedUpdate) (tail e : QueuedUpdate) :
      Grew (xs ++ [tail]) (xs ++ [coalesceQueuedUpdate tail e])

lemma Grew.prepend {xs ys} (h : Grew xs ys) (pre : List QueuedUpdate) :
    Grew (pre ++ xs) (pre ++ ys) := by
  cases h with
  | same => exact .same _
  | append xs e =>
    rw [← append_assoc]
    exact .append _ e
  | squash xs tail e =>
    rw [← append_assoc, ← append_assoc]
    exact .squash _ tail e

lemma Grew.terminal {xs ys before after t} (h : Grew xs ys) (hxs : xs = before ++ t :: after)
    (hterm : t.update.typeChanged = true) :
    ∃ t' after', ys = before ++ t' :: after' ∧ t'.update.typeChanged = true := by
  cases h with
  | same => exact ⟨t, after, hxs, hterm⟩
  | append xs e =>
    refine ⟨t, after ++ [e], ?_, hterm⟩
    rw [hxs, append_assoc, cons_append]
  | squash zs tail e =>
    rcases eq_nil_or_concat after with rfl | ⟨mid, last, rfl⟩
    · obtain ⟨rfl, hlast⟩ := append_inj' hxs rfl
      obtain rfl : tail = t := singleton_inj.1 hlast
      exact ⟨_, [], rfl, terminal_coalesce hterm⟩
    · rw [concat_eq_append, ← cons_append, ← append_assoc] at hxs
      obtain ⟨rfl, -⟩ := append_inj' hxs rfl
      refine ⟨t, mid ++ [coalesceQueuedUpdate tail e], ?_, hterm⟩
      rw [append_assoc, cons_append]

lemma MonitorQueue.Pushed.grew {q : MonitorQueue} {e queued pending} (h : q.Pushed e queued pending) : Grew q.pending pending := by
  cases h with
  | dropped => exact .same _
  | appended => exact .append _ e
  | squashed _ _ _ before tail hpending =>
    rw [hpending]
    exact .squash before tail e

theorem step_log {w t : World} {a} (h : step w a = some t) :
    Grew w.log t.log := by
  cases a with
  | seed initial =>
    obtain rfl := Option.some.inj h
    exact (Grew.append w.queue.pending _).prepend w.popped
  | push ev =>
    obtain ⟨queued, pending, stat, hpush, hpushed⟩ := w.queue.push_spec ev
    rw [step, hpush, Option.map_some] at h
    obtain rfl := Option.some.inj h
    exact hpushed.grew.prepend w.popped
  | pop =>
    obtain rfl := Option.some.inj h
    have hlog : (w.popped ++ w.queue.pop.1.toList) ++ w.queue.pop.2.pending = w.log := by
      rw [World.log, append_assoc, MonitorQueue.pop]
      cases w.queue.pending <;> rfl
    change Grew w.log ((w.popped ++ w.queue.pop.1.toList) ++ w.queue.pop.2.pending)
    rw [hlog]
    exact .same _

lemma step_push_terminal {w t ev} (hterm : ev.typeChanged = true) (h : step w (.push ev) = some t) :
    ∃ e : QueuedUpdate, t.log = w.log ++ [e] ∧ e.update.typeChanged = true := by
  obtain ⟨queued, pending, stat, hpush, hpushed⟩ := w.queue.push_spec ev
  rw [step, hpush, Option.map_some] at h
  obtain rfl := Option.some.inj h
  cases hpushed with
  | dropped _ hvalue => exact absurd (hvalue.symm.trans hterm) Bool.false_ne_true
  | appended => exact ⟨_, (append_assoc _ _ _).symm, hterm⟩
  | squashed _ hvalue => exact absurd (hvalue.symm.trans hterm) Bool.false_ne_true

/-- **No terminal is dropped, and none overtakes an update**: what was queued before it stays before
it, and it stays right behind. -/
theorem run_terminal {as w t ev} (hterm : ev.typeChanged = true)
    (hrun : run step (.push ev :: as) w = some t) :
    ∃ e after, t.log = w.log ++ e :: after ∧ e.update.typeChanged = true := by
  obtain ⟨u, hu, hrun⟩ := Option.bind_eq_some_iff.1 hrun
  obtain ⟨e, hlog, he⟩ := step_push_terminal hterm hu
  refine run_invariant (I := fun s : World => ∃ (e : QueuedUpdate) (after : List QueuedUpdate),
    s.log = w.log ++ e :: after ∧ e.update.typeChanged = true) (fun s a s' hs _ hstep => ?_) as u t
    ⟨e, [], hlog, he⟩ (along_true as u) hrun
  obtain ⟨e, after, hlog, he⟩ := hs
  exact (step_log hstep).terminal hlog he

/-! ### Main result -/

/-- **The gate is the wire.**  In every state that operations lead to, the stored bits of the pending
updates are those of their marks; a push drops, appends or merges an update, and one that is neither
the first nor a terminal is queued if and only if its marks stand for some bit; none but a terminal
is appended to a full queue; and every terminal that was pushed stands right behind what was queued
before it. -/
theorem gate_equals_wire (limit : ℕ) (intro : FieldDesc) (mask : BitSet) (as : List Action)
    (hmemory : Along step World.Allows as (.start limit intro mask)) :
    ∃ w, run step as (.start limit intro mask) = some w ∧
      (∀ e ∈ w.queue.pending, Matches intro mask e) ∧
      (∀ ev, w.queue.Coherent ev → ∃ queued q bits, w.queue.push ev = some (queued, q) ∧
        w.queue.Pushed ⟨ev, bits⟩ queued q.pending ∧ Matches intro mask ⟨ev, bits⟩ ∧
        (w.queue.first = false → ev.typeChanged = false →
          (queued = true ↔ ∃ i, (readChangedBitset intro mask ev.markedPaths).get i = true)) ∧
        (ev.typeChanged = false → max limit 1 ≤ w.queue.pending.length →
          q.pending.length = w.queue.pending.length)) ∧
      (∀ as₁ ev as₂ w₁, as = as₁ ++ .push ev :: as₂ → ev.typeChanged = true →
        run step as₁ (.start limit intro mask) = some w₁ →
        ∃ e after, w.log = w₁.log ++ e :: after ∧ e.update.typeChanged = true) := by
  obtain ⟨w, hrun, hsound⟩ := run_total (fun w a (h : Sound limit intro mask w) => step_sound h a) as _
    (sound_start limit intro mask) hmemory
  refine ⟨w, hrun, hsound.stored, fun ev hco => ?_, fun as₁ ev as₂ w₁ has hterm hrun₁ => ?_⟩
  · obtain ⟨hbits, -⟩ := hsound.resolved.wireChanged hco
    obtain ⟨queued, pending, stat, hpush, hpushed⟩ := w.queue.push_spec ev
    refine ⟨queued, _, _, hpush, hpushed, hbits, fun hfirst hvalue => ?_, fun hvalue hfull => ?_⟩
    · have hgate : (w.queue.wireChanged ev).1.isEmpty = false ↔
          ∃ i, (readChangedBitset intro mask ev.markedPaths).get i = true := by
        rw [BitSet.isEmpty_eq_false_iff]
        refine exists_congr fun i => ?_
        rw [hbits i]
        simp only [hvalue, Bool.not_false, Bool.true_and]
      rw [← hgate]
      cases hpushed with
      | dropped _ _ hempty => simp [hempty]
      | appended hadmits => simpa [hfirst, hvalue] using hadmits
      | squashed hadmits => simpa [hfirst, hvalue] using hadmits
    · rw [← hsound.limit_eq] at hfull
      cases hpushed with
      | dropped => rfl
      | appended _ hroom =>
        rcases hroom with hterm | hroom
        · exact absurd (hvalue.symm.trans hterm) Bool.false_ne_true
        · omega
      | squashed _ _ _ before tail hpending => simp [hpending]
  · rw [has, run_append, hrun₁, Option.bind_some] at hrun
    exact run_terminal hterm hrun

/-- Two posts that share a list of paths, and the end of the subscription. -/
def sharedPosts : List Action :=
  [.push ⟨.null, some (.shared 7 ["alarm"]), false, []⟩,
    .push ⟨.null, some (.shared 7 ["alarm"]), false, []⟩, .push .typeChange, .pop]

theorem gate_equals_wire_shared :
    Along step World.Allows sharedPosts (.start 1 alarmDesc ⟨[0x1F]⟩) ∧
      ∃ w, run step sharedPosts (.start 1 alarmDesc ⟨[0x1F]⟩) = some w ∧
        ∀ e ∈ w.queue.pending, Matches alarmDesc ⟨[0x1F]⟩ e :=
  ⟨by decide, (gate_equals_wire 1 alarmDesc ⟨[0x1F]⟩ sharedPosts (by decide)).imp
    fun _ h => ⟨h.1, h.2.1⟩⟩

/-- A second seed is appended to a queue that is full. -/
theorem seed_past_limit :
    ∃ w, run step [.seed ⟨.null, none⟩, .seed ⟨.null, none⟩] (.start 1 alarmDesc ⟨[0x1F]⟩) = some w ∧
      w.queue.limit = 1 ∧ (w.queue.pending.filter fun e => !e.update.typeChanged).length = 2 :=
  ⟨_, rfl, rfl, rfl⟩

end ServerMonitor
