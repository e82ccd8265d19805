/-
**The request cell of an asyn port.**

One preallocated request — C's `asynUser` — and those who race for it: whoever queues or cancels it,
the timer thread, and the actor of the port.  Every exit runs one callback, and then `done`; the
callback may queue the cell again.

Source: `asyn-rs/src/request.rs` (`RequestCell`, `CellState`, `CancelToken`, `CellQueue`,
`QueueTimer`).  What is done under the lock of the slot is atomic.  An armed timer can be taken
before the call that armed it finds the queue closed: `queue` says whether it was.  The counter of
the callbacks does not overflow here.

Main result: `AsynCell.cell_answered_once`.
-/

import EpicsRs.StepRuns

set_option autoImplicit false

namespace AsynCell

open List Option

/-! ### The token -/

/-- The states of a `CancelToken`. -/
inductive CancelToken
  | queued
  | running
  | done
  | cancelled
  | timedOut
deriving DecidableEq

namespace CancelToken

/-- The compare-and-exchange of the exits that take a request out of the queue. -/
def exchange (current new : CancelToken) (token : CancelToken) : Bool × CancelToken :=
  if token = current then (true, new) else (false, token)

def cancel : CancelToken → Bool × CancelToken := exchange queued cancelled

def timeOutIfQueued : CancelToken → Bool × CancelToken := exchange queued timedOut

def leaveIfQueued : CancelToken → Bool × CancelToken := exchange queued done

def beginRunning (token : CancelToken) : Bool × CancelToken :=
  if token = cancelled ∨ token = timedOut then (false, token) else (true, running)

def finish (token : CancelToken) : CancelToken := (exchange running done token).2

end CancelToken

/-! ### The state of a cell -/

inductive CellState
  | idle
  | queued
  | active (callbacks : ℕ)
  | activeQueued (callbacks : ℕ)
deriving DecidableEq

namespace CellState

def isQueued : CellState → Bool
  | queued | activeQueued _ => true
  | idle | active _ => false

/-- What `RequestCell::queue` makes of the state, if it is not queued. -/
def enqueue : CellState → Option CellState
  | idle => some queued
  | active callbacks => some (activeQueued callbacks)
  | queued | activeQueued _ => none

/-- `CellState::dequeue`; there is no result where the source is `unreachable!`. -/
def dequeue : CellState → Option CellState
  | queued => some (active 1)
  | activeQueued callbacks => some (active (callbacks + 1))
  | idle | active _ => none

/-- `CellState::end_callback`; there is no result where the source is `unreachable!`, or where the
count would go below zero. -/
def endCallback : CellState → Option CellState
  | active 1 => some idle
  | active (callbacks + 1) => some (active callbacks)
  | activeQueued 1 => some queued
  | activeQueued (callbacks + 1) => some (activeQueued callbacks)
  | idle | queued | active 0 | activeQueued 0 => none

def callbacks : CellState → ℕ
  | idle | queued => 0
  | active callbacks | activeQueued callbacks => callbacks

/-- The state is one that the source can be in: a cell that counts no callback is not active. -/
def Proper : CellState → Prop
  | idle | queued => True
  | active callbacks | activeQueued callbacks => 0 < callbacks

variable {state state' : CellState}

lemma enqueue_eq (h : state.enqueue = some state') :
    state.isQueued = false ∧ state'.isQueued = true ∧ state'.callbacks = state.callbacks ∧
      (state.Proper → state'.Proper) := by
  cases state <;> simp [enqueue] at h <;> subst h <;> simp [isQueued, callbacks, Proper]

/-- **A request leaves the queue**: one more callback runs. -/
theorem dequeue_eq (h : state.isQueued = true) : ∃ state', state.dequeue = some state' ∧
    state'.isQueued = false ∧ state'.callbacks = state.callbacks + 1 ∧ state'.Proper := by
  cases state with
  | idle => cases h
  | queued => exact ⟨_, rfl, rfl, rfl, Nat.one_pos⟩
  | active callbacks => cases h
  | activeQueued callbacks => exact ⟨_, rfl, rfl, rfl, Nat.succ_pos _⟩

/-- **A callback returns**: one less runs. -/
theorem endCallback_eq (h : state.Proper) (hpos : 0 < state.callbacks) :
    ∃ state', state.endCallback = some state' ∧ state'.isQueued = state.isQueued ∧
      state'.callbacks + 1 = state.callbacks ∧ state'.Proper := by
  cases state with
  | idle => cases hpos
  | queued => cases hpos
  | active callbacks =>
    rcases callbacks with _ | _ | callbacks
    · cases hpos
    · exact ⟨_, rfl, rfl, rfl, trivial⟩
    · exact ⟨_, rfl, rfl, rfl, Nat.succ_pos _⟩
  | activeQueued callbacks =>
    rcases callbacks with _ | _ | callbacks
    · cases hpos
    · exact ⟨_, rfl, rfl, rfl, trivial⟩
    · exact ⟨_, rfl, rfl, rfl, Nat.succ_pos _⟩

end CellState

/-! ### A cell and its parties -/

inductive Unrun
  | canceled
  | timedOut
  | refused
deriving DecidableEq

inductive Answer
  | process
  | unrun (why : Unrun)
deriving DecidableEq

/-- Where a callback is: its body runs, it has returned, or the state has been told. -/
inductive Stage
  | running
  | returned
  | ended
deriving DecidableEq

structure Callback where
  request : ℕ
  answer : Answer
  stage : Stage
deriving DecidableEq

/-- The answer to a request, with the entry or the timer that it came from. -/
structure Answered where
  request : ℕ
  answer : Answer
  entry : Option ℕ
deriving DecidableEq

/-- A cell, what is held for it, and the history. -/
structure World where
  seq : ℕ
  state : CellState
  token : CancelToken
  cells : List ℕ
  closed : Bool
  /-- The entries that the actor has taken off the queue. -/
  held : List ℕ
  /-- The entries that `close` has taken off the queue, and refuses next. -/
  refusing : List ℕ
  /-- The timer of the cell, if it is armed. -/
  armed : Option ℕ
  /-- The timers that the timer thread has taken, and expires next. -/
  due : List ℕ
  /-- The counter behind `next_seq`. -/
  nextSeq : ℕ
  callbacks : List Callback
  /-- The requests for which `queue` returned `Ok`. -/
  accepted : List ℕ
  answers : List Answered
  /-- The requests for which `done` was called. -/
  dones : List ℕ
  /-- A branch was taken that is `unreachable!` in the source. -/
  crashed : Bool
deriving DecidableEq

/-- `CellQueue::new_cell`, when the counter is at `nextSeq`. -/
def World.start (nextSeq : ℕ) : World :=
  ⟨0, .idle, .queued, [], false, [], [], none, [], nextSeq, [], [], [], [], false⟩

inductive Action
  | queue (timeout fired : Bool)
  | cancel
  | takeSeq
  | pop
  | claim (seq : ℕ)
  | drop (seq : ℕ)
  | leave (seq : ℕ) (timeout : Bool)
  | close
  | refuse (seq : ℕ)
  | takeDue
  | expire (seq : ℕ)
  | finishBody (n : ℕ)
  | endCallback (n : ℕ)
  | done (n : ℕ)

namespace World

variable (w : World)

def left (seq : ℕ) : Bool := w.seq ≠ seq || !w.state.isQueued

def answer (entry : Option ℕ) (answer : Answer) : World :=
  match w.state.dequeue with
  | some state =>
      { w with
        state := state
        callbacks := w.callbacks ++ [⟨w.seq, answer, .running⟩]
        answers := w.answers ++ [⟨w.seq, answer, entry⟩] }
  | none => { w with crashed := true }

/-- `RequestCell::queue`, of a body that has a `timeout_user` or not, for a user that has a
`queue_timeout` or not. -/
def queue (timeoutUser timeout fired : Bool) : World :=
  match w.state.enqueue with
  | none => w
  | some state =>
      if timeout && !timeoutUser then w
      else
        let seq := w.nextSeq
        let armed := if timeout then some seq else w.armed
        let w' := { w with seq := seq, token := .queued, nextSeq := seq + 1 }
        if w.closed then
          { w' with
            token := w'.token.leaveIfQueued.2
            armed := none
            due := if timeout && fired then w.due ++ [seq] else w.due }
        else
          { w' with
            state := state
            armed := armed
            cells := w.cells ++ [seq]
            accepted := w.accepted ++ [seq] }

/-- `RequestCell::cancel`, up to the callback: the entries of the cell are taken off the queue. -/
def cancel : World :=
  if !w.state.isQueued then w
  else if !w.token.cancel.1 then { w with token := w.token.cancel.2 }
  else
    { w with token := w.token.cancel.2, armed := none, cells := [] }.answer none (.unrun .canceled)

/-- `RequestCell::claim`, with what the actor does next: an entry that is gone is dropped, and one
that has left is the actor's to report. -/
def claim (seq : ℕ) : World :=
  if w.left seq then { w with held := w.held.erase seq }
  else if w.token.beginRunning.1 then
    { w with
      token := w.token.beginRunning.2
      armed := none
      held := w.held.erase seq }.answer (some seq) .process
  else { w with token := w.token.beginRunning.2 }

/-- `RequestCell::leave`, up to the callback. -/
def leave (seq : ℕ) (timeout : Bool) : World :=
  if w.left seq then w
  else if !w.token.leaveIfQueued.1 then { w with token := w.token.leaveIfQueued.2 }
  else
    { w with token := w.token.leaveIfQueued.2, armed := none }.answer (some seq)
      (.unrun (if timeout then .timedOut else .refused))

/-- `RequestCell::expire`, up to the callback. -/
def expire (seq : ℕ) : World :=
  if w.left seq then w
  else if !w.token.timeOutIfQueued.1 then { w with token := w.token.timeOutIfQueued.2 }
  else
    { w with token := w.token.timeOutIfQueued.2, cells := [] }.answer (some seq)
      (.unrun .timedOut)

/-- The body of a callback has returned; `RequestCell::run` then tells the token. -/
def finishBody (n : ℕ) : Option World :=
  match w.callbacks[n]? with
  | some ⟨request, answer, .running⟩ =>
      some { w with
        callbacks := w.callbacks.set n ⟨request, answer, .returned⟩
        token := if answer = .process then w.token.finish else w.token }
  | _ => none

/-- The first half of `RequestCell::end_callback`. -/
def endCallback (n : ℕ) : Option World :=
  match w.callbacks[n]? with
  | some ⟨request, answer, .returned⟩ =>
      match w.state.endCallback with
      | some state =>
          some { w with state := state, callbacks := w.callbacks.set n ⟨request, answer, .ended⟩ }
      | none => some { w with crashed := true }
  | _ => none

/-- The second half of `RequestCell::end_callback`. -/
def done (n : ℕ) : Option World :=
  match w.callbacks[n]? with
  | some ⟨request, _, .ended⟩ =>
      some { w with callbacks := w.callbacks.eraseIdx n, dones := w.dones ++ [request] }
  | _ => none

def step (timeoutUser : Bool) : Action → Option World
  | .queue timeout fired => some (w.queue timeoutUser timeout fired)
  | .cancel => some w.cancel
  | .takeSeq => some { w with nextSeq := w.nextSeq + 1 }
  | .pop =>
      match w.cells with
      | seq :: cells => some { w with cells := cells, held := w.held ++ [seq] }
      | [] => none
  | .claim seq => if seq ∈ w.held then some (w.claim seq) else none
  | .drop seq =>
      if seq ∈ w.held ∧ w.left seq = true then some { w with held := w.held.erase seq } else none
  | .leave seq timeout =>
      if seq ∈ w.held then some ({ w with held := w.held.erase seq }.leave seq timeout) else none
  | .close => some { w with closed := true, cells := [], refusing := w.refusing ++ w.cells }
  | .refuse seq =>
      if seq ∈ w.refusing then some ({ w with refusing := w.refusing.erase seq }.leave seq false)
      else none
  | .takeDue =>
      match w.armed with
      | some seq => some { w with armed := none, due := w.due ++ [seq] }
      | none => none
  | .expire seq =>
      if seq ∈ w.due then some ({ w with due := w.due.erase seq }.expire seq) else none
  | .finishBody n => w.finishBody n
  | .endCallback n => w.endCallback n
  | .done n => w.done n

end World

/-! ### What holds -/

def unended (callbacks : List Callback) : ℕ := callbacks.countP fun c => decide (c.stage ≠ .ended)

namespace World

def answered (w : World) : List ℕ := w.answers.map Answered.request

def waiting (w : World) : List ℕ := if w.state.isQueued then [w.seq] else []

structure Sound (w : World) : Prop where
  sane : w.crashed = false
  proper : w.state.Proper
  token : w.state.isQueued = true → w.token = .queued
  running : w.state.callbacks = unended w.callbacks
  history : w.accepted = w.answered ++ w.waiting
  increasing : w.accepted.Pairwise (· < ·)
  fresh : ∀ seq ∈ w.accepted, seq < w.nextSeq
  entries : w.state.isQueued = true → w.seq ∈ w.cells ++ w.held ++ w.refusing
  own : ∀ x ∈ w.answers, ∀ entry, x.entry = some entry → entry = x.request
  dones : ∀ seq, w.dones.count seq + (w.callbacks.map Callback.request).count seq =
    w.answered.count seq

lemma sound_start (nextSeq : ℕ) : (World.start nextSeq).Sound where
  sane := rfl
  proper := trivial
  token := nofun
  running := rfl
  history := rfl
  increasing := Pairwise.nil
  fresh := nofun
  entries := nofun
  own := nofun
  dones := fun _ => rfl

variable {w : World}

/-- **The queued request is answered**, whatever becomes of its entries and its timer. -/
theorem Sound.answer (hw : w.Sound) (hqueued : w.state.isQueued = true) (entry : Option ℕ)
    (answer : Answer) (hentry : ∀ e, entry = some e → e = w.seq) (token : CancelToken)
    (cells held refusing due : List ℕ) (armed : Option ℕ) :
    ({ w with
        token := token, cells := cells, held := held, refusing := refusing, due := due,
        armed := armed }.answer entry answer).Sound := by
  obtain ⟨state, hstate, hleft, hcount, hproper⟩ := CellState.dequeue_eq hqueued
  simp only [World.answer, hstate]
  have hhistory := hw.history
  rw [World.waiting, if_pos hqueued] at hhistory
  refine ⟨hw.sane, hproper, fun h => absurd h (by simp [hleft]), ?_, ?_, hw.increasing, hw.fresh,
    fun h => absurd h (by simp [hleft]), ?_, fun seq => ?_⟩
  · rw [hcount, hw.running, unended, unended, countP_append]
    rfl
  · simp only [World.answered, World.waiting, hleft, map_append]
    exact hhistory.trans (append_nil _).symm
  · intro x hx e he
    rcases mem_append.1 hx with hold | hnew
    · exact hw.own x hold e he
    · obtain rfl := mem_singleton.1 hnew
      exact hentry e he
  · have hdones := hw.dones seq
    simp only [World.answered, map_append, count_append, map_singleton] at hdones ⊢
    omega

lemma ne_of_left {seq} (hleft : w.left seq = true) (hqueued : w.state.isQueued = true) :
    w.seq ≠ seq := by
  simpa [World.left, hqueued] using hleft

lemma eq_of_not_left {seq} (hleft : ¬ w.left seq = true) :
    w.seq = seq ∧ w.state.isQueued = true := by
  simpa [World.left] using hleft

lemma Sound.frame (hw : w.Sound) (cells held refusing due : List ℕ) (armed : Option ℕ)
    (closed : Bool) {nextSeq} (hseq : w.nextSeq ≤ nextSeq)
    (hentries : w.state.isQueued = true → w.seq ∈ cells ++ held ++ refusing) :
    ({ w with
        cells := cells, held := held, refusing := refusing, due := due, armed := armed,
        closed := closed, nextSeq := nextSeq } : World).Sound :=
  ⟨hw.sane, hw.proper, hw.token, hw.running, hw.history, hw.increasing,
    fun seq hs => Nat.lt_of_lt_of_le (hw.fresh seq hs) hseq, hentries, hw.own, hw.dones⟩

lemma Sound.queue (hw : w.Sound) (timeoutUser timeout fired : Bool) :
    (w.queue timeoutUser timeout fired).Sound := by
  rw [World.queue]
  rcases henqueue : w.state.enqueue with _ | state
  · exact hw
  obtain ⟨hidle, hqueued, hcount, hproper⟩ := CellState.enqueue_eq henqueue
  have hhistory : w.accepted = w.answered := by
    have hold := hw.history
    rw [World.waiting, if_neg (by simp [hidle]), append_nil] at hold
    exact hold
  simp only
  by_cases hrefused : (timeout && !timeoutUser) = true
  · rw [if_pos hrefused]
    exact hw
  rw [if_neg hrefused]
  by_cases hclosed : w.closed = true
  · rw [if_pos hclosed]
    refine ⟨hw.sane, hw.proper, fun h => absurd h (by simp [hidle]), hw.running, ?_, hw.increasing,
      fun seq hs => Nat.lt_succ_of_lt (hw.fresh seq hs), fun h => absurd h (by simp [hidle]),
      hw.own, hw.dones⟩
    simp only [World.waiting, hidle]
    exact hhistory.trans (append_nil _).symm
  · rw [if_neg hclosed]
    refine ⟨hw.sane, hproper hw.proper, fun _ => rfl, hcount.trans hw.running, ?_, ?_, ?_, ?_,
      hw.own, hw.dones⟩
    · simp only [World.waiting, hqueued, if_true]
      rw [hhistory]
      rfl
    · refine pairwise_append.2 ⟨hw.increasing, pairwise_singleton _ _, ?_⟩
      intro seq hs next hnext
      rw [mem_singleton.1 hnext]
      exact hw.fresh seq hs
    · intro seq hs
      rcases mem_append.1 hs with hold | hnew
      · exact Nat.lt_succ_of_lt (hw.fresh seq hold)
      · exact mem_singleton.1 hnew ▸ Nat.lt_succ_self _
    · exact fun _ => mem_append_left _ (mem_append_left _
        (mem_append_right _ (mem_singleton_self _)))

lemma Sound.cancel (hw : w.Sound) : w.cancel.Sound := by
  rw [World.cancel]
  by_cases hqueued : w.state.isQueued = true
  · rw [if_neg (by simp [hqueued]), hw.token hqueued]
    exact hw.answer hqueued none _ nofun _ _ _ _ _ _
  · rw [if_pos (by simp [hqueued])]
    exact hw

lemma Sound.claim (hw : w.Sound) (seq : ℕ) : (w.claim seq).Sound := by
  rw [World.claim]
  split_ifs with hleft hrun
  · refine hw.frame _ _ _ _ _ _ (Nat.le_refl _) fun hqueued => ?_
    have hentry := hw.entries hqueued
    have hne := ne_of_left hleft hqueued
    simp only [mem_append, mem_erase_of_ne hne] at hentry ⊢
    exact hentry
  · obtain ⟨hseq, hqueued⟩ := eq_of_not_left hleft
    refine hw.answer hqueued (some seq) _ ?_ _ _ _ _ _ _
    rintro e ⟨⟩
    exact hseq.symm
  · obtain ⟨hseq, hqueued⟩ := eq_of_not_left hleft
    rw [hw.token hqueued] at hrun
    exact absurd rfl hrun

lemma Sound.leave (hw : w.Sound) (seq : ℕ) (timeout : Bool) (held refusing : List ℕ)
    (hkept : w.left seq = true → w.state.isQueued = true → w.seq ∈ w.cells ++ held ++ refusing) :
    ({ w with held := held, refusing := refusing }.leave seq timeout).Sound := by
  have hsame : World.left { w with held := held, refusing := refusing } seq = w.left seq := rfl
  rw [World.leave, hsame]
  by_cases hleft : w.left seq = true
  · rw [if_pos hleft]
    exact hw.frame _ _ _ _ _ _ (Nat.le_refl _) (hkept hleft)
  · obtain ⟨hseq, hqueued⟩ := eq_of_not_left hleft
    rw [if_neg hleft]
    simp only [hw.token hqueued]
    refine hw.answer hqueued (some seq) _ ?_ _ _ _ _ _ _
    rintro e ⟨⟩
    exact hseq.symm

lemma Sound.expire (hw : w.Sound) (seq : ℕ) (due : List ℕ) :
    ({ w with due := due }.expire seq).Sound := by
  have hsame : World.left { w with due := due } seq = w.left seq := rfl
  rw [World.expire, hsame]
  by_cases hleft : w.left seq = true
  · rw [if_pos hleft]
    exact hw.frame _ _ _ _ _ _ (Nat.le_refl _) hw.entries
  · obtain ⟨hseq, hqueued⟩ := eq_of_not_left hleft
    rw [if_neg hleft]
    simp only [hw.token hqueued]
    refine hw.answer hqueued (some seq) _ ?_ _ _ _ _ _ _
    rintro e ⟨⟩
    exact hseq.symm

/-! ### Callbacks -/

variable {n : ℕ}

lemma map_request_set {callbacks : List Callback} {c} (hc : callbacks[n]? = some c)
    (stage : Stage) :
    (callbacks.set n { c with stage := stage }).map Callback.request =
      callbacks.map Callback.request := by
  obtain ⟨hn, rfl⟩ := List.getElem?_eq_some_iff.1 hc
  rw [List.map_set]
  refine ext_getElem (by simp) fun i hi hi' => ?_
  rw [getElem_set]
  split_ifs with hin
  · subst hin
    rw [getElem_map]
  · rfl

lemma unended_set {callbacks c} (hc : callbacks[n]? = some c) (stage : Stage) :
    unended (callbacks.set n { c with stage := stage }) + (if c.stage ≠ .ended then 1 else 0) =
      unended callbacks + if stage ≠ .ended then 1 else 0 := by
  induction callbacks generalizing n with
  | nil => simp at hc
  | cons first callbacks ih =>
    cases n with
    | zero =>
      obtain rfl : first = c := by simpa using hc
      simp only [unended, set_cons_zero, countP_cons, decide_eq_true_eq]
      omega
    | succ n =>
      have hrest := ih (by simpa using hc)
      simp only [unended, set_cons_succ, countP_cons] at hrest ⊢
      omega

variable {w' : World}

lemma Sound.finishBody (hw : w.Sound) (h : w.finishBody n = some w') :
    w'.Sound := by
  rw [World.finishBody] at h
  rcases hc : w.callbacks[n]? with _ | ⟨request, answer, stage⟩
  · simp [hc] at h
  cases stage with
  | returned => simp [hc] at h
  | ended => simp [hc] at h
  | running =>
    simp only [hc, some.injEq] at h
    subst h
    have hset := unended_set hc .returned
    have hmap := map_request_set hc .returned
    refine ⟨hw.sane, hw.proper, fun hqueued => ?_, ?_, hw.history, hw.increasing, hw.fresh,
      hw.entries, hw.own, fun seq => ?_⟩
    · -- The token of a cell that was queued again is not touched.
      simp only [hw.token hqueued]
      split_ifs <;> rfl
    · simp only [hw.running]
      simpa using hset.symm
    · simp only [hmap]
      exact hw.dones seq

lemma Sound.endCallback (hw : w.Sound) (h : w.endCallback n = some w') :
    w'.Sound := by
  rw [World.endCallback] at h
  rcases hc : w.callbacks[n]? with _ | ⟨request, answer, stage⟩
  · simp [hc] at h
  cases stage with
  | running => simp [hc] at h
  | ended => simp [hc] at h
  | returned =>
    have hset := unended_set hc .ended
    have hmap := map_request_set hc .ended
    have hpos : 0 < w.state.callbacks := by
      rw [hw.running]
      simp at hset
      omega
    obtain ⟨state, hstate, hsame, hcount, hproper⟩ := CellState.endCallback_eq hw.proper hpos
    simp only [hc, hstate, some.injEq] at h
    subst h
    refine ⟨hw.sane, hproper, fun hqueued => hw.token (hsame ▸ hqueued), ?_, ?_, hw.increasing,
      hw.fresh, fun hqueued => hw.entries (hsame ▸ hqueued), hw.own, fun seq => ?_⟩
    · have hrunning := hw.running
      simp at hset
      simp only
      omega
    · have hhistory := hw.history
      simp only [World.waiting, hsame] at hhistory ⊢
      exact hhistory
    · simp only [hmap]
      exact hw.dones seq

lemma Sound.done (hw : w.Sound) (h : w.done n = some w') : w'.Sound := by
  rw [World.done] at h
  rcases hc : w.callbacks[n]? with _ | ⟨request, answer, stage⟩
  · simp [hc] at h
  cases stage with
  | running => simp [hc] at h
  | returned => simp [hc] at h
  | ended =>
    simp only [hc, some.injEq] at h
    subst h
    obtain ⟨hn, hget⟩ := List.getElem?_eq_some_iff.1 hc
    have hperm := List.getElem_cons_eraseIdx_perm hn
    rw [hget] at hperm
    refine ⟨hw.sane, hw.proper, hw.token, ?_, hw.history, hw.increasing, hw.fresh, hw.entries,
      hw.own, fun seq => ?_⟩
    · have hcount := hperm.countP_eq fun c => decide (c.stage ≠ .ended)
      simp only [unended, hw.running]
      rw [← hcount, countP_cons_of_neg (by simp)]
    · have hcount := (hperm.map Callback.request).count_eq seq
      have hdones := hw.dones seq
      simp only [map_cons, count_cons, count_append, count_nil,
        World.answered] at hcount hdones ⊢
      omega

/-! ### Runs -/

theorem Sound.step (hw : w.Sound) {timeoutUser a} (h : w.step timeoutUser a = some w')
    : w'.Sound := by
  cases a with
  | queue timeout fired =>
    obtain rfl := some.inj h
    exact hw.queue timeoutUser timeout fired
  | cancel =>
    obtain rfl := some.inj h
    exact hw.cancel
  | takeSeq =>
    obtain rfl := some.inj h
    exact hw.frame _ _ _ _ _ _ (Nat.le_succ _) hw.entries
  | pop =>
    rcases hcells : w.cells with _ | ⟨seq, cells⟩
    · simp [World.step, hcells] at h
    · simp only [World.step, hcells, some.injEq] at h
      subst h
      refine hw.frame _ _ _ _ _ _ (Nat.le_refl _) fun hqueued => ?_
      have hentry := hw.entries hqueued
      rw [hcells] at hentry
      simp only [mem_append, mem_cons, not_mem_nil, or_false] at hentry ⊢
      tauto
  | claim seq =>
    rw [World.step] at h
    split_ifs at h with hmem
    obtain rfl := some.inj h
    exact hw.claim seq
  | drop seq =>
    rw [World.step] at h
    split_ifs at h with hmem
    obtain rfl := some.inj h
    refine hw.frame _ _ _ _ _ _ (Nat.le_refl _) fun hqueued => ?_
    have hentry := hw.entries hqueued
    have hne := ne_of_left hmem.2 hqueued
    simp only [mem_append, mem_erase_of_ne hne] at hentry ⊢
    exact hentry
  | leave seq timeout =>
    rw [World.step] at h
    split_ifs at h with hmem
    obtain rfl := some.inj h
    refine hw.leave seq timeout _ _ fun hleft hqueued => ?_
    have hentry := hw.entries hqueued
    have hne := ne_of_left hleft hqueued
    simp only [mem_append, mem_erase_of_ne hne] at hentry ⊢
    exact hentry
  | close =>
    obtain rfl := some.inj h
    refine hw.frame _ _ _ _ _ _ (Nat.le_refl _) fun hqueued => ?_
    have hentry := hw.entries hqueued
    simp only [mem_append, not_mem_nil, false_or] at hentry ⊢
    tauto
  | refuse seq =>
    rw [World.step] at h
    split_ifs at h with hmem
    obtain rfl := some.inj h
    refine hw.leave seq false _ _ fun hleft hqueued => ?_
    have hentry := hw.entries hqueued
    have hne := ne_of_left hleft hqueued
    simp only [mem_append, mem_erase_of_ne hne] at hentry ⊢
    exact hentry
  | takeDue =>
    rcases harmed : w.armed with _ | seq
    · simp [World.step, harmed] at h
    · simp only [World.step, harmed, some.injEq] at h
      subst h
      exact hw.frame _ _ _ _ _ _ (Nat.le_refl _) hw.entries
  | expire seq =>
    rw [World.step] at h
    split_ifs at h with hmem
    obtain rfl := some.inj h
    exact hw.expire seq _
  | finishBody n => exact hw.finishBody h
  | endCallback n => exact hw.endCallback h
  | done n => exact hw.done h

/-- No entry of the cell is left, in the queue, with the actor or on its way to be refused. -/
def Drained (w : World) : Prop := w.cells = [] ∧ w.held = [] ∧ w.refusing = []

end World

/-- One step, for a body that has a `timeout_user` or not. -/
def next (timeoutUser : Bool) (w : World) (a : Action) : Option World := w.step timeoutUser a

/-- **Every request that was accepted is answered once.**  No `unreachable!` is reached.  The requests
that were answered are those that were accepted, in order and each of them once, but for at most one
that is still queued; none is when the entries have been drained.  An entry or a timer answers only the
request that it was made for.  Every answer is followed by one `done`. -/
theorem cell_answered_once (timeoutUser : Bool) (nextSeq : ℕ) (as : List Action) (w : World)
    (hrun : StepRuns.run (next timeoutUser) as (.start nextSeq) = some w) :
    w.crashed = false ∧
    w.accepted.Nodup ∧
    (∃ waiting, w.accepted = w.answered ++ waiting ∧ waiting.length ≤ 1 ∧
      (w.Drained → waiting = [])) ∧
    (∀ x ∈ w.answers, ∀ entry, x.entry = some entry → entry = x.request) ∧
    ∀ seq, w.dones.count seq + (w.callbacks.map Callback.request).count seq =
      w.answered.count seq := by
  have hw : w.Sound := StepRuns.run_invariant (fun _ _ _ hw _ hnext => hw.step hnext) as _ _
    (World.sound_start nextSeq) (StepRuns.along_true as _) hrun
  refine ⟨hw.sane, hw.increasing.imp Nat.ne_of_lt, ⟨w.waiting, hw.history, ?_, ?_⟩, hw.own, hw.dones⟩
  · rw [World.waiting]
    split_ifs
    · exact Nat.le_refl _
    · exact Nat.zero_le _
  · rintro ⟨hcells, hheld, hrefusing⟩
    rw [World.waiting, if_neg]
    intro hqueued
    have hentry := hw.entries hqueued
    rw [hcells, hheld, hrefusing] at hentry
    exact not_mem_nil hentry

/-- A request that is taken by the actor, cancelled, queued again from its callback, and timed out; and
then the stale entry of the first. -/
def requeuedRun : List Action :=
  [.queue true false, .pop, .cancel, .queue true false, .finishBody 0, .endCallback 0, .done 0,
    .claim 5, .takeDue, .expire 6, .finishBody 0, .endCallback 0, .done 0]

def requeuedWorld : World where
  seq := 6
  state := .idle
  token := .timedOut
  cells := []
  closed := false
  held := []
  refusing := []
  armed := none
  due := []
  nextSeq := 7
  callbacks := []
  accepted := [5, 6]
  answers := [⟨5, .unrun .canceled, none⟩, ⟨6, .unrun .timedOut, some 6⟩]
  dones := [5, 6]
  crashed := false

theorem cell_answered_once_requeued :
    StepRuns.run (next true) requeuedRun (.start 5) = some requeuedWorld ∧ requeuedWorld.Drained ∧
    requeuedWorld.answered = requeuedWorld.accepted := by
  have hrun : StepRuns.run (next true) requeuedRun (.start 5) = some requeuedWorld := by decide
  refine ⟨hrun, ⟨rfl, rfl, rfl⟩, ?_⟩
  obtain ⟨-, -, ⟨waiting, haccepted, -, hnone⟩, -⟩ := cell_answered_once true 5 requeuedRun _ hrun
  rw [haccepted, hnone ⟨rfl, rfl, rfl⟩, append_nil]

end AsynCell
