/-
**The client's monitor backlog.**

`client_native/monitor_queue.rs` bounds what a client holds of a monitor: a full backlog merges the
newest update into the one at its tail.  What is not an update — the reply to INIT, the end — is
queued as it is, and not merged into.  Every call holds the lock, so a run is a sequence of whole
calls.  The backlog is a queue that merges at the tail, in the sense of `CoalescingQueue`.

Main result: `Pva.exec_steps`.
-/

import EpicsRs.CoalescingQueue
import EpicsRs.PvaFrame
import EpicsRs.PvaSquash

set_option autoImplicit false

namespace Pva

open CoalescingQueue List

/-! ### The backlog -/

/-- `BODY_AT`: the ioid and the subcommand are in front of the body. -/
def bodyAt : ℕ := 5

def isData (frame : Frame) : Bool :=
  decide (bodyAt < frame.payload.length) && decide (frame.payload[4]? = some 0x00)

def Frame.body (frame : Frame) : MonitorBody := ⟨frame.payload.drop bodyAt, frame.order⟩

/-- `Inner`, with tickets of type `τ` for the places of the frames in the order of delivery. -/
structure MonitorBacklog (τ : Type) where
  q : List (Frame × τ)
  limit : ℕ
  pipeline : Bool
  intro : Option FieldDesc
  nSquash : ℕ
  maxQueue : ℕ
  closed : Bool

namespace MonitorBacklog

variable {τ : Type}

def new (limit : ℕ) (pipeline : Bool) : MonitorBacklog τ :=
  ⟨[], max limit 1, pipeline, none, 0, 0, false⟩

def arm (b : MonitorBacklog τ) (intro : FieldDesc) : MonitorBacklog τ :=
  { b with intro := some intro }

/-- `push_back`. -/
def append (b : MonitorBacklog τ) (frame : Frame) (delivery : τ) : MonitorBacklog τ :=
  { b with q := b.q ++ [(frame, delivery)] }

/-- The frame that carries a merged body, in the place of the newer one. -/
def squashed (frame : Frame) (body : List UInt8) : Frame :=
  let payload := frame.payload.take bodyAt ++ body
  ⟨PvaHeader.application true frame.order frame.header.command (UInt32.ofNat payload.length),
    payload⟩

/-- `Inner::push`. -/
def pushInner (conv : ScalarConv) (b : MonitorBacklog τ) (frame : Frame) (delivery : τ) :
    MonitorBacklog τ :=
  if !isData frame || b.pipeline || decide (b.q.length < b.limit) then b.append frame delivery
  else
    match b.intro, b.q.getLast? with
    | some intro, some (tail, ticket) =>
        if isData tail then
          match squashMonitorBodies conv intro tail.body frame.body frame.order with
          | .ok body =>
              -- the tail keeps its own ticket, which is older
              { b with
                q := b.q.dropLast ++ [(squashed frame body, ticket)]
                nSquash := b.nSquash + 1 }
          | .error _ => b.append frame delivery
        else b.append frame delivery
    | _, _ => b.append frame delivery

def push (conv : ScalarConv) (b : MonitorBacklog τ) (frame : Frame) (delivery : τ) :
    MonitorBacklog τ :=
  if b.closed then b
  else
    let b := b.pushInner conv frame delivery
    { b with maxQueue := max b.maxQueue b.q.length }

def close (b : MonitorBacklog τ) : MonitorBacklog τ := { b with closed := true }

def abandon (b : MonitorBacklog τ) : MonitorBacklog τ := { b with closed := true, q := [] }

/-- What a look at the backlog tells the consumer. -/
inductive Received (τ : Type) where
  | frame (f : Frame) (delivery : τ)
  | ended
  | waiting

/-- One look of `MonitorBacklog::recv` at the backlog. -/
def recv (b : MonitorBacklog τ) : Received τ × MonitorBacklog τ :=
  match b.q with
  | (f, delivery) :: q => (.frame f delivery, { b with q := q })
  | [] => (if b.closed then .ended else .waiting, b)

/-- The backlog of a subscription that is under way, without a window of credits. -/
structure Armed (intro : FieldDesc) (limit : ℕ) (b : MonitorBacklog τ) : Prop where
  limit_eq : b.limit = limit
  limit_pos : 0 < limit
  pipeline_eq : b.pipeline = false
  intro_eq : b.intro = some intro
  closed_eq : b.closed = false

lemma armed_new (intro : FieldDesc) (limit : ℕ) :
    Armed intro (max limit 1) ((new limit false : MonitorBacklog τ).arm intro) :=
  ⟨rfl, by omega, rfl, rfl, rfl⟩

section

variable (conv : ScalarConv) {intro : FieldDesc} {limit : ℕ} {b : MonitorBacklog τ}

/-- **What a push does**: it puts the frame behind the others, if there is room or if there is nothing
to merge it into, or it merges it into the tail. -/
theorem push_cases (h : Armed intro limit b) (frame : Frame) (delivery : τ) :
    Armed intro limit (b.push conv frame delivery) ∧
    (((b.push conv frame delivery).q = b.q ++ [(frame, delivery)] ∧
        (isData frame = true → b.q.length < limit ∨ ∃ q tail ticket, b.q = q ++ [(tail, ticket)] ∧
          (isData tail = false ∨
            ∃ e, squashMonitorBodies conv intro tail.body frame.body frame.order = .error e))) ∨
      (isData frame = true ∧ ∃ q tail ticket body, b.q = q ++ [(tail, ticket)] ∧
        isData tail = true ∧
        squashMonitorBodies conv intro tail.body frame.body frame.order = .ok body ∧
        (b.push conv frame delivery).q = q ++ [(squashed frame body, ticket)])) := by
  obtain ⟨rfl, hpos, hpipe, hintro, hclosed⟩ := h
  have happend : ∀ b' : MonitorBacklog τ, b' = b.append frame delivery →
      Armed intro b.limit { b' with maxQueue := max b'.maxQueue b'.q.length } := by
    rintro _ rfl
    exact ⟨rfl, hpos, hpipe, hintro, hclosed⟩
  rw [push, if_neg (by simp [hclosed])]
  -- a control frame is never merged, and a data frame only into a full queue
  by_cases hroom : (!isData frame || b.pipeline || decide (b.q.length < b.limit)) = true
  · have hpush : b.pushInner conv frame delivery = b.append frame delivery := by
      rw [pushInner, if_pos hroom]
    refine ⟨happend _ hpush, Or.inl ⟨by rw [hpush]; rfl, fun hdata => Or.inl ?_⟩⟩
    simpa [hdata, hpipe] using hroom
  · have hdata : isData frame = true := by
      simp only [Bool.or_eq_true, not_or] at hroom
      simpa using hroom.1.1
    have hfull : ¬ b.q.length < b.limit := by
      simp only [Bool.or_eq_true, not_or] at hroom
      simpa using hroom.2
    rcases eq_nil_or_concat b.q with hq | ⟨q, entry, hq⟩
    · -- an empty queue is not full, since the limit is at least one
      rw [hq] at hfull
      exact absurd hpos hfull
    · rw [concat_eq_append] at hq
      obtain ⟨tail, ticket⟩ := entry
      have hlast : b.q.getLast? = some (tail, ticket) := by rw [hq, getLast?_concat]
      rw [pushInner, if_neg hroom, hintro, hlast]
      cases htail : isData tail with
      | false =>
        simp only [htail, Bool.false_eq_true, if_false]
        exact ⟨happend _ rfl, Or.inl ⟨rfl, fun _ => Or.inr ⟨q, tail, ticket, hq, Or.inl htail⟩⟩⟩
      | true =>
        simp only [htail, if_true]
        cases hsquash : squashMonitorBodies conv intro tail.body frame.body frame.order with
        | error e =>
          exact ⟨happend _ rfl,
            Or.inl ⟨rfl, fun _ => Or.inr ⟨q, tail, ticket, hq, Or.inr ⟨e, hsquash⟩⟩⟩⟩
        | ok body =>
          refine ⟨⟨rfl, hpos, hpipe, rfl, hclosed⟩,
            Or.inr ⟨hdata, q, tail, ticket, body, hq, htail, hsquash, ?_⟩⟩
          -- the merged frame takes the place of the tail and keeps its ticket
          rw [hq, dropLast_concat]

end

end MonitorBacklog

open MonitorBacklog

/-! ### Runs -/

inductive Call (τ : Type) where
  | push (frame : Frame) (delivery : τ)
  | pop

/-- A backlog, and the frames that were taken from it. -/
structure Session (τ : Type) where
  backlog : MonitorBacklog τ
  taken : List Frame

section

variable {τ : Type}

/-- One call.  A consumer that finds nothing waits for another turn. -/
def Session.call (conv : ScalarConv) (s : Session τ) : Call τ → Session τ
  | .push frame delivery => ⟨s.backlog.push conv frame delivery, s.taken⟩
  | .pop =>
      match s.backlog.recv with
      | (.frame f _, b) => ⟨b, s.taken ++ [f]⟩
      | (_, b) => ⟨b, s.taken⟩

def exec (conv : ScalarConv) (s : Session τ) (calls : List (Call τ)) : Session τ :=
  calls.foldl (Session.call conv) s

def pushed : List (Call τ) → List Frame
  | [] => []
  | .push frame _ :: calls => frame :: pushed calls
  | .pop :: calls => pushed calls

def queued (b : MonitorBacklog τ) : List Frame := b.q.map Prod.fst

def Session.state (s : Session τ) (put : List Frame) : State Frame := ⟨queued s.backlog, s.taken, put⟩

end

/-! ### What a frame stands for -/

def layer (intro : FieldDesc) (prior : PvField) (u : Update) : PvField :=
  overlay u.changed.get intro 0 false u.value prior

/-- The frame is an update that does what the updates of the other frames do, one after the other. -/
def Stands (intro : FieldDesc) (frame : Frame) (block : List Frame) : Prop :=
  ∃ u us, WellFormed intro frame.body u ∧
    List.Forall₂ (fun g v => WellFormed intro g.body v) block us ∧
    ∀ prior, layer intro prior u = us.foldl (layer intro) prior

section

variable {conv : ScalarConv} {intro : FieldDesc} {frame tail : Frame} {u : Update}
  {body : List UInt8}

lemma WellFormed.bytes_ne_nil {order} (h : WellFormed intro ⟨body, order⟩ u) :
    body ≠ [] := by
  rintro rfl
  obtain ⟨rest, hread⟩ := h.reads
  obtain ⟨i₁, i₂, hchanged, -⟩ := readParts_eq_ok.1 hread
  cases hchanged

lemma stands_self (h : WellFormed intro frame.body u) : Stands intro frame [frame] :=
  ⟨u, [u], h, .cons h .nil, fun _ => rfl⟩

lemma body_squashed (hdata : isData frame = true) (body : List UInt8) :
    (squashed frame body).body = ⟨body, frame.order⟩ := by
  simp only [isData, Bool.and_eq_true, decide_eq_true_eq] at hdata
  have hlen : (frame.payload.take bodyAt).length = bodyAt := by
    rw [length_take]
    omega
  have hdrop : (frame.payload.take bodyAt ++ body).drop bodyAt = body := by
    rw [drop_append_of_le_length (by omega), drop_of_length_le (by omega), nil_append]
  have horder : (squashed frame body).order = frame.order := HeaderFlags.byteOrder_new ..
  rw [Frame.body, horder]
  exact congrArg (MonitorBody.mk · frame.order) hdrop

lemma isData_squashed (hdata : isData frame = true) (hbody : body ≠ []) :
    isData (squashed frame body) = true := by
  simp only [isData, Bool.and_eq_true, decide_eq_true_eq] at hdata ⊢
  have hlen : (frame.payload.take bodyAt).length = bodyAt := by
    rw [length_take]
    omega
  refine ⟨?_, ?_⟩
  · have hpos := length_pos_iff.2 hbody
    change bodyAt < (frame.payload.take bodyAt ++ body).length
    rw [length_append]
    omega
  · change (frame.payload.take bodyAt ++ body)[4]? = some 0x00
    rw [getElem?_append_left (by rw [hlen]; decide), getElem?_take_of_lt (by decide)]
    exact hdata.2

/-- **A merged frame stands for what its parts stand for.** -/
theorem stands_squashed (hbits : bitsFit intro) (hdata : isData frame = true)
    (hframe : WellFormed intro frame.body u)
    (hsquash : squashMonitorBodies conv intro tail.body frame.body frame.order = .ok body)
    (block : List Frame) (htail : Stands intro tail block) :
    Stands intro (squashed frame body) (block ++ [frame]) := by
  obtain ⟨a, us, ha, hus, hfold⟩ := htail
  obtain ⟨body', v, hsquash', hv, his⟩ := squash_wellFormed conv hbits ha hframe frame.order
  obtain rfl : body = body' := Except.ok.inj (hsquash.symm.trans hsquash')
  refine ⟨v, us ++ [u], ?_, ?_, fun prior => ?_⟩
  · rw [body_squashed hdata]
    exact hv
  · exact rel_append hus (.cons hframe .nil)
  · rw [foldl_append, ← hfold]
    exact his.overlay_eq prior

end

/-! ### The backlog as a queue that merges at the tail -/

/-- The calls push updates that are well formed, and whatever else. -/
def WellFormedCalls {τ : Type} (intro : FieldDesc) (calls : List (Call τ)) : Prop :=
  ∀ frame ∈ pushed calls, isData frame = true → ∃ u, WellFormed intro frame.body u

section

variable {τ : Type} (conv : ScalarConv) {intro : FieldDesc} {limit : ℕ} {s : Session τ}
  {put : List Frame}

abbrev Reaches (intro : FieldDesc) (limit : ℕ) (t : State Frame) : Prop :=
  Relation.ReflTransGen (Step isData (Stands intro) limit) State.start t

lemma push_step (hbits : bitsFit intro) (harmed : Armed intro limit s.backlog)
    (hs : Reaches intro limit (s.state put)) {frame}
    (hframe : isData frame = true → ∃ u, WellFormed intro frame.body u) (delivery : τ) :
    Step isData (Stands intro) limit (s.state put)
    ((s.call conv (.push frame delivery)).state (put ++ [frame])) := by
  have htail : ∀ q tail ticket, s.backlog.q = q ++ [(tail, ticket)] → isData tail = true →
      ∃ v, WellFormed intro tail.body v := by
    intro q tail ticket hq hdata
    have hmem : tail ∈ s.taken ++ queued s.backlog := by simp [queued, hq]
    obtain ⟨block, v, us, hv, -⟩ := (Step.run_condenses hs).exists_stands tail hmem hdata
    exact ⟨v, hv⟩
  have hstate : ∀ frames, queued (s.backlog.push conv frame delivery) = frames →
      (s.call conv (.push frame delivery)).state (put ++ [frame]) =
        ⟨frames, s.taken, put ++ [frame]⟩ := by
    rintro _ rfl
    rfl
  rcases (push_cases conv harmed frame delivery).2 with ⟨hq, hroom⟩ |
    ⟨hdata, q, tail, ticket, body, hq, htaild, hsquash, hq'⟩
  · rw [hstate (queued s.backlog ++ [frame]) (by simp [queued, hq])]
    refine Step.append (fun hdata => ?_) (fun hdata => ?_)
    · obtain ⟨u, hu⟩ := hframe hdata
      exact stands_self hu
    · rcases hroom hdata with hlt | ⟨q, tail, ticket, hq, hcontrol | ⟨e, herror⟩⟩
      · exact Or.inl (by simpa [Session.state, queued] using hlt)
      · exact Or.inr ⟨tail, by simp [Session.state, queued, hq], hcontrol⟩
      · cases htaild : isData tail with
        | false => exact Or.inr ⟨tail, by simp [Session.state, queued, hq], htaild⟩
        | true =>
          -- the tail and the frame are well formed, so the merge does not fail
          obtain ⟨v, hv⟩ := htail q tail ticket hq htaild
          obtain ⟨u, hu⟩ := hframe hdata
          obtain ⟨body, -, hok, -⟩ := squash_wellFormed conv hbits hv hu frame.order
          rw [hok] at herror
          cases herror
  · obtain ⟨u, hu⟩ := hframe hdata
    obtain ⟨v, hv⟩ := htail q tail ticket hq htaild
    obtain ⟨body', w, hok, hw, -⟩ := squash_wellFormed conv hbits hv hu frame.order
    obtain rfl : body' = body := Except.ok.inj (hok.symm.trans hsquash)
    rw [hstate (q.map Prod.fst ++ [squashed frame body']) (by simp [queued, hq'])]
    refine Step.merge (t := tail) (by simp [Session.state, queued, hq]) htaild hdata
      (isData_squashed hdata hw.bytes_ne_nil) ?_
    exact stands_squashed hbits hdata hu hsquash

lemma pop_steps (hs : Reaches intro limit (s.state put)) :
    Reaches intro limit ((s.call conv .pop).state put) := by
  cases hq : s.backlog.q with
  | nil =>
    have hcall : s.call conv .pop = s := by
      simp only [Session.call, recv, hq]
      cases s.backlog.closed <;> rfl
    rw [hcall]
    exact hs
  | cons entry q =>
    refine hs.tail ?_
    have hstate : (s.call conv .pop).state put =
        ⟨q.map Prod.fst, s.taken ++ [entry.1], put⟩ := by
      simp only [Session.call, recv, hq]
      rfl
    rw [hstate]
    exact Step.take (by simp [Session.state, queued, hq])

lemma armed_call (h : Armed intro limit s.backlog) (c : Call τ) :
    Armed intro limit (s.call conv c).backlog := by
  cases c with
  | push frame delivery => exact (push_cases conv h frame delivery).1
  | pop =>
    simp only [Session.call, recv]
    cases s.backlog.q with
    | nil => cases s.backlog.closed <;> exact h
    | cons entry q => exact ⟨h.1, h.2, h.3, h.4, h.5⟩

/-- **The backlog is a queue that merges at the tail**, over any run of calls. -/
theorem exec_steps (hbits : bitsFit intro) (calls : List (Call τ)) :
    ∀ (s : Session τ) (put : List Frame), Armed intro limit s.backlog →
      Reaches intro limit (s.state put) → WellFormedCalls intro calls →
      Reaches intro limit ((exec conv s calls).state (put ++ pushed calls)) := by
  induction calls with
  | nil =>
    intro s put _ hs _
    rw [pushed, append_nil]
    exact hs
  | cons c calls ih =>
    intro s put harmed hs hcalls
    cases c with
    | push frame delivery =>
      obtain ⟨hframe, hcalls⟩ := forall_mem_cons.1 hcalls
      have hstep := hs.tail (push_step conv hbits harmed hs hframe delivery)
      have hrun := ih _ _ (armed_call conv harmed _) hstep hcalls
      rwa [append_assoc] at hrun
    | pop => exact ih _ _ (armed_call conv harmed _) (pop_steps conv hs) hcalls

end

/-! ### What a consumer sees -/

/-- Fold the updates among the frames into a value, with `apply` for what the consumer does with the
body of an update. -/
def foldData (apply : MonitorBody → PvField → Except DecodeError PvField) (frames : List Frame)
    (prior : PvField) : Except DecodeError PvField :=
  frames.foldlM (fun v frame => if isData frame then apply frame.body v else pure v) prior

/-- A consumer of either sequence of frames ends with the same value. -/
def SameFold (intro : FieldDesc) (apply : MonitorBody → PvField → Except DecodeError PvField)
    (xs ys : List Frame) : Prop :=
  ∀ prior, shaped intro prior = true →
    ∃ v, foldData apply xs prior = .ok v ∧ foldData apply ys prior = .ok v

/-- So does one that decodes in place, and, when sibling names are distinct, one that completes what
it decodes from the value before. -/
def SameValues (intro : FieldDesc) (xs ys : List Frame) : Prop :=
  SameFold intro (assignBody intro) xs ys ∧
    (distinctNames intro = true → SameFold intro (applyBody intro) xs ys)

section

variable {intro : FieldDesc} {apply : MonitorBody → PvField → Except DecodeError PvField}
  (happly : ∀ body u prior, WellFormed intro body u → shaped intro prior = true →
    apply body prior = .ok (layer intro prior u))

include happly

lemma foldData_eq {block us} (h : Forall₂ (fun g v => WellFormed intro g.body v) block us)
    (hdata : ∀ frame ∈ block, isData frame = true) :
    ∀ prior, shaped intro prior = true →
      foldData apply block prior = .ok (us.foldl (layer intro) prior) := by
  induction h with
  | nil => exact fun _ _ => rfl
  | cons hg _ ih =>
    obtain ⟨hd, hds⟩ := forall_mem_cons.1 hdata
    intro prior hprior
    rw [foldData, foldlM_cons, if_pos hd, happly _ _ _ hg hprior]
    exact ih hds _ (shaped_overlay intro _ _ _ _)

lemma sameFold_of_condenses {xs ys} (h : Condenses isData (Stands intro) xs ys)
    : SameFold intro apply xs ys := by
  have hmark : ∀ v frame, isData frame = false →
      (if isData frame then apply frame.body v else pure v) = .ok v := by
    intro v frame hframe
    rw [if_neg (by simp [hframe])]
    rfl
  have hblock : ∀ frame block, isData frame = true → (∀ g ∈ block, isData g = true) →
      Stands intro frame block → ∀ v, shaped intro v = true →
      ∃ w, shaped intro w = true ∧ (if isData frame then apply frame.body v else pure v) = .ok w ∧
        foldData apply block v = .ok w := by
    rintro frame block hframe hblock ⟨u, us, hu, hus, hfold⟩ v hv
    refine ⟨layer intro v u, shaped_overlay intro _ _ _ _, ?_, ?_⟩
    · rw [if_pos hframe, happly _ _ _ hu hv]
    · rw [hfold]
      exact foldData_eq happly hus hblock v hv
  intro prior hprior
  obtain ⟨v, -, hxs, hys⟩ := h.foldlM_eq hmark hblock prior hprior
  exact ⟨v, hxs, hys⟩

end

lemma sameValues_of_condenses {intro xs ys} (h : Condenses isData (Stands intro) xs ys)
    : SameValues intro xs ys :=
  ⟨sameFold_of_condenses (fun _ _ _ hu hprior => assignBody_eq hu hprior) h,
    fun hnames => sameFold_of_condenses (fun _ _ _ hu hprior => applyBody_eq hnames hu hprior) h⟩

/-- **The backlog neither loses nor invents anything**, over any run of pushes and pops.  The control
frames that were popped or are queued are those that were pushed; at every one that was popped,
what was popped before it and what was pushed before it give a consumer the same value, and so do
what comes behind it; and the backlog is no longer than its limit, the control frames in it, and
the updates that stand directly behind a control frame. -/
theorem backlog_faithful {τ : Type} (conv : ScalarConv) {intro : FieldDesc} (hbits : bitsFit intro)
    (limit : ℕ) {calls : List (Call τ)} (hcalls : WellFormedCalls intro calls) {s : Session τ}
    (hs : exec conv ⟨(MonitorBacklog.new limit false).arm intro, []⟩ calls = s) :
    (s.taken ++ queued s.backlog).filter (fun f => !isData f) =
        (pushed calls).filter (fun f => !isData f) ∧
      (∀ before c behind, s.taken = before ++ c :: behind → isData c = false →
        ∃ before' behind', pushed calls = before' ++ c :: behind' ∧
          before.filter (fun f => !isData f) = before'.filter (fun f => !isData f) ∧
          SameValues intro before before' ∧
          SameValues intro (behind ++ queued s.backlog) behind') ∧
      SameValues intro (s.taken ++ queued s.backlog) (pushed calls) ∧
      s.backlog.q.length ≤ max limit 1 + ((queued s.backlog).filter fun f => !isData f).length +
        behindMark isData (queued s.backlog) := by
  have hrun := exec_steps conv hbits calls ⟨(MonitorBacklog.new limit false).arm intro, []⟩ []
    (armed_new intro limit) Relation.ReflTransGen.refl hcalls
  rw [hs, nil_append] at hrun
  have hcond : Condenses isData (Stands intro) (s.taken ++ queued s.backlog) (pushed calls) :=
    Step.run_condenses hrun
  refine ⟨hcond.marks_eq, fun before c behind hsplit hc => ?_, sameValues_of_condenses hcond, ?_⟩
  · rw [hsplit, append_assoc] at hcond
    obtain ⟨before', behind', hpushed, hbefore, hbehind⟩ := hcond.split_mark hc
    exact ⟨before', behind', hpushed, hbefore.marks_eq, sameValues_of_condenses hbefore,
      sameValues_of_condenses hbehind⟩
  · have hlen := Step.run_length_le (by omega) hrun
    simpa [Session.state, queued] using hlen

def monitorFrame (subcmd : UInt8) (body : MonitorBody) : Frame :=
  ⟨PvaHeader.application true body.order 13 0, [1, 0, 0, 0, subcmd] ++ body.bytes⟩

def pairCalls : List (Call Unit) :=
  [.push (monitorFrame 0x00 olderPair) (), .push (monitorFrame 0x00 newerPair) (),
    .push (monitorFrame 0x10 ⟨[], .little⟩) (), .pop]

lemma wellFormedCalls_pair : WellFormedCalls pairDesc pairCalls := by
  refine forall_mem_cons.2 ⟨fun _ => ⟨olderPairUpdate, wellFormed_olderPair⟩, ?_⟩
  refine forall_mem_cons.2 ⟨fun _ => ⟨newerPairUpdate, wellFormed_newerPair⟩, ?_⟩
  refine forall_mem_cons.2 ⟨fun h => ?_, fun f hf => absurd hf not_mem_nil⟩
  simp [isData, monitorFrame, bodyAt] at h

/-- The second update is merged into the first, and the end of the stream stays behind them. -/
theorem backlog_faithful_pair :
    bitsFit pairDesc ∧ WellFormedCalls pairDesc pairCalls ∧ ∃ s : Session Unit,
      exec ScalarConv.never ⟨(MonitorBacklog.new 0 false).arm pairDesc, []⟩ pairCalls = s ∧
      s.taken.length = 1 ∧ (pushed pairCalls).length = 3 ∧
      SameValues pairDesc (s.taken ++ queued s.backlog) (pushed pairCalls) := by
  refine ⟨bitsFit_pairDesc, wellFormedCalls_pair, _, rfl, rfl, rfl, ?_⟩
  exact (backlog_faithful ScalarConv.never bitsFit_pairDesc 0 wellFormedCalls_pair rfl).2.2.1

end Pva
