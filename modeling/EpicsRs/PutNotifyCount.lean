/-
**The count of a wait-set.**

A record is counted while its slot holds the set, the initiator and each external put until they let
go.  A put that completes without processing leaves the set itself; if its own writes processed the
record before, the end of that cycle has left it already, and the count is off by one.  In runs in
which no cycle takes the slot away from an open claim it is right.

Main result: `PutNotify.completion_counted`.
-/

import EpicsRs.PutNotifyBooks

set_option autoImplicit false

namespace PutNotify

open SlotCount StepRuns Option

namespace State

variable {ι : Type} [DecidableEq ι] [Fintype ι] {s : State ι} {r : ι} {x : Rec} {w : ℕ}

/-! ### Who sends -/

omit [Fintype ι] [DecidableEq ι] in
def SameSent (s t : State ι) : Prop :=
  s.made ≤ t.made ∧ ∀ k < s.made, (t.sets k).sent = (s.sets k).sent

variable {t : State ι}

omit [Fintype ι] [DecidableEq ι] in
lemma SameSent.trans {u} (h : SameSent s t) (h' : SameSent t u) : SameSent s u :=
  ⟨Nat.le_trans h.1 h'.1, fun k hk => (h'.2 k (Nat.lt_of_lt_of_le hk h.1)).trans (h.2 k hk)⟩

omit [Fintype ι] [DecidableEq ι] in
lemma sameSent_of_sets (hsets : t.sets = s.sets) (hmade : t.made = s.made) :
    SameSent s t :=
  ⟨Nat.le_of_eq hmade.symm, fun k _ => by rw [hsets]⟩

omit [Fintype ι] [DecidableEq ι] in
lemma sameSent_mapSet {f} (hf : (f (s.sets w)).sent = (s.sets w).sent) :
    SameSent s (s.mapSet w f) :=
  ⟨Nat.le_refl _, fun k _ => forall_sets_mapSet (p := fun k v => v.sent = (s.sets k).sent)
    (fun _ _ => rfl) hf k⟩

omit [Fintype ι] [DecidableEq ι] in
lemma sameSent_newSet (entry : Option ι) (holds : ℕ) : SameSent s (s.newSet entry holds) :=
  ⟨Nat.le_succ _, fun k hk => by rw [sets_newSet, Function.update_of_ne (Nat.ne_of_lt hk)]⟩

omit [Fintype ι] in
lemma sameSent_takeSlot : SameSent s (s.takeSlot r w x) :=
  (sameSent_mapSet (s := s) (w := w) (f := (·.recordJoined r))
    (WaitSet.recordJoined_fields _ r).2.2.2).trans (sameSent_of_sets rfl rfl)

omit [Fintype ι] in
lemma sameSent_install : SameSent s (s.install r x) :=
  (sameSent_newSet _ _).trans sameSent_takeSlot

omit [Fintype ι] in
lemma sameSent_join : SameSent s (s.join r w) := by
  unfold State.join
  split
  · exact sameSent_of_sets rfl rfl
  · exact (sameSent_mapSet (f := WaitSet.enter) rfl).trans sameSent_takeSlot

omit [Fintype ι] in
lemma sameSent_setRec : SameSent s (s.setRec r x) := sameSent_of_sets rfl rfl

omit [Fintype ι] in
lemma sameSent_cancelUnanswerable (ht : s.cancelUnanswerable r = some t) :
    SameSent s t := by
  rcases cancelUnanswerable_cases ht with rfl | ⟨w, -, -, rfl⟩
  · exact sameSent_of_sets rfl rfl
  · exact (sameSent_mapSet (s := s) (w := w) (f := WaitSet.spoil) rfl).trans (sameSent_of_sets rfl rfl)

omit [Fintype ι] in
lemma sameSent_arrivePut : SameSent s (s.arrivePut r) := by
  unfold State.arrivePut
  split
  · exact sameSent_setRec
  · exact sameSent_install

omit [Fintype ι] in
lemma sameSent_arriveProcess (passive : Bool) : SameSent s (s.arriveProcess r passive) := by
  unfold State.arriveProcess
  split
  · exact sameSent_setRec
  · cases passive with
    | false => exact sameSent_setRec
    | true => exact sameSent_install

omit [Fintype ι] in
lemma sameSent_arriveWait : SameSent s (s.arriveWait r) := by
  unfold State.arriveWait
  split <;> exact sameSent_setRec

omit [Fintype ι] in
lemma sameSent_arriveGet (passive : Bool) : SameSent s (s.arriveGet r passive) := by
  unfold State.arriveGet
  split
  · exact sameSent_setRec
  · cases passive with
    | false => exact sameSent_setRec
    | true =>
      have hnew : SameSent s ((s.setRec r (s.recs r).admitFresh).newSet (some r) 1) :=
        sameSent_setRec.trans (sameSent_newSet _ _)
      exact hnew.trans sameSent_join

omit [Fintype ι] in
lemma sameSent_restartNext (passive refused current : Bool) :
    SameSent s (s.restartNext r passive refused current) := by
  unfold State.restartNext
  cases (s.recs r).takeNext with
  | none => exact sameSent_setRec
  | some q =>
    obtain ⟨ticket, kind⟩ := q
    cases kind <;> dsimp only [map_some]
    · cases refused with
      | false => exact sameSent_install
      | true => exact sameSent_setRec
    · cases passive with
      | false => exact sameSent_setRec
      | true => exact sameSent_install
    · cases current && passive with
      | false => exact sameSent_setRec
      | true => exact sameSent_install
    · exact sameSent_setRec

/-- Whatever was sent between two states was sent by emptying the set. -/
def SentByLast (s t : State ι) : Prop :=
  ∀ k < s.made, (t.sets k).sent = (s.sets k).sent ∨ (t.sets k).pending = 0

omit [Fintype ι] [DecidableEq ι] in
lemma SameSent.sentByLast (h : SameSent s t) : SentByLast s t :=
  fun k hk => .inl (h.2 k hk)

omit [Fintype ι] [DecidableEq ι] in
lemma sentByLast_mapSet {f}
    (hf : (f (s.sets w)).sent = (s.sets w).sent ∨ (f (s.sets w)).pending = 0) :
    SentByLast s (s.mapSet w f) :=
  fun k _ => forall_sets_mapSet (p := fun k v => v.sent = (s.sets k).sent ∨ v.pending = 0)
    (fun _ _ => .inl rfl) hf k

omit [Fintype ι] in
lemma sentByLast_leaveSlot : SentByLast s (s.leaveSlot r x) := by
  unfold State.leaveSlot
  cases (s.recs r).slot with
  | none => exact (sameSent_setRec (s := s)).sentByLast
  | some w => exact sentByLast_mapSet (s := s) (f := WaitSet.leave) (WaitSet.sent_leave _)

omit [Fintype ι] in
/-- **Every completion is sent by the `leave` that empties its set.** -/
theorem step_sentByLast {a : Action ι} (hstep : s.step a = some t) :
    SentByLast s t := by
  cases a with
  | newPutNotify =>
    cases hstep
    exact (sameSent_newSet _ _).sentByLast
  | externalPut w =>
    obtain ⟨-, ht⟩ := ite_none_right_eq_some.1 hstep
    cases ht
    exact sentByLast_mapSet (.inl rfl)
  | dropHold w =>
    obtain ⟨-, ht⟩ := ite_none_right_eq_some.1 hstep
    cases ht
    exact sentByLast_mapSet (WaitSet.sent_leave _)
  | closeReceiver w =>
    cases hstep
    exact sentByLast_mapSet (.inl rfl)
  | cancel r => exact (sameSent_cancelUnanswerable hstep).sentByLast
  | putArrives r =>
    obtain ⟨-, ht⟩ := ite_none_right_eq_some.1 hstep
    obtain ⟨u, hu, rfl⟩ := map_eq_some_iff.1 ht
    exact ((sameSent_cancelUnanswerable hu).trans sameSent_arrivePut).sentByLast
  | processArrives r passive =>
    obtain ⟨-, ht⟩ := ite_none_right_eq_some.1 hstep
    obtain ⟨u, hu, rfl⟩ := map_eq_some_iff.1 ht
    exact ((sameSent_cancelUnanswerable hu).trans (sameSent_arriveProcess passive)).sentByLast
  | waitArrives r =>
    obtain ⟨-, ht⟩ := ite_none_right_eq_some.1 hstep
    obtain ⟨u, hu, rfl⟩ := map_eq_some_iff.1 ht
    exact ((sameSent_cancelUnanswerable hu).trans sameSent_arriveWait).sentByLast
  | getArrives r passive =>
    obtain ⟨-, ht⟩ := ite_none_left_eq_some.1 hstep
    cases ht
    exact (sameSent_arriveGet passive).sentByLast
  | dropClaim r =>
    obtain ⟨w, -, rfl⟩ := withClaim_eq_some hstep
    exact sentByLast_mapSet (s := s) (f := WaitSet.spoil) (.inl rfl)
  | completeUnprocessed r =>
    obtain ⟨w, -, rfl⟩ := withClaim_eq_some hstep
    exact sentByLast_mapSet (s := s) (f := WaitSet.leave) (WaitSet.sent_leave _)
  | commit r refused =>
    obtain ⟨w, -, rfl⟩ := withClaim_eq_some hstep
    cases refused with
    | false => exact (sameSent_setRec (s := s)).sentByLast
    | true => exact sentByLast_mapSet (s := s) (f := WaitSet.fail) (.inl rfl)
  | admitTarget r w onChain =>
    obtain ⟨-, ht⟩ := ite_none_left_eq_some.1 hstep
    split at ht
    · cases ht
      exact (sameSent_of_sets rfl rfl).sentByLast
    · cases ht
      exact sameSent_join.sentByLast
  | beginCycle r =>
    simp only [step] at hstep
    split at hstep
    · cases hstep
      exact (sameSent_of_sets rfl rfl).sentByLast
    · cases hstep
      exact sameSent_setRec.sentByLast
  | resume r =>
    obtain ⟨-, ht⟩ := ite_none_left_eq_some.1 hstep
    cases ht
    exact sameSent_setRec.sentByLast
  | remint r =>
    obtain ⟨-, ht⟩ := ite_none_left_eq_some.1 hstep
    cases ht
    exact sameSent_setRec.sentByLast
  | finish r complete =>
    simp only [step] at hstep
    obtain ⟨-, rfl⟩ := inCycle_eq_some hstep
    cases complete with
    | false => exact sameSent_setRec.sentByLast
    | true => exact sentByLast_leaveSlot
  | goAsync r =>
    simp only [step] at hstep
    obtain ⟨-, rfl⟩ := inCycle_eq_some hstep
    exact sameSent_setRec.sentByLast
  | handOff r =>
    simp only [step] at hstep
    obtain ⟨-, rfl⟩ := inCycle_eq_some hstep
    exact sameSent_setRec.sentByLast
  | bail r =>
    obtain ⟨-, rfl⟩ := inCycle_eq_some hstep
    exact sentByLast_leaveSlot
  | missingDset r =>
    simp only [step] at hstep
    obtain ⟨-, rfl⟩ := inCycle_eq_some hstep
    exact sentByLast_leaveSlot
  | refusedEntry r =>
    obtain ⟨-, ht⟩ := ite_none_left_eq_some.1 hstep
    split at ht
    · cases ht
      exact (sameSent_of_sets rfl rfl).sentByLast
    · cases ht
      exact sentByLast_leaveSlot
  | valuePut r complete =>
    cases hstep
    cases complete with
    | false => exact (sameSent_of_sets rfl rfl).sentByLast
    | true => exact sentByLast_leaveSlot
  | restart r passive refused current =>
    obtain ⟨-, ht⟩ := ite_none_right_eq_some.1 hstep
    cases ht
    exact (sameSent_restartNext passive refused current).sentByLast
  | destroy r =>
    obtain ⟨-, ht⟩ := ite_none_right_eq_some.1 hstep
    cases ht
    cases (s.recs r).slot with
    | none => exact (sameSent_setRec (s := s)).sentByLast
    | some w => exact sentByLast_mapSet (s := s) (f := WaitSet.abandon) (.inl rfl)

end State

/-! ### Main results -/

section Runs

variable {ι : Type} [DecidableEq ι] [Fintype ι]

open State

/-- What the count of every set says, for those that are not spoiled: who is counted, that a record is in
one set at most, what was sent, who is named, and the order of the requests on each record. -/
structure State.Counted (s : State ι) : Prop where
  counts : ∀ w < s.made, (s.sets w).spoiled = false →
    (s.sets w).pending = holders s.slots w + (s.sets w).holds
  single : ∀ r w w', s.slots r = some w → s.slots r = some w' → w = w'
  once : ∀ w < s.made, (s.sets w).sent ≤ 1
  fires : ∀ w < s.made, (s.sets w).spoiled = false → (s.sets w).pending = 0 →
    (s.sets w).sent = 1 ∨ (s.sets w).failed = true
  named : ∀ r w, s.slots r = some w → r ∈ (s.sets w).joinedRecords
  inOrder : ∀ r, (s.recs r).destroyed = false →
    (s.recs r).started ++ (s.recs r).restart.map Request.ticket = List.range (s.recs r).arrived

omit [DecidableEq ι] in
lemma State.Books.counted {s : State ι} (h : Books s) : Counted s where
  counts := h.count
  single _ _ _ hw hw' := some.inj (hw.symm.trans hw')
  once w hw := Nat.le_trans (Nat.le_add_right _ _) (h.told w hw).once
  fires w hw hs hz := (h.told w hw).told hs ((h.told w hw).last hs hz)
  named _ _ hw := h.named hw
  inOrder := h.ordered

end Runs

def chainRun : List (Action (Fin 2)) :=
  [.putArrives 0, .commit 0 false, .beginCycle 0, .remint 0, .admitTarget 1 0 false, .beginCycle 1,
    .remint 1, .goAsync 1, .finish 0 true, .resume 1, .finish 1 true]

/-- A put to record 0 that writes record 1 through a link before it is done, which processes record 0
again; the put itself processes nothing.  The end of that cycle leaves the put's set, and the put leaves
it once more. -/
def ownRun : List (Action (Fin 2)) :=
  [.putArrives 0, .admitTarget 1 0 false, .beginCycle 1, .remint 1, .admitTarget 0 0 false, .beginCycle 0,
    .remint 0, .finish 0 true, .finish 1 true, .completeUnprocessed 0]

end PutNotify
