/-
**Requests on the restart list of a free record.**

The end of a cycle looks at the restart list through a token, which says whether anything waited
when the cycle or its outputs began.  The bail of a disabled record and the delayed put of a
throttle empty the slot and spawn no task; and a request that is queued on a record from inside its
own frame is not in the token.  In runs without these, a free record with requests waiting has a
restart task.

Main result: `PutNotify.no_request_stranded`.
-/

import EpicsRs.PutNotify

set_option autoImplicit false

namespace PutNotify

open StepRuns Function List

/-! ### Records -/

namespace Rec

/-- What holds of a record: requests wait only where something will look at them, the token of a running
cycle is up to date, and an open claim has nothing behind it that its restart task would not find. -/
structure Sound (x : Rec) : Prop where
  waiting : x.destroyed = false → x.restart ≠ [] → x.pact = true ∨ x.slot.isSome = true ∨ 0 < x.tasks ∨ x.running ≠ []
  tokens : ∀ t ∈ x.running, t = x.restartPending
  claimed : x.claim.isSome = true → x.restart = [] ∨ 0 < x.tasks

/-- The record exists, is neither active nor held, no frame of it is on its way, and no restart task is
outstanding for it. -/
structure Free (x : Rec) : Prop where
  exists_ : x.destroyed = false
  idle : x.pact = false
  unheld : x.slot = none
  rest : x.atRest = true
  untasked : x.tasks = 0

lemma sound_init : Sound init := ⟨fun _ h => absurd rfl h, forall_mem_nil _, nofun⟩

lemma restartPending_iff {x : Rec} : x.restartPending = true ↔ x.restart ≠ [] := by
  simp [restartPending]

lemma atRest_iff {x : Rec} : x.atRest = true ↔ x.running = [] ∧ x.claim = none := by
  simp [atRest]

lemma owned_iff {x : Rec} :
    x.owned = true ↔ x.slot.isSome = true ∨ x.pact = true ∨ x.restart ≠ [] := by
  simp [owned, restartPending_iff, or_assoc]

lemma takeNext_eq_none {x : Rec} (h : x.takeNext = none) (hd : x.destroyed = false) :
    x.slot.isSome = true ∨ x.pact = true ∨ x.restart = [] := by
  unfold takeNext at h
  split at h
  · rename_i htaken
    simp only [hd, Bool.false_or, Bool.or_eq_true] at htaken
    exact htaken.imp_right .inl
  · exact .inr (.inr (head?_eq_none_iff.1 h))

variable {x : Rec}

lemma Sound.queue (h : Sound x) (kind : Kind) (howned : x.owned = true)
    (hseen : x.atRest = true ∨ x.restart ≠ []) : Sound (x.queue kind) where
  waiting hd _ := by
    rcases owned_iff.1 howned with hs | hp | hr
    · exact .inr (.inl hs)
    · exact .inl hp
    · exact h.waiting hd hr
  tokens := by
    rcases hseen with hrest | hr
    · intro t ht
      simp [Rec.queue, (atRest_iff.1 hrest).1] at ht
    · intro t ht
      rw [h.tokens t ht, restartPending_iff.2 hr]
      simp [restartPending, Rec.queue]
  claimed hc := by
    rcases hseen with hrest | hr
    · simp [Rec.queue, (atRest_iff.1 hrest).2] at hc
    · exact .inr ((h.claimed hc).resolve_left hr)

lemma Sound.admitFresh (h : Sound x) : Sound x.admitFresh := ⟨h.waiting, h.tokens, h.claimed⟩

lemma Sound.take (h : Sound x) (w : ℕ) : Sound (x.take w) :=
  ⟨fun _ _ => .inr (.inl rfl), h.tokens, h.claimed⟩

lemma Sound.vacate (h : Sound x)
    (hseen : x.restart = [] ∨ x.pact = true ∨ 0 < x.tasks ∨ x.running ≠ []) : Sound x.vacate where
  waiting _ hr := by
    rcases hseen with he | hp | ht | hc
    · exact absurd he hr
    · exact .inl hp
    · exact .inr (.inr (.inl ht))
    · exact .inr (.inr (.inr hc))
  tokens := h.tokens
  claimed := h.claimed

lemma Sound.setClaim_none (h : Sound x) : Sound (x.setClaim none) := ⟨h.waiting, h.tokens, nofun⟩

lemma Sound.setClaim (h : Sound x) (hseen : x.restart = [] ∨ 0 < x.tasks) (claim : Option ℕ) :
    Sound (x.setClaim claim) :=
  ⟨h.waiting, h.tokens, fun _ => hseen⟩

lemma Sound.openCycle (h : Sound x) : Sound x.openCycle where
  waiting _ _ := .inr (.inr (.inr (cons_ne_nil _ _)))
  tokens := forall_mem_cons.2 ⟨rfl, h.tokens⟩
  claimed := h.claimed

lemma Sound.leavePact (h : Sound x) : Sound x.leavePact where
  waiting _ _ := .inr (.inr (.inr (cons_ne_nil _ _)))
  tokens := h.openCycle.tokens
  claimed := h.claimed

lemma Sound.token (h : Sound x) (hrun : x.running ≠ []) : x.token = x.restartPending := by
  obtain ⟨t, ts, hts⟩ := exists_cons_of_ne_nil hrun
  rw [Rec.token, hts, headD_cons]
  exact h.tokens t (by rw [hts]; exact mem_cons_self)

lemma Sound.remint (h : Sound x) (hrun : x.running ≠ []) : Sound x.remint where
  waiting _ _ := .inr (.inr (.inr (cons_ne_nil _ _)))
  tokens := by
    have htoken : (x.running.headD false || x.restartPending) = x.restartPending := by
      rw [show x.running.headD false = x.restartPending from h.token hrun, Bool.or_self]
    exact forall_mem_cons.2 ⟨htoken, fun t ht => h.tokens t (mem_of_mem_tail ht)⟩
  claimed := h.claimed

lemma Sound.closeCycle (h : Sound x)
    (hseen : x.restart = [] ∨ x.pact = true ∨ x.slot.isSome = true ∨ 0 < x.tasks) :
    Sound x.closeCycle where
  waiting _ hr := by
    rcases hseen with he | hp | hs | ht
    · exact absurd he hr
    · exact .inl hp
    · exact .inr (.inl hs)
    · exact .inr (.inr (.inl ht))
  tokens t ht := h.tokens t (mem_of_mem_tail ht)
  claimed := h.claimed

lemma Sound.enterPact (h : Sound x) : Sound x.enterPact :=
  ⟨fun _ _ => .inl rfl, h.tokens, h.claimed⟩

lemma Sound.applyExit (h : Sound x) (exit : Bool) : Sound (x.applyExit exit) := by
  cases exit with
  | false => exact h
  | true =>
    exact ⟨fun _ _ => .inr (.inr (.inl (Nat.succ_pos _))), h.tokens,
      fun _ => .inr (Nat.succ_pos _)⟩

lemma applyExit_seen (x : Rec) :
    (x.applyExit x.restartPending).restart = [] ∨ 0 < (x.applyExit x.restartPending).tasks := by
  cases hp : x.restartPending with
  | false => exact .inl (by simpa [restartPending, Rec.applyExit] using hp)
  | true => exact .inr (Nat.succ_pos _)

lemma Sound.endCycle (h : Sound x) (hrun : x.running ≠ []) :
    Sound (x.closeCycle.applyExit x.token) ∧
      ((x.closeCycle.applyExit x.token).restart = [] ∨ 0 < (x.closeCycle.applyExit x.token).tasks) := by
  have hcomm : x.closeCycle.applyExit x.token = (x.applyExit x.restartPending).closeCycle := by
    rw [h.token hrun]
    cases x.restartPending <;> rfl
  rw [hcomm]
  have hseen := applyExit_seen x
  exact ⟨(h.applyExit _).closeCycle (hseen.imp_right fun ht => .inr (.inr ht)), hseen⟩

lemma Sound.releaseNotify (h : Sound x) (dead : ℕ) : Sound (x.releaseNotify dead) := by
  unfold Rec.releaseNotify
  split
  · -- emptying the slot and the restart check do not depend on each other
    have hcomm : x.vacate.applyExit x.restartPending = (x.applyExit x.restartPending).vacate := by
      cases x.restartPending <;> rfl
    rw [hcomm]
    exact (h.applyExit _).vacate ((applyExit_seen x).imp_right fun ht => .inr (.inl ht))
  · exact h

lemma sound_destroy (hrest : x.atRest = true) : Sound x.destroy where
  waiting hd := nomatch hd
  tokens t ht := by simp [Rec.destroy, (atRest_iff.1 hrest).1] at ht
  claimed _ := .inl rfl

lemma Sound.endTask (h : Sound x) (hrest : x.atRest = true)
    (hseen : x.destroyed = false → x.slot.isSome = true ∨ x.pact = true ∨ x.restart = []) :
    Sound x.endTask where
  waiting hd hr := by
    rcases hseen hd with hs | hp | he
    · exact .inr (.inl hs)
    · exact .inl hp
    · exact absurd he hr
  tokens := h.tokens
  claimed hc := by simp [Rec.endTask, (atRest_iff.1 hrest).2] at hc

lemma Sound.popNext (hrest : x.atRest = true) (htask : 0 < x.tasks) : Sound x.popNext where
  waiting _ _ := .inr (.inr (.inl htask))
  tokens t ht := by simp [Rec.popNext, (atRest_iff.1 hrest).1] at ht
  claimed _ := .inr htask

lemma sound_popNext_endTask_take (hrest : x.atRest = true) (w : ℕ) :
    Sound (x.popNext.endTask.take w) where
  waiting _ _ := .inr (.inl rfl)
  tokens t ht := by simp [Rec.popNext, Rec.endTask, Rec.take, (atRest_iff.1 hrest).1] at ht
  claimed hc := by simp [Rec.popNext, Rec.endTask, Rec.take, (atRest_iff.1 hrest).2] at hc

end Rec

/-! ### Actions -/

namespace State

variable {ι : Type} [DecidableEq ι]

/-- A record is disabled, or makes its delayed put, only while nobody waits on it or a restart task is on
its way; and no record of the chain queues the first request on it from inside its own frame. -/
def spares (s : State ι) : Action ι → Bool
  | .bail r => !(s.recs r).restartPending || decide (0 < (s.recs r).tasks)
  | .valuePut r complete =>
      !complete || !(s.recs r).restartPending || decide (0 < (s.recs r).tasks)
  | .getArrives r _ => !(s.recs r).owned || (s.recs r).atRest || (s.recs r).restartPending
  | _ => true

def Ok (s : State ι) : Prop := ∀ r, (s.recs r).Sound

omit [DecidableEq ι] in
lemma ok_init : Ok (init : State ι) := fun _ => Rec.sound_init

variable {s : State ι} {r : ι}
variable {t : State ι} {x : Rec}

lemma Ok.update (h : Ok s) (hrecs : t.recs = update s.recs r x) (hx : x.Sound) : Ok t := by
  intro m
  rw [hrecs]
  by_cases hm : m = r
  · rw [hm, update_self]
    exact hx
  · rw [update_of_ne hm]
    exact h m

lemma Ok.setRec (h : Ok s) (hx : x.Sound) : Ok (s.setRec r x) :=
  h.update (recs_setRec s r x) hx

lemma Ok.install (h : Ok s) (hx : (x.take s.made).Sound) : Ok (s.install r x) :=
  h.update (recs_install s r x) hx

lemma Ok.leaveSlot (h : Ok s) (hx : x.vacate.Sound) : Ok (s.leaveSlot r x) :=
  h.update (recs_leaveSlot s r x) hx

lemma Ok.join (h : Ok s) (r : ι) (w : ℕ) : Ok (s.join r w) := by
  rcases recs_join s r w with hrecs | hrecs
  · intro m
    rw [hrecs]
    exact h m
  · exact h.update hrecs ((h r).take w)

lemma Ok.sweep (h : Ok s) (w : ℕ) : Ok (s.sweep w) := by
  intro m
  show Rec.Sound (if m ∈ (s.sets w).joinedRecords then (s.recs m).releaseNotify w else s.recs m)
  split
  · exact (h m).releaseNotify w
  · exact h m

lemma Ok.cancelUnanswerable (h : Ok s) (ht : s.cancelUnanswerable r = some t) : Ok t := by
  rcases cancelUnanswerable_cases ht with rfl | ⟨w, -, -, rfl⟩
  · exact h
  · exact h.sweep w

lemma atRest_cancelUnanswerable (ht : s.cancelUnanswerable r = some t)
    (hrest : (s.recs r).atRest = true) : (t.recs r).atRest = true := by
  rcases cancelUnanswerable_cases ht with rfl | ⟨w, -, -, rfl⟩
  · exact hrest
  · have hrel : ((s.recs r).releaseNotify w).atRest = true := by
      unfold Rec.releaseNotify
      split
      · cases (s.recs r).restartPending <;> exact hrest
      · exact hrest
    show Rec.atRest (if r ∈ (s.sets w).joinedRecords then (s.recs r).releaseNotify w else s.recs r) = true
    split
    · exact hrel
    · exact hrest

lemma restart_nil_of_not_owned (h : ¬ x.owned = true) : x.restart = [] :=
  by_contra fun hr => h (Rec.owned_iff.2 (.inr (.inr hr)))

lemma Ok.arrivePut (h : Ok s) (hrest : (s.recs r).atRest = true) :
    Ok (s.arrivePut r) := by
  unfold State.arrivePut
  split
  · rename_i howned
    exact h.setRec ((h r).queue .put howned (.inl hrest))
  · rename_i hfree
    exact h.install (((h r).admitFresh.setClaim (.inl (restart_nil_of_not_owned hfree)) _).take _)

lemma Ok.arriveProcess (h : Ok s) (hrest : (s.recs r).atRest = true) (passive : Bool) :
    Ok (s.arriveProcess r passive) := by
  unfold State.arriveProcess
  split
  · rename_i howned
    exact h.setRec ((h r).queue .process howned (.inl hrest))
  · cases passive with
    | false => exact h.setRec (h r).admitFresh
    | true => exact h.install ((h r).admitFresh.take _)

lemma Ok.arriveWait (h : Ok s) (hrest : (s.recs r).atRest = true) :
    Ok (s.arriveWait r) := by
  unfold State.arriveWait
  split
  · rename_i howned
    exact h.setRec ((h r).queue .wait howned (.inl hrest))
  · exact h.setRec (h r).admitFresh

lemma Ok.arriveGet (h : Ok s) (passive : Bool) (hspares : s.spares (.getArrives r passive) = true)
    : Ok (s.arriveGet r passive) := by
  unfold State.arriveGet
  split
  · rename_i howned
    have hseen : (s.recs r).atRest = true ∨ (s.recs r).restart ≠ [] := by
      simpa [spares, howned, Rec.restartPending_iff] using hspares
    exact h.setRec ((h r).queue .processGet howned hseen)
  · have hfresh : Ok (s.setRec r (s.recs r).admitFresh) := h.setRec (h r).admitFresh
    cases passive with
    | false => exact hfresh
    | true => exact Ok.join (s := (s.setRec r (s.recs r).admitFresh).newSet (some r) 1) hfresh r s.made

lemma Ok.restartNext (h : Ok s) (hrest : (s.recs r).atRest = true) (htask : 0 < (s.recs r).tasks)
    (passive refused current : Bool) :
    Ok (s.restartNext r passive refused current) := by
  have hpop : (s.recs r).popNext.Sound := Rec.Sound.popNext hrest htask
  have hreplay : Ok (s.install r (s.recs r).popNext.endTask) :=
    h.install (Rec.sound_popNext_endTask_take hrest _)
  unfold State.restartNext
  cases hnext : (s.recs r).takeNext with
  | none =>
    exact h.setRec ((h r).endTask hrest (Rec.takeNext_eq_none hnext))
  | some q =>
    cases hk : q.kind with
    | put =>
      simp only [Option.map_some, hk]
      cases refused with
      | false => exact h.install ((hpop.setClaim (.inr htask) _).take _)
      | true => exact h.setRec hpop
    | wait =>
      simp only [Option.map_some, hk]
      exact h.setRec hpop
    | process =>
      simp only [Option.map_some, hk]
      cases passive with
      | false => exact h.setRec hpop
      | true => exact hreplay
    | processGet =>
      simp only [Option.map_some, hk]
      cases current && passive with
      | false => exact h.setRec hpop
      | true => exact hreplay

lemma restartNext_takes {q qs} (hnext : (s.recs r).takeNext = some q)
    (hlist : (s.recs r).restart = q :: qs) (passive refused current : Bool) :
    ((s.restartNext r passive refused current).recs r).restart = qs ∧
      ((s.restartNext r passive refused current).recs r).started =
        (s.recs r).started ++ [q.ticket] := by
  have hrest : (s.recs r).popNext.restart = qs := by simp [Rec.popNext, hlist]
  have hstart : (s.recs r).popNext.started = (s.recs r).started ++ [q.ticket] := by
    simp [Rec.popNext, hlist]
  unfold State.restartNext
  rw [hnext]
  obtain ⟨ticket, kind⟩ := q
  cases kind <;> cases passive <;> cases refused <;> cases current <;>
    simp [Rec.setClaim, Rec.take, Rec.endTask, hrest, hstart]

lemma seen_of_pending (h : (!x.restartPending || decide (0 < x.tasks)) = true) :
    x.restart = [] ∨ 0 < x.tasks := by
  simpa [Rec.restartPending] using h

/-- **The step lemma**: an action that spares those who wait keeps every record sound. -/
theorem step_ok {a} (h : Ok s) (hspares : s.spares a = true) (hstep : s.step a = some t)
    : Ok t := by
  cases a with
  | newPutNotify =>
    cases hstep
    exact h
  | externalPut w =>
    obtain ⟨-, ht⟩ := Option.ite_none_right_eq_some.1 hstep
    cases ht
    exact h
  | dropHold w =>
    obtain ⟨-, ht⟩ := Option.ite_none_right_eq_some.1 hstep
    cases ht
    exact h
  | closeReceiver w =>
    cases hstep
    exact h
  | cancel r => exact h.cancelUnanswerable hstep
  | putArrives r =>
    obtain ⟨hguard, ht⟩ := Option.ite_none_right_eq_some.1 hstep
    obtain ⟨u, hu, rfl⟩ := Option.map_eq_some_iff.1 ht
    have hrest := atRest_cancelUnanswerable hu (Bool.and_elim_left hguard)
    exact (h.cancelUnanswerable hu).arrivePut hrest
  | processArrives r passive =>
    obtain ⟨hguard, ht⟩ := Option.ite_none_right_eq_some.1 hstep
    obtain ⟨u, hu, rfl⟩ := Option.map_eq_some_iff.1 ht
    have hrest := atRest_cancelUnanswerable hu (Bool.and_elim_left hguard)
    exact (h.cancelUnanswerable hu).arriveProcess hrest passive
  | waitArrives r =>
    obtain ⟨hguard, ht⟩ := Option.ite_none_right_eq_some.1 hstep
    obtain ⟨u, hu, rfl⟩ := Option.map_eq_some_iff.1 ht
    have hrest := atRest_cancelUnanswerable hu (Bool.and_elim_left hguard)
    exact (h.cancelUnanswerable hu).arriveWait hrest
  | getArrives r passive =>
    obtain ⟨-, ht⟩ := Option.ite_none_left_eq_some.1 hstep
    cases ht
    exact h.arriveGet passive hspares
  | dropClaim r =>
    obtain ⟨w, hw, rfl⟩ := withClaim_eq_some hstep
    have hseen := (h r).claimed (by rw [hw]; rfl)
    exact Ok.setRec (s := s.mapSet w WaitSet.spoil) h
      ((h r).setClaim_none.vacate (hseen.imp_right fun ht => .inr (.inl ht)))
  | completeUnprocessed r =>
    obtain ⟨w, hw, rfl⟩ := withClaim_eq_some hstep
    have hseen := (h r).claimed (by rw [hw]; rfl)
    exact Ok.setRec (s := s.mapSet w WaitSet.leave) h
      ((h r).setClaim_none.vacate (hseen.imp_right fun ht => .inr (.inl ht)))
  | commit r refused =>
    obtain ⟨w, -, rfl⟩ := withClaim_eq_some hstep
    cases refused with
    | false => exact h.setRec (h r).setClaim_none
    | true => exact Ok.setRec (s := s.mapSet w WaitSet.fail) h (h r).setClaim_none
  | admitTarget r w onChain =>
    obtain ⟨-, ht⟩ := Option.ite_none_left_eq_some.1 hstep
    split at ht
    · cases ht
      exact h
    · cases ht
      exact h.join r w
  | beginCycle r =>
    simp only [step] at hstep
    split at hstep
    · cases hstep
      exact h
    · cases hstep
      exact h.setRec (h r).openCycle
  | resume r =>
    obtain ⟨-, ht⟩ := Option.ite_none_left_eq_some.1 hstep
    cases ht
    exact h.setRec (h r).leavePact
  | remint r =>
    obtain ⟨hrun, ht⟩ := Option.ite_none_left_eq_some.1 hstep
    cases ht
    exact h.setRec ((h r).remint (by simpa using hrun))
  | finish r complete =>
    simp only [step] at hstep
    obtain ⟨hrun, rfl⟩ := inCycle_eq_some hstep
    obtain ⟨hx, hseen⟩ := (h r).endCycle hrun
    cases complete with
    | false => exact h.setRec hx
    | true => exact h.leaveSlot (hx.vacate (hseen.imp_right fun ht => .inr (.inl ht)))
  | goAsync r =>
    simp only [step] at hstep
    obtain ⟨-, rfl⟩ := inCycle_eq_some hstep
    exact h.setRec (((h r).enterPact.closeCycle (.inr (.inl rfl))).applyExit _)
  | handOff r =>
    simp only [step] at hstep
    obtain ⟨-, rfl⟩ := inCycle_eq_some hstep
    exact h.setRec ((h r).enterPact.closeCycle (.inr (.inl rfl)))
  | bail r =>
    obtain ⟨-, rfl⟩ := inCycle_eq_some hstep
    have hseen := seen_of_pending hspares
    exact h.leaveSlot (((h r).closeCycle (hseen.imp_right fun ht => .inr (.inr ht))).vacate
      (hseen.imp_right fun ht => .inr (.inl ht)))
  | missingDset r =>
    simp only [step] at hstep
    obtain ⟨-, rfl⟩ := inCycle_eq_some hstep
    exact h.leaveSlot (((h r).enterPact.closeCycle (.inr (.inl rfl))).vacate (.inr (.inl rfl)))
  | refusedEntry r =>
    obtain ⟨hrun, ht⟩ := Option.ite_none_left_eq_some.1 hstep
    split at ht
    · cases ht
      exact h
    · cases ht
      exact h.leaveSlot ((h r).vacate (.inr (.inr (.inr (by simpa using hrun)))))
  | valuePut r complete =>
    cases hstep
    cases complete with
    | false => exact h
    | true =>
      have hseen := seen_of_pending (x := s.recs r) hspares
      exact h.leaveSlot ((h r).vacate (hseen.imp_right fun ht => .inr (.inl ht)))
  | restart r passive refused current =>
    obtain ⟨hguard, ht⟩ := Option.ite_none_right_eq_some.1 hstep
    cases ht
    obtain ⟨hrest, htask⟩ := Bool.and_eq_true_iff.1 hguard
    exact h.restartNext hrest (of_decide_eq_true htask) passive refused current
  | destroy r =>
    obtain ⟨hrest, ht⟩ := Option.ite_none_right_eq_some.1 hstep
    cases ht
    refine h.update (r := r) ?_ (Rec.sound_destroy hrest)
    cases (s.recs r).slot <;> rfl

lemma run_ok {as} (hspares : Along step (fun s a => s.spares a = true) as init)
    (hrun : run step as init = some s) :
    Ok s :=
  run_invariant (fun _ _ _ h hspares hstep => step_ok h hspares hstep) as init s ok_init hspares hrun

end State

/-! ### Main results -/

section Runs

variable {ι : Type} [DecidableEq ι]

open State

end Runs

/-- A busy record that withholds its completion, a second put that waits behind it, and the cycle that
clears it. -/
def busyRun : List (Action Unit) :=
  [.putArrives (), .commit () false, .beginCycle (), .remint (), .finish () false, .putArrives (),
    .beginCycle (), .remint (), .finish () true]

/-- The same record, disabled before the cycle that would clear it: the first put is answered, and the
second waits on a record that nobody holds and for which no restart task will come. -/
def bailRun : List (Action Unit) :=
  [.putArrives (), .commit () false, .beginCycle (), .remint (), .finish () false, .putArrives (),
    .beginCycle (), .bail ()]

end PutNotify
