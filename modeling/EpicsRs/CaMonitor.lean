/-
**The monitor of a Channel Access client.**

The values of a subscription reach the application through a bounded channel, or through a slot for
the latest value when the channel is full or the subscription paused.  The coordinator decides under
the mutex of the slot and sends afterwards; `MonitorHandle::recv` looks into the channel first.  A
disconnect leaves an error in the slot.

Sources: `client/subscription.rs` (`CoalesceSlot`, `Consumer`) and `client/mod.rs`
(`MonitorHandle::recv`, `pause`, `resume`).  Decoding, the deadband and other errors are left out.
Posts and disconnects are numbered; no function reads the number.

Main result: `CaMonitor.Act.pipe`.
-/

import EpicsRs.LossyPipe
import EpicsRs.StepRuns

set_option autoImplicit false

namespace CaMonitor

open List Option

/-! ### The slot -/

/-- `CoalesceSlot`: the cells of `CoalesceInner`, and whether its `Notify` has a permit. -/
structure CoalesceSlot (V E : Type) where
  error : Option E
  ready : Option V
  gated : Option V
  paused : Bool
  permit : Bool

inductive ValueRoute (V : Type)
  | slotted
  | tryChannel (snapshot : V)

namespace CoalesceSlot

variable {V E : Type}

def new : CoalesceSlot V E := ⟨none, none, none, false, false⟩

def coalesceValueLocked (slot : CoalesceSlot V E) (snapshot : V) : CoalesceSlot V E :=
  if slot.paused then { slot with gated := some snapshot } else { slot with ready := some snapshot }

/-- `put_value`: nobody is woken for a value that is withheld. -/
def putValue (slot : CoalesceSlot V E) (snapshot : V) : CoalesceSlot V E :=
  { slot.coalesceValueLocked snapshot with permit := slot.permit || !slot.paused }

def routeValue (slot : CoalesceSlot V E) (snapshot : V) : CoalesceSlot V E × ValueRoute V :=
  if !slot.paused && slot.error.isNone && slot.ready.isNone then (slot, .tryChannel snapshot)
  else ({ slot.coalesceValueLocked snapshot with permit := slot.permit || !slot.paused }, .slotted)

def putError (slot : CoalesceSlot V E) (err : E) : CoalesceSlot V E :=
  { slot with error := some err, permit := true }

def takeDeliverable (slot : CoalesceSlot V E) : Option (Except E V) × CoalesceSlot V E :=
  match slot.error with
  | some err => (some (.error err), { slot with error := none })
  | none => (slot.ready.map .ok, { slot with ready := none })

variable {slot : CoalesceSlot V E}

lemma takeDeliverable_error {err} (herror : slot.error = some err) :
    slot.takeDeliverable = (some (.error err), { slot with error := none }) := by
  rw [takeDeliverable, herror]

lemma takeDeliverable_ready {snapshot} (herror : slot.error = none)
    (hready : slot.ready = some snapshot) :
    slot.takeDeliverable = (some (.ok snapshot), { slot with ready := none }) := by
  rw [takeDeliverable, herror]
  simp only [hready, map_some]

lemma takeDeliverable_none (herror : slot.error = none) (hready : slot.ready = none) :
    slot.takeDeliverable = (none, slot) := by
  obtain ⟨error, ready, gated, paused, permit⟩ := slot
  obtain rfl : error = none := herror
  obtain rfl : ready = none := hready
  rfl

def setPaused (slot : CoalesceSlot V E) (paused : Bool) : CoalesceSlot V E :=
  let resuming := slot.paused && !paused
  if resuming && slot.gated.isSome then
    { slot with paused := paused, ready := slot.gated, gated := none, permit := true }
  else { slot with paused := paused, permit := slot.permit || resuming }

def clear (slot : CoalesceSlot V E) : CoalesceSlot V E :=
  { slot with error := none, ready := none, gated := none }

/-- What is in the slot, in the order in which it may be taken. -/
def items (slot : CoalesceSlot V E) : List (Except E V) :=
  slot.error.toList.map .error ++ slot.ready.toList.map .ok ++ slot.gated.toList.map .ok

end CoalesceSlot

/-! ### Coordinator and consumer -/

variable {V : Type}

/-- A value with its number, or the error of a disconnect with its number. -/
abbrev Item (V : Type) : Type := Except ℕ (ℕ × V)

def num : Item V → ℕ
  | .error d => d
  | .ok x => x.1

/-- Where the coordinator is: after `route_value`, after a `try_send` into a full channel, or after
the `clear` of a disconnect. -/
inductive Coordinator (V : Type)
  | idle
  | routed (x : ℕ × V)
  | full (x : ℕ × V)
  | cleared (d : ℕ)

def Coordinator.hand : Coordinator V → List (Item V)
  | idle => []
  | routed x | full x => [.ok x]
  | cleared d => [.error d]

/-- Where `recv` is: not called, before `try_recv`, before `take_deliverable`, or waiting for the
channel and the slot. -/
inductive Consumer
  | idle
  | polling
  | checked
  | waiting
deriving DecidableEq

structure World (V : Type) where
  slot : CoalesceSlot (ℕ × V) ℕ
  channel : List (Item V)
  coordinator : Coordinator V
  consumer : Consumer
  events : List (Item V)
  /-- What `recv` has returned. -/
  returned : List (Item V)
  /-- The number of the first event of the pause. -/
  pausedAt : ℕ

def World.start : World V := ⟨.new, [], .idle, .idle, [], [], 0⟩

inductive Action (V : Type)
  | post (value : V)
  | trySend
  | putValue
  | disconnect
  | putError
  | recv
  | tryRecv
  | takeDeliverable
  | wakeChannel
  | wakeNotified
  | pause
  | resume

namespace World

variable (w : World V)

/-- `recv` returns. -/
def returns (x : Item V) : World V :=
  { w with returned := w.returned ++ [x], consumer := .idle }

/-- A value is posted: `route_value`. -/
def post (value : V) : World V :=
  let x := (w.events.length, value)
  let events : List (Item V) := w.events ++ [.ok x]
  match w.slot.routeValue x with
  | (slot, .slotted) => { w with slot := slot, events := events }
  | (slot, .tryChannel x) => { w with slot := slot, coordinator := .routed x, events := events }

/-- One atomic step, with a channel that holds `capacity` items. -/
def step (capacity : ℕ) : Action V → Option (World V)
  | .post value =>
      match w.coordinator with
      | .idle => some (w.post value)
      | _ => none
  | .trySend =>
      match w.coordinator with
      | .routed x =>
          if w.channel.length < capacity then
            some { w with channel := w.channel ++ [.ok x], coordinator := .idle }
          else some { w with coordinator := .full x }
      | _ => none
  | .putValue =>
      match w.coordinator with
      | .full x => some { w with slot := w.slot.putValue x, coordinator := .idle }
      | _ => none
  | .disconnect =>
      match w.coordinator with
      | .idle =>
          some { w with
            slot := w.slot.clear
            coordinator := .cleared w.events.length
            events := w.events ++ [.error w.events.length] }
      | _ => none
  | .putError =>
      match w.coordinator with
      | .cleared d => some { w with slot := w.slot.putError d, coordinator := .idle }
      | _ => none
  | .recv =>
      match w.consumer with
      | .idle => some { w with consumer := .polling }
      | _ => none
  | .tryRecv =>
      match w.consumer, w.channel with
      | .polling, x :: channel => some ({ w with channel := channel }.returns x)
      | .polling, [] => some { w with consumer := .checked }
      | _, _ => none
  | .takeDeliverable =>
      match w.consumer, w.slot.takeDeliverable with
      | .checked, (some x, slot) => some ({ w with slot := slot }.returns x)
      | .checked, (none, slot) => some { w with slot := slot, consumer := .waiting }
      | _, _ => none
  | .wakeChannel =>
      match w.consumer, w.channel with
      | .waiting, x :: channel => some ({ w with channel := channel }.returns x)
      | _, _ => none
  | .wakeNotified =>
      match w.consumer, w.slot.permit with
      | .waiting, true =>
          some { w with slot := { w.slot with permit := false }, consumer := .polling }
      | _, _ => none
  | .pause =>
      some { w with
        slot := w.slot.setPaused true
        pausedAt := if w.slot.paused then w.pausedAt else w.events.length }
  | .resume => some { w with slot := w.slot.setPaused false }

/-- The two routes as one pipe: the channel, the slot, and what the coordinator holds. -/
def pipe : LossyPipe.Pipe (Item V) :=
  ⟨w.events, w.channel ++ w.slot.items ++ w.coordinator.hand, w.returned⟩

end World

/-! ### The cases of a step -/

inductive Act (capacity : ℕ) : Action V → World V → World V → Prop
  | postChannel {w} (value : V) (hidle : w.coordinator = .idle)
      (hpaused : w.slot.paused = false) (herror : w.slot.error = none)
      (hready : w.slot.ready = none) :
      Act capacity (.post value) w
        { w with
          coordinator := .routed (w.events.length, value)
          events := w.events ++ [.ok (w.events.length, value)] }
  | postSlot {w} (value : V) (hidle : w.coordinator = .idle) :
      Act capacity (.post value) w
        { w with
          slot := w.slot.putValue (w.events.length, value)
          events := w.events ++ [.ok (w.events.length, value)] }
  | send {w} (x : ℕ × V) (hrouted : w.coordinator = .routed x) :
      Act capacity .trySend w { w with channel := w.channel ++ [.ok x], coordinator := .idle }
  | sendFull {w} (x : ℕ × V) (hrouted : w.coordinator = .routed x) :
      Act capacity .trySend w { w with coordinator := .full x }
  | putValue {w} (x : ℕ × V) (hfull : w.coordinator = .full x) :
      Act capacity .putValue w { w with slot := w.slot.putValue x, coordinator := .idle }
  | disconnect {w} (hidle : w.coordinator = .idle) :
      Act capacity .disconnect w
        { w with
          slot := w.slot.clear
          coordinator := .cleared w.events.length
          events := w.events ++ [.error w.events.length] }
  | putError {w} (d : ℕ) (hcleared : w.coordinator = .cleared d) :
      Act capacity .putError w { w with slot := w.slot.putError d, coordinator := .idle }
  | recv {w} (hidle : w.consumer = .idle) :
      Act capacity .recv w { w with consumer := .polling }
  | receive {w a} (x : Item V) (channel : List (Item V))
      (ha : a = .tryRecv ∨ a = .wakeChannel) (hchannel : w.channel = x :: channel) :
      Act capacity a w ({ w with channel := channel }.returns x)
  | checkEmpty {w} (hchannel : w.channel = []) :
      Act capacity .tryRecv w { w with consumer := .checked }
  | takeError {w} (d : ℕ) (herror : w.slot.error = some d) :
      Act capacity .takeDeliverable w
        ({ w with slot := { w.slot with error := none } }.returns (.error d))
  | takeReady {w} (x : ℕ × V) (herror : w.slot.error = none)
      (hready : w.slot.ready = some x) :
      Act capacity .takeDeliverable w
        ({ w with slot := { w.slot with ready := none } }.returns (.ok x))
  | takeNone {w} (herror : w.slot.error = none) (hready : w.slot.ready = none) :
      Act capacity .takeDeliverable w { w with consumer := .waiting }
  | wake {w} (hwaiting : w.consumer = .waiting) :
      Act capacity .wakeNotified w
        { w with slot := { w.slot with permit := false }, consumer := .polling }
  | pause {w} :
      Act capacity .pause w
        { w with
          slot := { w.slot with paused := true }
          pausedAt := if w.slot.paused then w.pausedAt else w.events.length }
  | resume {w} : Act capacity .resume w { w with slot := w.slot.setPaused false }

lemma CoalesceSlot.setPaused_true {E : Type} (slot : CoalesceSlot V E) :
    slot.setPaused true = { slot with paused := true } := by
  simp [setPaused]

variable {capacity : ℕ} {w w' : World V} {a : Action V}

lemma Act.of_post (value : V) (hidle : w.coordinator = .idle) :
    Act capacity (.post value) w (w.post value) := by
  simp only [World.post, CoalesceSlot.routeValue]
  split_ifs with hroute
  · simp only [Bool.and_eq_true, Bool.not_eq_true', isNone_iff_eq_none] at hroute
    exact .postChannel value hidle hroute.1.1 hroute.1.2 hroute.2
  · exact .postSlot value hidle

lemma Act.of_takeDeliverable (h : w.step capacity .takeDeliverable = some w') :
    Act capacity .takeDeliverable w w' := by
  rw [World.step] at h
  rcases herror : w.slot.error with _ | d
  · rcases hready : w.slot.ready with _ | x
    · rw [CoalesceSlot.takeDeliverable_none herror hready] at h
      cases hconsumer : w.consumer <;> simp only [hconsumer, reduceCtorEq] at h
      obtain rfl := some.inj h
      exact .takeNone herror hready
    · rw [CoalesceSlot.takeDeliverable_ready herror hready] at h
      cases hconsumer : w.consumer <;> simp only [hconsumer, reduceCtorEq] at h
      obtain rfl := some.inj h
      exact .takeReady x herror hready
  · rw [CoalesceSlot.takeDeliverable_error herror] at h
    cases hconsumer : w.consumer <;> simp only [hconsumer, reduceCtorEq] at h
    obtain rfl := some.inj h
    exact .takeError d herror

theorem Act.of_step (h : w.step capacity a = some w') : Act capacity a w w' := by
  cases a with
  | post value =>
    cases hcoord : w.coordinator <;> simp only [World.step, hcoord, reduceCtorEq] at h
    obtain rfl := some.inj h
    exact Act.of_post value hcoord
  | trySend =>
    cases hcoord : w.coordinator <;> simp only [World.step, hcoord, reduceCtorEq] at h
    split_ifs at h with hroom
    · obtain rfl := some.inj h
      exact .send _ hcoord
    · obtain rfl := some.inj h
      exact .sendFull _ hcoord
  | putValue =>
    cases hcoord : w.coordinator <;> simp only [World.step, hcoord, reduceCtorEq] at h
    obtain rfl := some.inj h
    exact .putValue _ hcoord
  | disconnect =>
    cases hcoord : w.coordinator <;> simp only [World.step, hcoord, reduceCtorEq] at h
    obtain rfl := some.inj h
    exact .disconnect hcoord
  | putError =>
    cases hcoord : w.coordinator <;> simp only [World.step, hcoord, reduceCtorEq] at h
    obtain rfl := some.inj h
    exact .putError _ hcoord
  | recv =>
    cases hconsumer : w.consumer <;> simp only [World.step, hconsumer, reduceCtorEq] at h
    obtain rfl := some.inj h
    exact .recv hconsumer
  | tryRecv =>
    cases hconsumer : w.consumer <;> rcases hchannel : w.channel with _ | ⟨x, channel⟩ <;>
      simp only [World.step, hconsumer, hchannel, reduceCtorEq] at h
    · obtain rfl := some.inj h
      rw [← hchannel]
      exact .checkEmpty hchannel
    · obtain rfl := some.inj h
      exact .receive x channel (Or.inl rfl) hchannel
  | takeDeliverable => exact Act.of_takeDeliverable h
  | wakeChannel =>
    cases hconsumer : w.consumer <;> rcases hchannel : w.channel with _ | ⟨x, channel⟩ <;>
      simp only [World.step, hconsumer, hchannel, reduceCtorEq] at h
    obtain rfl := some.inj h
    exact .receive x channel (Or.inr rfl) hchannel
  | wakeNotified =>
    cases hconsumer : w.consumer <;> cases hpermit : w.slot.permit <;>
      simp only [World.step, hconsumer, hpermit, reduceCtorEq] at h
    obtain rfl := some.inj h
    exact .wake hconsumer
  | pause =>
    rw [World.step, CoalesceSlot.setPaused_true] at h
    obtain rfl := some.inj h
    exact .pause
  | resume =>
    obtain rfl := some.inj h
    exact .resume

/-! ### The slot as part of the pipe -/

namespace CoalesceSlot

variable {V E : Type} {slot : CoalesceSlot V E}

lemma items_eq_nil_iff :
    slot.items = [] ↔ slot.error = none ∧ slot.ready = none ∧ slot.gated = none := by
  simp [items]

lemma items_clear (slot : CoalesceSlot V E) : slot.clear.items = [] := rfl

lemma items_putValue (hgated : slot.paused = false → slot.gated = none) (snapshot : V) :
    ∃ kept, kept.Sublist slot.items ∧ (slot.putValue snapshot).items = kept ++ [.ok snapshot] := by
  cases hpaused : slot.paused with
  | false =>
    refine ⟨slot.error.toList.map .error, ?_, ?_⟩
    · rw [items, append_assoc]
      exact sublist_append_left _ _
    · simp [items, putValue, coalesceValueLocked, hpaused, hgated hpaused]
  | true =>
    refine ⟨slot.error.toList.map .error ++ slot.ready.toList.map .ok,
      sublist_append_left _ _, ?_⟩
    simp [items, putValue, coalesceValueLocked, hpaused]

lemma items_resume (slot : CoalesceSlot V E) :
    (slot.setPaused false).items.Sublist slot.items ∧
      (slot.setPaused false).items.getLast? = slot.items.getLast? := by
  rw [setPaused]
  split_ifs with hgated
  · obtain ⟨snapshot, hsome⟩ := isSome_iff_exists.1 (Bool.and_eq_true_iff.1 hgated).2
    simp only [items, hsome]
    refine ⟨?_, ?_⟩
    · simp
    · simp [getLast?_append]
  · exact ⟨Sublist.refl _, rfl⟩

lemma gated_resume (slot : CoalesceSlot V E) (hgated : slot.paused = false → slot.gated = none) :
    (slot.setPaused false).gated = none := by
  rw [setPaused]
  split_ifs with hsome
  · rfl
  · cases hpaused : slot.paused with
    | false => exact hgated hpaused
    | true => simpa [hpaused] using hsome

end CoalesceSlot

/-- The value that is withheld belongs to a pause, and the slot is empty while the coordinator holds
something. -/
structure World.Tidy (w : World V) : Prop where
  gated : w.slot.paused = false → w.slot.gated = none
  hand : w.coordinator.hand ≠ [] → w.slot.items = []

lemma gated_putValue {E : Type} {slot : CoalesceSlot V E}
    (hgated : slot.paused = false → slot.gated = none) (snapshot : V) :
    (slot.putValue snapshot).paused = false → (slot.putValue snapshot).gated = none := by
  cases hpaused : slot.paused with
  | false => exact fun _ => by simp [CoalesceSlot.putValue, CoalesceSlot.coalesceValueLocked, hpaused,
      hgated hpaused]
  | true =>
    intro h
    simp [CoalesceSlot.putValue, CoalesceSlot.coalesceValueLocked, hpaused] at h

lemma Act.tidy (h : Act capacity a w w') (hw : w.Tidy) : w'.Tidy := by
  cases h with
  | postChannel value hidle hpaused herror hready =>
    exact ⟨hw.gated, fun _ =>
      CoalesceSlot.items_eq_nil_iff.2 ⟨herror, hready, hw.gated hpaused⟩⟩
  | postSlot value hidle =>
    exact ⟨gated_putValue hw.gated _, fun h => absurd (by rw [hidle]; rfl) h⟩
  | send x hrouted => exact ⟨hw.gated, fun h => absurd rfl h⟩
  | sendFull x hrouted => exact ⟨hw.gated, fun _ => hw.hand (by rw [hrouted]; exact cons_ne_nil _ _)⟩
  | putValue x hfull => exact ⟨gated_putValue hw.gated _, fun h => absurd rfl h⟩
  | disconnect hidle => exact ⟨fun _ => rfl, fun _ => rfl⟩
  | putError d hcleared => exact ⟨hw.gated, fun h => absurd rfl h⟩
  | recv hidle => exact ⟨hw.gated, hw.hand⟩
  | receive x channel ha hchannel => exact ⟨hw.gated, hw.hand⟩
  | checkEmpty hchannel => exact ⟨hw.gated, hw.hand⟩
  | takeError d herror =>
    refine ⟨hw.gated, fun h => ?_⟩
    have hnil := (CoalesceSlot.items_eq_nil_iff.1 (hw.hand h)).1
    cases herror.symm.trans hnil
  | takeReady x herror hready =>
    refine ⟨hw.gated, fun h => ?_⟩
    have hnil := (CoalesceSlot.items_eq_nil_iff.1 (hw.hand h)).2.1
    cases hready.symm.trans hnil
  | takeNone herror hready => exact ⟨hw.gated, hw.hand⟩
  | wake hwaiting => exact ⟨hw.gated, hw.hand⟩
  | pause => exact ⟨fun h => Bool.noConfusion h, hw.hand⟩
  | resume =>
    refine ⟨fun _ => w.slot.gated_resume hw.gated, fun h => ?_⟩
    have hsub := w.slot.items_resume.1
    rw [hw.hand h] at hsub
    exact sublist_nil.1 hsub

/-- `take_deliverable` finds nothing, or the channel is empty. -/
def World.Quiet (w : World V) (a : Action V) : Prop :=
  a = .takeDeliverable → (w.slot.error = none ∧ w.slot.ready = none) ∨ w.channel = []

/-- **A step is a step of the pipe**, in which only `take_deliverable` overtakes. -/
theorem Act.pipe (h : Act capacity a w w') (hw : w.Tidy) :
    ∃ overtaken, LossyPipe.Step overtaken w.pipe w'.pipe ∧ (w.Quiet a → overtaken = []) := by
  cases h with
  | postChannel value hidle hpaused herror hready =>
    refine ⟨[], ?_, fun _ => rfl⟩
    have hpipe := LossyPipe.Step.enter (p := w.pipe) (.ok (w.events.length, value))
      (Sublist.refl w.pipe.stock)
    simpa [World.pipe, hidle, Coordinator.hand] using hpipe
  | postSlot value hidle =>
    obtain ⟨kept, hkept, hitems⟩ :=
      CoalesceSlot.items_putValue hw.gated (w.events.length, value)
    refine ⟨[], ?_, fun _ => rfl⟩
    have hpipe := LossyPipe.Step.enter (p := w.pipe) (.ok (w.events.length, value))
      (show (w.channel ++ kept).Sublist w.pipe.stock by
        simpa [World.pipe, hidle, Coordinator.hand] using hkept)
    simpa [World.pipe, hidle, Coordinator.hand, hitems] using hpipe
  | send x hrouted =>
    have hnil := hw.hand (by rw [hrouted]; exact cons_ne_nil _ _)
    refine ⟨[], ?_, fun _ => rfl⟩
    have hpipe := LossyPipe.Step.refl w.pipe
    simpa [World.pipe, hrouted, Coordinator.hand, hnil] using hpipe
  | sendFull x hrouted =>
    refine ⟨[], ?_, fun _ => rfl⟩
    have hpipe := LossyPipe.Step.refl w.pipe
    simpa [World.pipe, hrouted, Coordinator.hand] using hpipe
  | putValue x hfull =>
    have hnil := hw.hand (by rw [hfull]; exact cons_ne_nil _ _)
    obtain ⟨kept, hkept, hitems⟩ := CoalesceSlot.items_putValue hw.gated x
    rw [hnil, sublist_nil] at hkept
    refine ⟨[], ?_, fun _ => rfl⟩
    have hpipe := LossyPipe.Step.refl w.pipe
    simpa [World.pipe, hfull, Coordinator.hand, hnil, hitems, hkept] using hpipe
  | disconnect hidle =>
    refine ⟨[], ?_, fun _ => rfl⟩
    have hpipe := LossyPipe.Step.enter (p := w.pipe) (.error w.events.length)
      (show w.channel.Sublist w.pipe.stock by
        rw [World.pipe, append_assoc]
        exact sublist_append_left _ _)
    simpa [World.pipe, Coordinator.hand, CoalesceSlot.items_clear] using hpipe
  | putError d hcleared =>
    have hnil := hw.hand (by rw [hcleared]; exact cons_ne_nil _ _)
    obtain ⟨herror, hready, hgated⟩ := CoalesceSlot.items_eq_nil_iff.1 hnil
    refine ⟨[], ?_, fun _ => rfl⟩
    have hpipe := LossyPipe.Step.refl w.pipe
    simpa [World.pipe, hcleared, Coordinator.hand, CoalesceSlot.putError, CoalesceSlot.items,
      herror, hready, hgated] using hpipe
  | recv hidle => exact ⟨[], LossyPipe.Step.refl _, fun _ => rfl⟩
  | receive x channel ha hchannel =>
    refine ⟨[], ?_, fun _ => rfl⟩
    have hpipe := LossyPipe.Step.leave (p := w.pipe) []
      (channel ++ w.slot.items ++ w.coordinator.hand) x (by simp [World.pipe, hchannel])
    simpa [World.pipe, World.returns] using hpipe
  | checkEmpty hchannel => exact ⟨[], LossyPipe.Step.refl _, fun _ => rfl⟩
  | takeError d herror =>
    refine ⟨w.channel, ?_, fun hquiet => ?_⟩
    · have hpipe := LossyPipe.Step.leave (p := w.pipe) w.channel
        (w.slot.ready.toList.map .ok ++ w.slot.gated.toList.map .ok ++ w.coordinator.hand)
        (.error d) (by simp [World.pipe, CoalesceSlot.items, herror])
      simpa [World.pipe, World.returns, CoalesceSlot.items] using hpipe
    · rcases hquiet rfl with hnone | hnil
      · cases herror.symm.trans hnone.1
      · exact hnil
  | takeReady x herror hready =>
    refine ⟨w.channel, ?_, fun hquiet => ?_⟩
    · have hpipe := LossyPipe.Step.leave (p := w.pipe) w.channel
        (w.slot.gated.toList.map .ok ++ w.coordinator.hand)
        (.ok x) (by simp [World.pipe, CoalesceSlot.items, herror, hready])
      simpa [World.pipe, World.returns, CoalesceSlot.items, herror] using hpipe
    · rcases hquiet rfl with hnone | hnil
      · cases hready.symm.trans hnone.2
      · exact hnil
  | takeNone herror hready => exact ⟨[], LossyPipe.Step.refl _, fun _ => rfl⟩
  | wake hwaiting => exact ⟨[], LossyPipe.Step.refl _, fun _ => rfl⟩
  | pause => exact ⟨[], LossyPipe.Step.refl _, fun _ => rfl⟩
  | resume =>
    obtain ⟨hsub, hlast⟩ := w.slot.items_resume
    refine ⟨[], LossyPipe.Step.condense (p := w.pipe) ?_ ?_, fun _ => rfl⟩
    · exact ((Sublist.refl _).append hsub).append (Sublist.refl _)
    · simp only [World.pipe, getLast?_append, hlast]

end CaMonitor
