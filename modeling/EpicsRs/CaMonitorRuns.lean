/-
**What a monitor returns.**

The values that `MonitorHandle::recv` returns are in the order in which they were posted, and none of
them is from before a disconnect that was reported, as long as `take_deliverable` takes nothing while
the channel holds something: `recv` looks into the channel before it looks into the slot, and a value
that is sent in between is overtaken.  The rest holds in every run: what is posted in a pause stays
back until the resume, `recv` is woken for whatever it can return, and the newest value arrives.

Main result: `CaMonitor.monitor_in_order_iff`.
-/

import EpicsRs.CaMonitor

set_option autoImplicit false

namespace CaMonitor

open List Option CoalesceSlot World

variable {V : Type} {capacity : ℕ} {w w' : World V} {a : Action V}

/-! ### The order of what was returned -/

def valueOf : Item V → Option (ℕ × V)
  | .ok x => some x
  | .error _ => none

def values (items : List (Item V)) : List (ℕ × V) := items.filterMap valueOf

namespace World

/-- The values that were returned are values that were posted, in their order, each once. -/
def Ordered (w : World V) : Prop :=
  (values w.returned).Sublist (values w.events) ∧ (values w.returned).Nodup

/-- No value that was returned after the error of a disconnect was posted before the disconnect. -/
def NotStale (w : World V) : Prop :=
  ∀ front behind d x, w.returned = front ++ .error d :: behind → .ok x ∈ behind → d < x.1

/-- What is deliverable, or was delivered, or is on its way. -/
def released (w : World V) : List (Item V) :=
  w.returned ++ w.channel ++ w.slot.ready.toList.map .ok ++ w.coordinator.hand

structure Sound (w : World V) : Prop where
  tidy : w.Tidy
  numbered : w.events.map num = List.range w.events.length
  stock : w.pipe.stock.Sublist w.events
  left : w.returned ⊆ w.events
  newest : (∃ x ∈ w.returned, w.events.getLast? = some x) ∨
    w.pipe.stock.getLast? = w.events.getLast?
  sent : ∀ x ∈ w.channel, ∃ v, x = .ok v
  awake : w.consumer = .waiting → w.slot.error.isSome ∨ w.slot.ready.isSome → w.slot.permit = true
  withheld : w.slot.paused = true → ∀ x, .ok x ∈ w.released → x.1 < w.pausedAt

end World

/-! ### One step -/

lemma Act.numbered (h : Act capacity a w w')
    (hw : w.events.map num = range w.events.length) :
    w'.events.map num = range w'.events.length := by
  have happend (x : Item V) (hx : num x = w.events.length) :
      (w.events ++ [x]).map num = range (w.events ++ [x]).length := by
    rw [map_append, hw, length_append, length_singleton, range_succ,
      map_singleton, hx]
  cases h with
  | postChannel value hidle hpaused herror hready => exact happend _ rfl
  | postSlot value hidle => exact happend _ rfl
  | disconnect hidle => exact happend _ rfl
  | _ => exact hw

lemma Act.sent (h : Act capacity a w w') (hw : ∀ x ∈ w.channel, ∃ v, x = .ok v) :
    ∀ x ∈ w'.channel, ∃ v, x = .ok v := by
  cases h with
  | send y hrouted =>
    intro x hx
    rcases mem_append.1 hx with hold | hnew
    · exact hw x hold
    · exact ⟨y, mem_singleton.1 hnew⟩
  | receive y channel ha hchannel =>
    exact fun x hx => hw x (hchannel ▸ mem_cons_of_mem _ hx)
  | _ => exact hw

lemma paused_putValue {E : Type} (slot : CoalesceSlot V E) (snapshot : V) :
    (slot.putValue snapshot).paused = slot.paused := by
  rw [putValue, coalesceValueLocked]
  split_ifs <;> rfl

lemma permit_putValue {E : Type} (slot : CoalesceSlot V E) (snapshot : V)
    (h : slot.error.isSome ∨ slot.ready.isSome → slot.permit = true) :
    (slot.putValue snapshot).error.isSome ∨ (slot.putValue snapshot).ready.isSome →
      (slot.putValue snapshot).permit = true := by
  cases hpaused : slot.paused with
  | false => simp [putValue, hpaused]
  | true => simpa [putValue, coalesceValueLocked, hpaused] using h

lemma permit_resume {E : Type} (slot : CoalesceSlot V E)
    (h : slot.error.isSome ∨ slot.ready.isSome → slot.permit = true) :
    (slot.setPaused false).error.isSome ∨ (slot.setPaused false).ready.isSome →
      (slot.setPaused false).permit = true := by
  rw [setPaused]
  split_ifs with hgated
  · exact fun _ => rfl
  · intro hsome
    rw [h hsome, Bool.true_or]

lemma Act.awake (h : Act capacity a w w')
    (hw : w.consumer = .waiting → w.slot.error.isSome ∨ w.slot.ready.isSome →
      w.slot.permit = true) :
    w'.consumer = .waiting → w'.slot.error.isSome ∨ w'.slot.ready.isSome →
      w'.slot.permit = true := by
  cases h with
  | postSlot value hidle => exact fun hwaiting => permit_putValue _ _ (hw hwaiting)
  | putValue x hfull => exact fun hwaiting => permit_putValue _ _ (hw hwaiting)
  | disconnect hidle => simp [clear]
  | putError d hcleared => exact fun _ _ => rfl
  | takeNone herror hready => simp [herror, hready]
  | resume => exact fun hwaiting => permit_resume _ (hw hwaiting)
  | recv hidle => exact nofun
  | receive x channel ha hchannel => exact nofun
  | checkEmpty hchannel => exact nofun
  | takeError d herror => exact nofun
  | takeReady x herror hready => exact nofun
  | wake hwaiting => exact nofun
  | _ => exact hw

lemma World.mem_released {x} :
    .ok x ∈ w.released ↔ .ok x ∈ w.returned ∨ .ok x ∈ w.channel ∨ w.slot.ready = some x ∨
      .ok x ∈ w.coordinator.hand := by
  simp [released]

lemma Act.paused (h : Act capacity a w w') (ha : a ≠ .pause) (hpaused : w'.slot.paused = true) :
    w.slot.paused = true ∧ w'.pausedAt = w.pausedAt := by
  cases h with
  | postSlot value hidle => exact ⟨(paused_putValue _ _).symm.trans hpaused, rfl⟩
  | putValue y hfull => exact ⟨(paused_putValue _ _).symm.trans hpaused, rfl⟩
  | pause => exact absurd rfl ha
  | resume =>
    rw [setPaused] at hpaused
    split_ifs at hpaused
  | _ => exact ⟨hpaused, rfl⟩

lemma Act.released (h : Act capacity a w w') (ha : a ≠ .pause) (hpaused : w'.slot.paused = true) {x}
    (hx : .ok x ∈ w'.released) : .ok x ∈ w.released := by
  have hin := (h.paused ha hpaused).1
  rw [mem_released] at hx ⊢
  cases h with
  | postChannel value hidle hrunning herror hready => cases hrunning.symm.trans hin
  | postSlot value hidle =>
    simpa [CoalesceSlot.putValue, CoalesceSlot.coalesceValueLocked, hin] using hx
  | send y hrouted =>
    simp only [hrouted, Coordinator.hand, mem_append, mem_singleton] at hx ⊢
    tauto
  | sendFull y hrouted => simpa [hrouted, Coordinator.hand] using hx
  | putValue y hfull =>
    simp only [CoalesceSlot.putValue, CoalesceSlot.coalesceValueLocked, hin, if_true,
      Coordinator.hand, not_mem_nil, or_false] at hx
    tauto
  | disconnect hidle =>
    simp only [CoalesceSlot.clear, Coordinator.hand, mem_singleton, reduceCtorEq,
      or_false] at hx
    tauto
  | putError d hcleared =>
    tauto
  | receive y channel ha hchannel =>
    simp only [returns, hchannel, mem_append, mem_cons] at hx ⊢
    tauto
  | takeError d herror =>
    simpa [returns] using hx
  | takeReady y herror hready =>
    simp only [returns, hready, mem_append, mem_singleton, Except.ok.injEq,
      reduceCtorEq, some.injEq, false_or] at hx ⊢
    tauto
  | pause => exact absurd rfl ha
  | resume =>
    rw [setPaused] at hpaused
    split_ifs at hpaused
  | _ => exact hx

lemma World.Sound.pairwise (hw : w.Sound) : w.events.Pairwise fun x y => num x < num y :=
  pairwise_map.1 (hw.numbered ▸ pairwise_lt_range)

lemma World.Sound.num_lt (hw : w.Sound) {x} (hx : x ∈ w.events) :
    num x < w.events.length := by
  have hmem : num x ∈ w.events.map num := mem_map_of_mem hx
  rwa [hw.numbered, mem_range] at hmem

lemma World.Sound.released_lt (hw : w.Sound) {x} (hx : .ok x ∈ w.released) :
    x.1 < w.events.length := by
  have hstock (y : Item V) (hy : y ∈ w.pipe.stock) : y ∈ w.events := hw.stock.subset hy
  rw [mem_released] at hx
  refine hw.num_lt (x := .ok x) ?_
  rcases hx with hreturned | hchannel | hready | hhand
  · exact hw.left hreturned
  · exact hstock _ (by simp [pipe, hchannel])
  · exact hstock _ (by simp [pipe, items, hready])
  · exact hstock _ (by simp [pipe, hhand])

theorem Act.sound (h : Act capacity a w w') (hw : w.Sound) : w'.Sound := by
  obtain ⟨overtaken, hpipe, -⟩ := h.pipe hw.tidy
  refine ⟨h.tidy hw.tidy, h.numbered hw.numbered, hpipe.stock_sublist hw.stock,
    hpipe.left_subset hw.stock hw.left, hpipe.newest hw.newest, h.sent hw.sent, h.awake hw.awake,
    fun hpaused x hx => ?_⟩
  by_cases ha : a = .pause
  · subst ha
    cases h with
    | receive y channel ha hchannel => simp at ha
    | pause =>
      show x.1 < if w.slot.paused then w.pausedAt else w.events.length
      split_ifs with halready
      · exact hw.withheld halready x hx
      · exact hw.released_lt hx
  · obtain ⟨hin, hat⟩ := h.paused ha hpaused
    rw [hat]
    exact hw.withheld hin x (h.released ha hpaused hx)

lemma World.sound_start : (start : World V).Sound where
  tidy := ⟨fun _ => rfl, fun h => absurd rfl h⟩
  numbered := rfl
  stock := Sublist.refl _
  left := Subset.refl _
  newest := Or.inr rfl
  sent := nofun
  awake := nofun
  withheld := nofun

/-! ### Runs -/

/-- One step, with a channel that holds `capacity` items. -/
def next (capacity : ℕ) (w : World V) (a : Action V) : Option (World V) := w.step capacity a

lemma World.Sound.step (hw : w.Sound) (h : next capacity w a = some w') : w'.Sound :=
  (Act.of_step h).sound hw

lemma World.sound_of_run {as} (h : StepRuns.run (next capacity) as .start = some w) :
    w.Sound :=
  StepRuns.run_invariant (fun _ _ _ hw _ hnext => hw.step hnext) as _ _ sound_start
    (StepRuns.along_true as _) h

/-- **Nothing is overtaken, and the items leave in order.** -/
theorem World.in_order_of_run {as} (hquiet : StepRuns.Along (next capacity) Quiet as .start)
    (h : StepRuns.run (next capacity) as .start = some w) : w.returned.Sublist w.events := by
  have hkept := (StepRuns.run_invariant
    (I := fun w : World V => w.Sound ∧ (w.returned ++ w.pipe.stock).Sublist w.events)
    (fun w a w' hw ha hnext => by
      obtain ⟨overtaken, hpipe, hnone⟩ := (Act.of_step hnext).pipe hw.1.tidy
      obtain rfl := hnone ha
      exact ⟨hw.1.step hnext, hpipe.in_order hw.2⟩)
    as _ _ ⟨sound_start, Sublist.refl _⟩ hquiet h).2
  exact (sublist_append_left _ _).trans hkept

lemma World.Sound.ordered (hw : w.Sound) (h : w.returned.Sublist w.events) : w.Ordered := by
  have hvalues : (values w.returned).Sublist (values w.events) := h.filterMap _
  refine ⟨hvalues, Nodup.filterMap ?_ (Pairwise.imp ?_ (hw.pairwise.sublist h))⟩
  · intro x y v hx hy
    cases x <;> cases y <;> simp_all [valueOf]
  · rintro x y hlt rfl
    exact Nat.lt_irrefl _ hlt

lemma World.Sound.notStale (hw : w.Sound) (h : w.returned.Sublist w.events) : w.NotStale := by
  intro front behind d x hreturned hx
  have hpairwise := hw.pairwise.sublist h
  rw [hreturned, pairwise_append] at hpairwise
  exact rel_of_pairwise_cons hpairwise.2.1 hx

/-! ### Overtaking -/

/-- An item was returned before a value with a smaller number, which was returned later or is still in
the channel. -/
def World.Crossed (w : World V) : Prop :=
  ∃ front x behind c, w.returned = front ++ x :: behind ∧ c.1 < num x ∧
    (.ok c ∈ behind ∨ .ok c ∈ w.channel)

lemma Act.channel (h : Act capacity a w w') :
    (w'.returned = w.returned ∧ w.channel ⊆ w'.channel) ∨
      ∃ y, w'.returned = w.returned ++ [y] ∧ ∀ c ∈ w.channel, c = y ∨ c ∈ w'.channel := by
  cases h with
  | send x hrouted => exact Or.inl ⟨rfl, subset_append_left _ _⟩
  | receive x channel ha hchannel =>
    refine Or.inr ⟨x, rfl, fun c hc => ?_⟩
    rw [hchannel] at hc
    exact mem_cons.1 hc
  | takeError d herror => exact Or.inr ⟨_, rfl, fun c hc => Or.inr hc⟩
  | takeReady x herror hready => exact Or.inr ⟨_, rfl, fun c hc => Or.inr hc⟩
  | _ => exact Or.inl ⟨rfl, Subset.refl _⟩

lemma Act.crossed (h : Act capacity a w w') (hw : w.Crossed) : w'.Crossed := by
  obtain ⟨front, x, behind, c, hreturned, hlt, hc⟩ := hw
  rcases h.channel with ⟨hsame, hsub⟩ | ⟨y, hreturns, hstays⟩
  · exact ⟨front, x, behind, c, hsame.trans hreturned, hlt, hc.imp_right fun hc => hsub hc⟩
  · refine ⟨front, x, behind ++ [y], c, ?_, hlt, ?_⟩
    · rw [hreturns, hreturned, append_assoc, cons_append]
    · rcases hc with hbehind | hchannel
      · exact Or.inl (mem_append_left _ hbehind)
      · rcases hstays _ hchannel with rfl | hstill
        · exact Or.inl (mem_append_right _ (mem_singleton_self _))
        · exact Or.inr hstill

/-- **What `take_deliverable` takes past a channel that is not empty overtakes.** -/
theorem Act.crossed_of_not_quiet (h : Act capacity a w w') (hw : w.Sound) (hquiet : ¬ w.Quiet a) :
    w'.Crossed := by
  obtain ⟨rfl, hloud⟩ := Classical.not_imp.1 hquiet
  obtain ⟨hsome, hchannel⟩ := not_or.1 hloud
  obtain ⟨x, rest, hcons⟩ := exists_cons_of_ne_nil hchannel
  obtain ⟨c, rfl⟩ := hw.sent x (hcons ▸ mem_cons_self ..)
  have hfirst {y : Item V} (hy : y ∈ w.slot.items) : c.1 < num y := by
    have hpairwise := hw.pairwise.sublist hw.stock
    rw [World.pipe, hcons, append_assoc, cons_append] at hpairwise
    exact rel_of_pairwise_cons hpairwise
      (mem_append_right _ (mem_append_left _ hy))
  cases h with
  | receive y channel ha hother => simp at ha
  | takeError d herror =>
    exact ⟨w.returned, .error d, [], c, rfl,
      hfirst (by simp [items, herror]), Or.inr (hcons ▸ mem_cons_self ..)⟩
  | takeReady y herror hready =>
    exact ⟨w.returned, .ok y, [], c, rfl,
      hfirst (by simp [items, hready]), Or.inr (hcons ▸ mem_cons_self ..)⟩
  | takeNone herror hready => exact absurd ⟨herror, hready⟩ hsome

lemma World.Sound.not_ordered_of_crossed (hw : w.Sound) (h : w.Crossed) (hchannel : w.channel = []) :
    ¬ (w.Ordered ∧ w.NotStale) := by
  rintro ⟨⟨hvalues, -⟩, hstale⟩
  obtain ⟨front, x, behind, c, hreturned, hlt, hc⟩ := h
  rw [hchannel, or_iff_left not_mem_nil] at hc
  cases x with
  | error d =>
    have hafter := hstale front behind d c hreturned hc
    exact absurd hlt (Nat.lt_asymm hafter)
  | ok x =>
    have hpairwise : (values w.events).Pairwise fun x y => x.1 < y.1 := by
      refine Pairwise.filterMap (f := valueOf) ?_ hw.pairwise
      intro y z hyz u hu v hv
      cases y <;> cases z <;> simp_all [valueOf, num]
    have hbehind := hpairwise.sublist hvalues
    have hsplit : values w.returned = values front ++ x :: values behind := by
      rw [hreturned, values, filterMap_append]
      rfl
    rw [hsplit, pairwise_append] at hbehind
    have hafter := rel_of_pairwise_cons hbehind.2.1
      (mem_filterMap.2 ⟨.ok c, hc, rfl⟩)
    exact absurd hlt (Nat.lt_asymm hafter)

/-! ### What a monitor returns -/

/-- `recv` can go on when there is something that it can return. -/
lemma World.Sound.wakes (hw : w.Sound) (hwaiting : w.consumer = .waiting)
    (hsome : w.slot.error.isSome ∨ w.slot.ready.isSome ∨ w.channel ≠ []) :
    ∃ a w', (a = .wakeChannel ∨ a = .wakeNotified) ∧ next capacity w a = some w' := by
  by_cases hchannel : w.channel = []
  · have hpermit := hw.awake hwaiting (by tauto)
    exact ⟨.wakeNotified, _, Or.inr rfl, by rw [next, World.step, hwaiting, hpermit]⟩
  · obtain ⟨x, rest, hcons⟩ := exists_cons_of_ne_nil hchannel
    exact ⟨.wakeChannel, _, Or.inl rfl, by rw [next, World.step, hwaiting, hcons]⟩

lemma World.Sound.last_returned (hw : w.Sound) (hidle : w.coordinator = .idle)
    (hrunning : w.slot.paused = false) (hwaiting : w.consumer = .waiting)
    (hpermit : w.slot.permit = false) (hchannel : w.channel = []) {x}
    (hx : w.events.getLast? = some x) : x ∈ w.returned := by
  have hslot : ¬ (w.slot.error.isSome ∨ w.slot.ready.isSome) := fun hsome => by
    cases hpermit.symm.trans (hw.awake hwaiting hsome)
  obtain ⟨herror, hready⟩ := not_or.1 hslot
  have hitems : w.slot.items = [] := items_eq_nil_iff.2
    ⟨not_isSome_iff_eq_none.1 herror, not_isSome_iff_eq_none.1 hready,
      hw.tidy.gated hrunning⟩
  rcases hw.newest with ⟨y, hy, hlast⟩ | hlast
  · exact some.inj (hx.symm.trans hlast) ▸ hy
  · rw [pipe, hchannel, hitems, hidle, hx] at hlast
    cases hlast

/-- **What a monitor returns.**  The values that `recv` returns are in the order in which they were
posted, each of them once, and none of them was posted before a disconnect that was reported before
it, if `take_deliverable` never takes anything while the channel holds something; and if the channel
has been emptied, only then.  In every run, what is posted in a pause is not returned before the resume,
`recv` is not left waiting while there is something that it can return, and the last post has been
returned when `recv` waits for good. -/
theorem monitor_in_order_iff (capacity : ℕ) (as : List (Action V)) (w : World V)
    (hrun : StepRuns.run (next capacity) as .start = some w) :
    (StepRuns.Along (next capacity) World.Quiet as .start → w.Ordered ∧ w.NotStale) ∧
    (w.channel = [] → w.Ordered ∧ w.NotStale →
      StepRuns.Along (next capacity) World.Quiet as .start) ∧
    (w.slot.paused = true → ∀ x, .ok x ∈ w.returned → x.1 < w.pausedAt) ∧
    (w.consumer = .waiting → w.slot.error.isSome ∨ w.slot.ready.isSome ∨ w.channel ≠ [] →
      ∃ a w', (a = .wakeChannel ∨ a = .wakeNotified) ∧ next capacity w a = some w') ∧
    (w.coordinator = .idle → w.slot.paused = false → w.consumer = .waiting →
      w.slot.permit = false → w.channel = [] →
      ∀ x, w.events.getLast? = some x → x ∈ w.returned) := by
  have hw := sound_of_run hrun
  refine ⟨fun hquiet => ?_, fun hchannel hordered => ?_, fun hpaused x hx => ?_, hw.wakes,
    fun hidle hrunning hwaiting hpermit hchannel x hx =>
      hw.last_returned hidle hrunning hwaiting hpermit hchannel hx⟩
  · have hsub := in_order_of_run hquiet hrun
    exact ⟨hw.ordered hsub, hw.notStale hsub⟩
  · by_contra hloud
    have hcrossed := StepRuns.run_of_not_along (I := Sound)
      (fun _ _ _ hw hnext => hw.step hnext)
      (fun _ _ _ hw hquiet hnext => (Act.of_step hnext).crossed_of_not_quiet hw hquiet)
      (fun _ _ _ hw hnext => (Act.of_step hnext).crossed hw) as _ _ sound_start hloud hrun
    exact hw.not_ordered_of_crossed hcrossed hchannel hordered
  · exact hw.withheld hpaused x (mem_released.2 (Or.inl hx))

/-- A value is sent, and another is put into the slot, before `recv` looks. -/
def bothRoutes : List (Action ℕ) :=
  [.post 10, .trySend, .post 20, .trySend, .putValue, .recv, .tryRecv, .recv, .tryRecv,
    .takeDeliverable]

theorem monitor_in_order_bothRoutes : ∃ w, StepRuns.run (next 1) bothRoutes .start = some w ∧
    w.returned = [.ok (0, 10), .ok (1, 20)] ∧ w.Ordered ∧ w.NotStale := by
  refine ⟨_, rfl, rfl, (monitor_in_order_iff 1 bothRoutes _ rfl).1 ?_⟩
  simp [bothRoutes, StepRuns.Along, Quiet, next, step, start, post,
    returns, routeValue, new, putValue,
    coalesceValueLocked]

/-- The same, between the two looks of `recv`. -/
def betweenLooks : List (Action ℕ) :=
  [.recv, .tryRecv, .post 10, .trySend, .post 20, .trySend, .putValue, .takeDeliverable, .recv,
    .tryRecv]

/-- A value and a disconnect between the two looks of `recv`. -/
def disconnectBetweenLooks : List (Action ℕ) :=
  [.recv, .tryRecv, .post 10, .trySend, .disconnect, .putError, .takeDeliverable, .recv, .tryRecv]

/-- **A value is returned after a newer one, and after the error of a later disconnect**, if it was
sent after `recv` had looked into the channel and before it looked into the slot. -/
theorem monitor_overtakes :
    (∃ w, StepRuns.run (next 1) betweenLooks .start = some w ∧
      w.returned = [.ok (1, 20), .ok (0, 10)] ∧ ¬ w.Ordered) ∧
    ∀ capacity, 1 ≤ capacity → ∃ w,
      StepRuns.run (next capacity) disconnectBetweenLooks .start = some w ∧
      w.returned = [.error 1, .ok (0, 10)] ∧ ¬ w.NotStale := by
  refine ⟨⟨_, rfl, rfl, ?_⟩, fun capacity hcapacity => ?_⟩
  · rintro ⟨hsub, -⟩
    exact absurd hsub (by decide)
  · have hroom : 0 < capacity := hcapacity
    refine ⟨⟨⟨none, none, none, false, true⟩, [], .idle, .idle, [.ok (0, 10), .error 1],
      [.error 1, .ok (0, 10)], 0⟩, ?_, rfl, ?_⟩
    · simp [disconnectBetweenLooks, StepRuns.run, next, step, start, post,
        returns, routeValue, new, clear,
        putError, takeDeliverable, hroom]
    · intro hstale
      exact absurd (hstale [] [.ok (0, 10)] 1 (0, 10) rfl (mem_singleton_self _)) (by decide)

end CaMonitor
