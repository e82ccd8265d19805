/-
**Runs of one event queue.**

Everything that is done to a queue is done under its lock, so a run is a list of operations: monitors
are attached and closed, values posted, entries read by the circuit or for one monitor, and the
client switches its events off and on.  The operations take any handle, also one that was never
given out or whose monitor is gone.

Main result: `EventQueue.run_represents`.
-/

import EpicsRs.EventQueueTakes

set_option autoImplicit false

namespace EventQueue

open RingCells SlotTable List Option QueInner

variable {η α κ : Type}

/-! ### The machine -/

/-- A queue, and whether its circuit has said EVENTS_OFF. -/
structure Que (η α κ : Type) where
  inner : QueInner η α κ
  flowOn : Bool

def Que.new (eventsPerQue : ℕ) : Que η α κ := ⟨QueInner.new eventsPerQue, false⟩

inductive Op (η α κ : Type)
  | tryAttach (generation : UInt64) (sid : UInt32) (kind : LogKind) (context : κ)
  | post (id : AttachId) (log : PostLog η α)
  | takeOldest
  | takeFor (id : AttachId)
  | takeEnded
  | pollOldest
  | pollNext (id : AttachId)
  | closeProducer (id : AttachId)
  | closeReader (id : AttachId)
  | flowCtrl (on : Bool)

def QueInner.Polled.obs (id : AttachId) : QueInner.Polled η α → List (Obs η α)
  | .event log => [.delivered id log]
  | _ => []

def circuitObs (r : Option (CircuitEvent η α κ)) : List (Obs η α) :=
  (r.map CircuitEvent.obs).toList

def Que.apply (q : Que η α κ) : Op η α κ → Que η α κ × List (Obs η α)
  | .tryAttach generation sid kind context =>
      let r := q.inner.tryAttach generation sid kind context
      (⟨r.1, q.flowOn⟩, (r.2.map (Obs.attached · kind)).toList)
  | .post id log =>
      let r := q.inner.post q.flowOn id log
      (⟨r.1, q.flowOn⟩, [r.2.1.obs id log])
  | .takeOldest =>
      let r := q.inner.takeOldest q.flowOn
      (⟨r.1, q.flowOn⟩, circuitObs r.2)
  | .takeFor id =>
      let r := q.inner.takeFor id
      (⟨r.1, q.flowOn⟩, (r.2.map (Obs.delivered id)).toList)
  | .takeEnded =>
      let r := q.inner.takeEnded
      (⟨r.1, q.flowOn⟩, circuitObs r.2)
  | .pollOldest =>
      let r := q.inner.pollOldest q.flowOn
      (⟨r.1, q.flowOn⟩, circuitObs r.2)
  | .pollNext id =>
      let r := q.inner.pollNext q.flowOn id
      (⟨r.1, q.flowOn⟩, r.2.obs id)
  | .closeProducer id => (⟨q.inner.closeProducer id, q.flowOn⟩, [])
  | .closeReader id => (⟨q.inner.closeReader id, q.flowOn⟩, [.readerClosed id])
  | .flowCtrl on => (⟨q.inner, on⟩, [])

def Que.run (q : Que η α κ) : List (Op η α κ) → Que η α κ × List (Obs η α)
  | [] => (q, [])
  | op :: ops =>
      let r := (q.apply op).1.run ops
      (r.1, (q.apply op).2 ++ r.2)

/-! ### Runs keep the representation -/

section

variable {q : QueInner η α κ} {es : List (Entry η α)}

lemma Inv.pollOldest (h : Inv q es) (flowOn : Bool) :
    Refines q es (circuitObs (q.pollOldest flowOn).2) (q.pollOldest flowOn).1 := by
  obtain ⟨es', hdrains, htrace, -⟩ := h.takeOldest flowOn
  unfold QueInner.pollOldest
  rcases htake : q.takeOldest flowOn with ⟨q', e | e⟩
  · rw [htake] at hdrains htrace
    obtain ⟨hinv, hended, -⟩ := hdrains.inv.takeEnded
    exact ⟨es', hinv, htrace.trans hended⟩
  · rw [htake] at hdrains htrace
    exact ⟨es', hdrains.inv, htrace⟩

lemma Inv.pollNext (h : Inv q es) (flowOn : Bool) (id : AttachId) :
    Refines q es ((q.pollNext flowOn id).2.obs id) (q.pollNext flowOn id).1 := by
  unfold QueInner.pollNext
  cases hsub : q.sub id with
  | none => exact Refines.refl h
  | some s =>
    dsimp only
    split_ifs
    · have htake := (h.flags true q.inBurst q.taken).takeFor id
      rcases hr : ({ q with draining := true } : QueInner η α κ).takeFor id with ⟨q', log | log⟩
      · rw [hr] at htake
        exact htake
      · rw [hr] at htake
        exact htake
    · exact Refines.refl h
    · exact Refines.refl h
    · exact Refines.refl h

end

lemma apply_refines {q : Que η α κ} {es} (h : Inv q.inner es) (op : Op η α κ)
    : Refines q.inner es (q.apply op).2 (q.apply op).1.inner := by
  cases op with
  | tryAttach generation sid kind context => exact ⟨es, h.tryAttach generation sid kind context⟩
  | post id log => exact h.post q.flowOn id log
  | takeOldest =>
    obtain ⟨es', hdrains, htrace, -⟩ := h.takeOldest q.flowOn
    exact ⟨es', hdrains.inv, htrace⟩
  | takeFor id => exact h.takeFor id
  | takeEnded => exact ⟨es, h.takeEnded.1, h.takeEnded.2.1⟩
  | pollOldest => exact h.pollOldest q.flowOn
  | pollNext id => exact h.pollNext q.flowOn id
  | closeProducer id => exact ⟨es, h.closeProducer id⟩
  | closeReader id => exact ⟨es, h.closeReader id⟩
  | flowCtrl on => exact Refines.refl h

/-- **A run keeps the representation**, and is a run of the view. -/
theorem run_refines (ops : List (Op η α κ)) : ∀ {q : Que η α κ} {es},
    Inv q.inner es → Refines q.inner es (q.run ops).2 (q.run ops).1.inner := by
  induction ops with
  | nil => exact fun h => Refines.refl h
  | cons op ops ih =>
    intro q es h
    obtain ⟨es₁, hinv, htrace⟩ := apply_refines h op
    obtain ⟨es', hinv', htrace'⟩ := ih hinv
    exact ⟨es', hinv', htrace.trans htrace'⟩

/-! ### What the fields say of each other -/

/-- What the fields of a queue for `n` monitors say of each other. -/
structure Represents (n : ℕ) (q : QueInner η α κ) : Prop where
  size_eq : q.size = 4 * n
  ring_length : q.ring.length = q.size
  /-- The occupied places are the `used` ones from `getix` on. -/
  occupied : ∀ i, i < q.size → ((q.entryAt i).isSome ↔ ∃ k, k < q.used ∧ i = q.ix k)
  /-- `npend` is the number of places that hold an entry of the monitor. -/
  npend_eq : ∀ i s, q.subAt i = some s →
    s.npend = q.ring.countP fun o => o.any fun e => e.id = s.id
  used_eq : q.used = total SubQ.npend q.subs
  /-- The monitor of an entry still has its slot. -/
  attached : ∀ i e, q.entryAt i = some e → ∃ s, q.sub e.id = some s
  /-- `last` is the place of the newest entry. -/
  last_eq : ∀ i s, q.subAt i = some s → 0 < s.npend → ∃ k, k < q.used ∧ s.last = q.ix k ∧
    (∃ e, q.entryAt s.last = some e ∧ e.id = s.id) ∧
    ∀ j e, k < j → j < q.used → q.entryAt (q.ix j) = some e → e.id ≠ s.id
  nDuplicates_eq : q.nDuplicates = total (fun s => s.npend - 1) q.subs
  quota_eq : q.quota = 4 * total (fun _ => 1) q.subs
  monitors_le : total (fun _ => 1) q.subs ≤ n - 1
  free_nodup : q.free.Nodup
  mem_free : ∀ slot : UInt16, slot ∈ q.free ↔ slot.toNat < n ∧ q.subAt slot.toNat = none
  unreportedEnds_eq : q.unreportedEnds =
    total (fun s => if s.producerGone && !s.endReported then 1 else 0) q.subs
  used_lt_size : q.used < q.size
  next_empty : q.entryAt (q.ix q.used) = none

lemma Inv.represents {n} {q : QueInner η α κ} {es} (h : Inv q es) (hn : q.replaceThreshold = n)
    : Represents n q := by
  subst hn
  have hused := h.used_eq_length
  have hlt := h.used_lt_size
  have hhead : q.getix < q.size := by
    rw [← h.ring_length]
    exact h.holds.head_lt
  have hentry : ∀ k, k < q.size → q.entryAt (q.ix k) = es[k]? := by
    intro k hk
    have hcell := h.holds.cell k (by rwa [h.ring_length])
    rw [h.ring_length] at hcell
    rw [entryAt, ix, hcell, join_some]
  refine
    { size_eq := h.size_eq
      ring_length := h.ring_length
      occupied := ?_
      npend_eq := ?_
      used_eq := h.sum_npend
      attached := ?_
      last_eq := ?_
      nDuplicates_eq := h.sum_duplicates
      quota_eq := h.quota_eq
      monitors_le := Nat.le_sub_one_of_lt h.attached_lt
      free_nodup := h.free_nodup
      mem_free := ?_
      unreportedEnds_eq := h.sum_unreported
      used_lt_size := hlt
      next_empty := ?_ }
  · intro i hi
    obtain ⟨k, hk, rfl⟩ := exists_wrap hhead hi
    rw [← ix, hentry k hk, isSome_getElem?]
    constructor
    · exact fun hlen => ⟨k, by omega, rfl⟩
    · rintro ⟨j, hj, heq⟩
      rw [ix, ix, wrap_inj hk (by omega)] at heq
      omega
  · intro i s hs
    rw [h.npend_eq i s (get_iff_subAt.2 hs), h.holds.countP fun e => decide (e.id = s.id), idsOf,
      count_eq_countP, countP_map]
    rfl
  · intro i e he
    have hget := entryAt_eq_some.1 he
    obtain ⟨k, hk, rfl⟩ := exists_wrap hhead (h.ring_length ▸ (List.getElem?_eq_some_iff.1 hget).1)
    rw [← ix, hentry k hk] at he
    obtain ⟨s, hs, -⟩ := h.sub_of_mem (List.mem_of_getElem? he)
    exact ⟨s, hs⟩
  · intro i s hs hpend
    obtain ⟨pre, e, post, hes, hid, hpost, hlast, hat⟩ := h.newest (get_iff_subAt.2 hs) hpend
    have hlen : q.used = pre.length + (post.length + 1) := by
      rw [hused, hes, length_append, length_cons]
    refine ⟨pre.length, by omega, hlast, ⟨e, hat, hid⟩, ?_⟩
    intro j e' hj hjused hj' hid'
    rw [hentry j (by omega), hes, getElem?_append_right (by omega),
      show j - pre.length = j - pre.length - 1 + 1 by omega, getElem?_cons_succ] at hj'
    exact hpost (hid' ▸ mem_map_of_mem (mem_of_getElem? hj'))
  · intro slot
    rw [h.mem_free, subAt, ← h.subs_length]
    constructor
    · intro hget
      exact ⟨(List.getElem?_eq_some_iff.1 hget).1, by rw [hget, join_some]⟩
    · rintro ⟨hlt, hnone⟩
      rw [getElem?_eq_getElem hlt, join_some] at hnone
      rw [getElem?_eq_getElem hlt, hnone]
  · rw [hentry q.used hlt, getElem?_eq_none (Nat.le_of_eq hused.symm)]

/-! ### The number of monitors of a queue is fixed -/

section

variable {q q' : QueInner η α κ}

lemma release_replaceThreshold (id : AttachId) :
    (q.release id).1.replaceThreshold = q.replaceThreshold := by
  unfold release
  cases q.sub id with
  | none => rfl
  | some s =>
    dsimp only
    split_ifs <;> rfl

lemma advance_replaceThreshold {r} (h : q.advance = some (q', r)) :
    q'.replaceThreshold = q.replaceThreshold := by
  unfold advance at h
  split_ifs at h
  cases he : q.entryAt q.getix with
  | none =>
    rw [he] at h
    exact absurd h nofun
  | some e =>
    rw [he] at h
    have hq := congrArg (fun r => r.1.replaceThreshold) (some.inj h)
    exact hq.symm.trans (release_replaceThreshold e.id)

lemma takeOldestLoop_replaceThreshold (n : ℕ) : ∀ q : QueInner η α κ,
    (q.takeOldestLoop n).1.replaceThreshold = q.replaceThreshold := by
  induction n with
  | zero => exact fun _ => rfl
  | succ n ih =>
    intro q
    unfold takeOldestLoop
    rcases hadvance : q.advance with _ | ⟨q', i, id, live⟩
    · rfl
    · have hq' := advance_replaceThreshold hadvance
      dsimp only
      cases live with
      | false => exact (ih _).trans hq'
      | true =>
        cases q'.sub id <;> cases q'.entryAt i <;> exact hq'

lemma dropCancelled_replaceThreshold (n : ℕ) : ∀ q : QueInner η α κ,
    (q.dropCancelled n).replaceThreshold = q.replaceThreshold := by
  induction n with
  | zero => exact fun _ => rfl
  | succ n ih =>
    intro q
    unfold dropCancelled
    cases (if q.used = 0 then none else q.entryAt q.getix) with
    | none => rfl
    | some e =>
      dsimp only
      split_ifs
      · rfl
      · rcases hadvance : q.advance with _ | ⟨q', i, id, live⟩
        · rfl
        · have hq' := advance_replaceThreshold hadvance
          exact (ih _).trans hq'

lemma takeOldest_replaceThreshold (flowOn : Bool) :
    (q.takeOldest flowOn).1.replaceThreshold = q.replaceThreshold := by
  unfold takeOldest
  split_ifs
  · rfl
  · exact takeOldestLoop_replaceThreshold q.used _

lemma takeFor_replaceThreshold (id : AttachId) :
    (q.takeFor id).1.replaceThreshold = q.replaceThreshold := by
  have hdrop := dropCancelled_replaceThreshold q.used q
  unfold takeFor
  dsimp only
  cases (range (q.dropCancelled q.used).used).find? fun k =>
      ((q.dropCancelled q.used).entryAt ((q.dropCancelled q.used).ix k)).any fun e => e.id = id with
  | none => exact hdrop
  | some k =>
    have hmove : ((q.dropCancelled q.used).moveToHead k).replaceThreshold = q.replaceThreshold := by
      rw [moveToHead_eq]
      exact hdrop
    dsimp only
    rcases hadvance : ((q.dropCancelled q.used).moveToHead k).advance with _ | ⟨q', i, r⟩
    · exact hmove
    · exact (advance_replaceThreshold hadvance).trans hmove

lemma takeEnded_replaceThreshold : q.takeEnded.1.replaceThreshold = q.replaceThreshold := by
  unfold takeEnded
  split_ifs
  · rfl
  · cases q.subs.findIdx? _ with
    | none => rfl
    | some i =>
      dsimp only
      cases q.subAt i <;> rfl

lemma tryAttach_replaceThreshold (generation : UInt64) (sid : UInt32) (kind : LogKind)
    (context : κ) :
    (q.tryAttach generation sid kind context).1.replaceThreshold = q.replaceThreshold := by
  unfold tryAttach
  split_ifs
  · rfl
  · cases q.free <;> rfl

lemma post_replaceThreshold (flowOn : Bool) (id : AttachId) (log : PostLog η α) :
    (q.post flowOn id log).1.replaceThreshold = q.replaceThreshold := by
  unfold post
  cases (q.sub id).filter fun s => !s.producerGone && !s.readerGone with
  | none => rfl
  | some s =>
    dsimp only
    cases (if 0 < s.npend then q.entryAt s.last else none) with
    | none => rfl
    | some newest =>
      dsimp only
      split_ifs <;> rfl

lemma pollOldest_replaceThreshold (flowOn : Bool) :
    (q.pollOldest flowOn).1.replaceThreshold = q.replaceThreshold := by
  have htake := takeOldest_replaceThreshold (q := q) flowOn
  unfold pollOldest
  rcases hr : q.takeOldest flowOn with ⟨q', e | e⟩
  · rw [hr] at htake
    exact takeEnded_replaceThreshold.trans htake
  · rw [hr] at htake
    exact htake

lemma pollNext_replaceThreshold (flowOn : Bool) (id : AttachId) :
    (q.pollNext flowOn id).1.replaceThreshold = q.replaceThreshold := by
  unfold pollNext
  cases q.sub id with
  | none => rfl
  | some s =>
    dsimp only
    split_ifs
    · have htake := takeFor_replaceThreshold (q := { q with draining := true }) id
      rcases hr : ({ q with draining := true } : QueInner η α κ).takeFor id with ⟨q', log | log⟩
      · rw [hr] at htake
        exact htake
      · rw [hr] at htake
        exact htake
    · rfl
    · rfl
    · rfl

lemma closeProducer_replaceThreshold (id : AttachId) :
    (q.closeProducer id).replaceThreshold = q.replaceThreshold := by
  unfold closeProducer
  cases q.sub id with
  | none => rfl
  | some s =>
    dsimp only
    split_ifs <;> rfl

lemma closeReader_replaceThreshold (id : AttachId) :
    (q.closeReader id).replaceThreshold = q.replaceThreshold := by
  unfold closeReader
  cases q.sub id with
  | none => rfl
  | some s =>
    dsimp only
    split_ifs <;> rfl

end

lemma apply_replaceThreshold (q : Que η α κ) (op : Op η α κ) :
    (q.apply op).1.inner.replaceThreshold = q.inner.replaceThreshold := by
  cases op with
  | tryAttach generation sid kind context => exact tryAttach_replaceThreshold _ _ _ _
  | post id log => exact post_replaceThreshold _ _ _
  | takeOldest => exact takeOldest_replaceThreshold _
  | takeFor id => exact takeFor_replaceThreshold id
  | takeEnded => exact takeEnded_replaceThreshold
  | pollOldest => exact pollOldest_replaceThreshold _
  | pollNext id => exact pollNext_replaceThreshold _ id
  | closeProducer id => exact closeProducer_replaceThreshold id
  | closeReader id => exact closeReader_replaceThreshold id
  | flowCtrl on => rfl

lemma run_replaceThreshold (ops : List (Op η α κ)) : ∀ q : Que η α κ,
    (q.run ops).1.inner.replaceThreshold = q.inner.replaceThreshold := by
  induction ops with
  | nil => exact fun _ => rfl
  | cons op ops ih => exact fun q => (ih _).trans (apply_replaceThreshold q op)

/-- **The representation invariant holds after every run.** -/
theorem run_represents {n : ℕ} (hmin : 4 ≤ n) (hmax : n ≤ maxEventsPerQue)
    (ops : List (Op η α κ)) :
    Represents n ((Que.new n : Que η α κ).run ops).1.inner := by
  obtain ⟨es, hinv, -⟩ := run_refines ops (q := Que.new n) (Inv.new hmin hmax)
  exact hinv.represents (run_replaceThreshold ops (Que.new n))

/-- A run with a cancelled monitor whose entries are still in the ring. -/
theorem run_represents_sample :
    Represents 4 ((Que.new 4 : Que Unit ℕ Unit).run
      [.tryAttach 1 0 .val (), .tryAttach 2 0 .ref (), .post (.new 1 0) ⟨(), 1, .val 5⟩,
        .post (.new 2 1) ⟨(), 1, .ref⟩, .post (.new 1 0) ⟨(), 4, .val 6⟩, .closeReader (.new 1 0),
        .flowCtrl true, .takeFor (.new 2 1)]).1.inner :=
  run_represents (by decide) (by decide) _

end EventQueue
