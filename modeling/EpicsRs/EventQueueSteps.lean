/-
**Attaching, closing and posting keep the representation of the event queue.**

An operation on a queue that represents a list of entries gives a queue that represents another
list, and is a run of the steps of the view.  This module has the operations that add or close; the
reads are in `EventQueueTakes`.

Main result:

* `EventQueue.Inv.post_cases`, `EventQueue.Inv.post` — **what a post does**.
-/

import EpicsRs.EventQueueView

set_option autoImplicit false

namespace EventQueue

open RingCells SlotTable Function List QueInner

variable {η α κ : Type} {q q' : QueInner η α κ} {es : List (Entry η α)}

/-- From the entries `es` of `q`, steps that show `os` lead to `q'`. -/
def Refines (q : QueInner η α κ) (es : List (Entry η α)) (os : List (Obs η α))
    (q' : QueInner η α κ) : Prop :=
  ∃ es', Inv q' es' ∧ Trace (q.view es) os (q'.view es')

lemma Refines.refl (h : Inv q es) : Refines q es [] q := ⟨es, h, Trace.refl _⟩

lemma Refines.single {os} (es' : List (Entry η α)) (h : Inv q' es')
    (hstep : Step (q.view es) os (q'.view es')) : Refines q es os q' :=
  ⟨es', h, Trace.single hstep⟩

/-! ### The start -/

lemma Inv.new {n} (hmin : eventEntries ≤ n) (hmax : n ≤ maxEventsPerQue) :
    Inv (new n : QueInner η α κ) [] := by
  have hnone : ∀ {i : ℕ} {s : SubQ κ},
      (replicate n (none : Option (SubQ κ)))[i]? ≠ some (some s) := by
    intro i s hs
    rw [getElem?_replicate] at hs
    split_ifs at hs
    exact absurd hs nofun
  rw [eventEntries] at hmin
  rw [maxEventsPerQue] at hmax
  have hring : Holds (replicate (eventEntries * n) (none : Option (Entry η α))) 0 [] :=
    Holds.empty (by rw [eventEntries]; omega)
  refine
    { subs_length := length_replicate
      slot_eq := fun i s hs => absurd hs hnone
      quota_eq := by simp [QueInner.new, total_replicate]
      attached_lt := by simp only [QueInner.new, total_replicate]; omega
      free_nodup := ?_
      mem_free := ?_
      sum_unreported := (total_replicate n).symm
      ended := fun i s hs => absurd hs hnone
      used_eq := rfl
      npend_eq := fun i s hs => absurd hs hnone
      owned := fun id hmem => absurd hmem not_mem_nil
      sum_npend := (total_replicate n).symm
      sum_duplicates := (total_replicate n).symm
      room := Nat.zero_le _
      size_eq := rfl
      ring_length := length_replicate
      holds := hring
      lasts := fun i s hs => absurd hs hnone
      cancelled := fun i s hs => absurd hs hnone }
  · refine Nodup.map_on ?_ nodup_range
    intro i hi j hj heq
    rw [mem_range] at hi hj
    have heq := congrArg UInt16.toNat heq
    rwa [UInt16.toNat_ofNat_of_lt' (by simp only [UInt16.size]; omega),
      UInt16.toNat_ofNat_of_lt' (by simp only [UInt16.size]; omega)] at heq
  · intro i
    simp only [QueInner.new, mem_map, mem_range, getElem?_replicate]
    constructor
    · rintro ⟨j, hj, rfl⟩
      rw [UInt16.toNat_ofNat_of_lt' (by simp only [UInt16.size]; omega), if_pos hj]
    · intro hi
      split_ifs at hi with hlt
      exact ⟨i.toNat, hlt, UInt16.ofNat_toNat⟩

/-! ### Fields that nothing depends on -/

lemma Core.flags (h : Core q es) (draining inBurst : Bool) (taken : ℕ) :
    Core { q with draining, inBurst, taken } es where
  toSlots := { h.toSlots with }
  toCounts := { h.toCounts with }
  toCells := { h.toCells with }

lemma Inv.flags (h : Inv q es) (draining inBurst : Bool) (taken : ℕ) :
    Inv { q with draining, inBurst, taken } es where
  toCore := h.toCore.flags draining inBurst taken
  lasts := h.lasts
  cancelled := h.cancelled

/-! ### A slot becomes free -/

section

variable {i : ℕ} {s : SubQ κ}

lemma Slots.freeSlot (h : Slots q) (hs : q.subs[i]? = some (some s)) :
    Slots (q.freeSlot s.id) := by
  have hslot := h.slot_eq i s hs
  have hsum := h.sum_unreported
  have hle := le_total (f := SubQ.unreported) (mem_of_getElem? hs)
  refine h.free hs ?_ rfl rfl rfl ?_
  · rw [QueInner.freeSlot, hslot]
  · have hends : (q.freeSlot s.id).unreportedEnds =
        if s.producerGone && !s.endReported then q.unreportedEnds - 1 else q.unreportedEnds := by
      rw [QueInner.freeSlot, QueInner.subAt, hslot, hs, Option.join_some, Option.any_some]
    have hone : s.unreported = if s.producerGone && !s.endReported then 1 else 0 := rfl
    rw [hends]
    rw [hone] at hle ⊢
    split_ifs at hle ⊢ <;> omega

lemma Core.freeSlot (h : Core q es) (hs : q.subs[i]? = some (some s)) (hidle : s.npend = 0) :
    Core (q.freeSlot s.id) es where
  toSlots := h.toSlots.freeSlot hs
  toCounts := by
    refine h.toCounts.exchange none hs ?_ nofun ?_ rfl rfl rfl
    · intro t ht
      rwa [← Option.some.inj ht]
    · rw [QueInner.freeSlot, h.slot_eq i s hs]
  toCells := { h.toCells with }

lemma get_of_freeSlot {id t} (ht : (q.freeSlot id).subs[i]? = some (some t)) :
    i ≠ id.slot.toNat ∧ q.subs[i]? = some (some t) := by
  rcases get_set ht with ⟨-, heq⟩ | ht
  · exact absurd heq nofun
  · exact ht

lemma monitors_freeSlot (h : Slots q) (hs : q.subs[i]? = some (some s)) :
    (q.freeSlot s.id).monitors = update q.monitors s.id none := by
  have hslot := h.slot_eq i s hs
  refine monitors_set none hs ?_ nofun hslot ?_
  · intro t ht
    rw [Option.some.inj ht]
  · rw [freeSlot, hslot]

end

/-! ### Attaching and closing -/

lemma Inv.tryAttach (h : Inv q es) (generation : UInt64) (sid : UInt32) (kind : LogKind)
    (context : κ) :
    Inv (q.tryAttach generation sid kind context).1 es ∧
      Trace (q.view es)
        (((q.tryAttach generation sid kind context).2.map (Obs.attached · kind)).toList)
        ((q.tryAttach generation sid kind context).1.view es) := by
  unfold QueInner.tryAttach
  by_cases hfull : q.size - eventEntries ≤ q.quota
  · rw [if_pos hfull]
    exact ⟨h, Trace.refl _⟩
  rw [if_neg hfull]
  cases hfree : q.free with
  | nil => exact ⟨h, Trace.refl _⟩
  | cons slot free =>
    have hempty : q.subs[slot.toNat]? = some none := (h.mem_free slot).1 (by simp [hfree])
    have hroom : total (fun _ => 1) q.subs + 1 < q.replaceThreshold := by
      have hsize := h.size_eq
      have hquota := h.quota_eq
      rw [eventEntries] at hsize hquota hfull
      omega
    set s := SubQ.new (AttachId.new generation slot) sid kind context with hsdef
    have hslot : s.id.slot = slot := AttachId.slot_new generation slot
    set q' := ({ q with quota := q.quota + eventEntries, free := free } :
      QueInner η α κ).setSub s with hqdef
    have hsubs : q'.subs = q.subs.set slot.toNat (some s) := by rw [← hslot]; rfl
    have hcounts : Counts q' (idsOf es) := by
      refine h.toCounts.exchange (some s) hempty (by simp) ?_ hsubs rfl rfl rfl
      intro t ht
      obtain rfl := Option.some.inj ht
      exact ⟨rfl, by rw [hslot]⟩
    have hnone : s.id ∉ idsOf es := by
      intro hmem
      obtain ⟨t, ht, -⟩ := h.owned s.id hmem
      rw [hslot, hempty] at ht
      cases ht
    refine ⟨⟨⟨?_, hcounts, { h.toCells with }⟩, ?_, ?_⟩, Trace.single ?_⟩
    · exact h.toSlots.attach hfree hslot rfl (by rintro ⟨⟩) hroom hsubs rfl rfl rfl rfl
    · refine h.lasts.mono rfl rfl ?_
      intro j t ht hmem
      rcases get_set ht with ⟨-, heq⟩ | ⟨-, ht⟩
      · rw [← Option.some.inj heq] at hmem
        exact absurd hmem hnone
      · exact ⟨t, ht, rfl, rfl⟩
    · intro j t ht hgone
      rcases get_set ht with ⟨-, heq⟩ | ⟨-, ht⟩
      · rw [← Option.some.inj heq] at hgone
        cases hgone
      · exact h.cancelled j t ht hgone
    · have hmon : q'.monitors = update q.monitors s.id (some s.monitor) := by
        refine monitors_set (some s) hempty (by simp) ?_ (by rw [hslot]) hsubs
        intro t ht
        rw [Option.some.inj ht]
      rw [view_set hmon]
      refine Step.attach (m := s.monitor) ?_ hnone ⟨rfl, rfl⟩ rfl
      have hsub : q.sub s.id = none := by
        rw [sub, subAt, hslot, hempty]
        rfl
      change (q.sub s.id).map SubQ.monitor = none
      rw [hsub, Option.map_none]

section

variable {i : ℕ} {s : SubQ κ}

lemma Core.setFlags (h : Core q es) (s' : SubQ κ) (hs : q.subs[i]? = some (some s)) (hid : s'.id = s.id)
    (hnpend : s'.npend = s.npend) (hended : s'.endReported = true → s'.producerGone = true)
    (hsubs : q'.subs = q.subs.set i (some s'))
    (hends : q'.unreportedEnds + s.unreported = q.unreportedEnds + s'.unreported)
    (hrest : q' = { q with subs := q'.subs, unreportedEnds := q'.unreportedEnds }) :
    Core q' es where
  toSlots := by
    refine h.toSlots.update s' hs hid hsubs ?_ ?_ ?_ hends hended <;> rw [hrest]
  toCounts := by
    have hroom := h.room
    refine h.toCounts.update h.toSlots s' hs hid (fun _ _ => rfl) ?_ hsubs ?_ ?_ ?_ ?_ ?_
    · rw [hnpend, h.npend_eq i s hs]
    · rw [hrest]
      exact h.used_eq
    · rw [hrest, hnpend]
    · rw [hrest, SubQ.duplicates, SubQ.duplicates, hnpend]
    · rw [hrest]
    · rw [hrest, SubQ.busy, SubQ.busy, hnpend]
      exact Nat.add_le_add_right hroom _
  toCells := by
    rw [hrest]
    exact { h.toCells with }

lemma Inv.setFlags (h : Inv q es) (s' : SubQ κ) (hs : q.subs[i]? = some (some s)) (hid : s'.id = s.id)
    (hnpend : s'.npend = s.npend) (hlast : s'.last = s.last)
    (hgone : s'.readerGone = true → 0 < s.npend)
    (hended : s'.endReported = true → s'.producerGone = true)
    (hsubs : q'.subs = q.subs.set i (some s'))
    (hends : q'.unreportedEnds + s.unreported = q.unreportedEnds + s'.unreported)
    (hrest : q' = { q with subs := q'.subs, unreportedEnds := q'.unreportedEnds }) :
    Inv q' es where
  toCore := h.toCore.setFlags s' hs hid hnpend hended hsubs hends hrest
  lasts := by
    refine h.lasts.mono (by rw [hrest]) (by rw [hrest]) ?_
    intro j t ht _
    rw [hsubs] at ht
    rcases get_set ht with ⟨rfl, heq⟩ | ⟨-, ht⟩
    · obtain rfl := Option.some.inj heq
      exact ⟨s, hs, hid.symm, hlast.symm⟩
    · exact ⟨t, ht, rfl, rfl⟩
  cancelled := by
    intro j t ht hreader
    rw [hsubs] at ht
    rcases get_set ht with ⟨rfl, heq⟩ | ⟨-, ht⟩
    · obtain rfl := Option.some.inj heq
      rw [hnpend]
      exact hgone hreader
    · exact h.cancelled j t ht hreader

end

lemma Inv.closeProducer (h : Inv q es) (id : AttachId) :
    Inv (q.closeProducer id) es ∧ Trace (q.view es) [] ((q.closeProducer id).view es) := by
  unfold QueInner.closeProducer
  cases hsub : q.sub id with
  | none => exact ⟨h, Trace.refl _⟩
  | some s =>
    dsimp only
    obtain ⟨hs, rfl⟩ := sub_eq_some.1 hsub
    by_cases hgone : s.producerGone = true
    · rw [if_pos hgone]
      exact ⟨h, Trace.refl _⟩
    rw [if_neg hgone]
    set s' : SubQ κ := { s with producerGone := true }
    have hopen : s.endReported = false := by
      by_contra hend
      exact hgone (h.ended _ s hs (by simpa using hend))
    have hbefore : s.unreported = 0 := by simp [SubQ.unreported, hgone]
    have hafter : s'.unreported = 1 := by simp [SubQ.unreported, s', hopen]
    set q' := ({ q with unreportedEnds := q.unreportedEnds + 1 } : QueInner η α κ).setSub s'
    have hsubs : q'.subs = q.subs.set s.id.slot.toNat (some s') := rfl
    refine ⟨?_, Trace.single ?_⟩
    · refine h.setFlags s' hs rfl rfl rfl (h.cancelled _ s hs) (fun _ => rfl) hsubs ?_ rfl
      rw [hbefore, hafter]
      rfl
    · rw [view_set (monitors_update s' hs h.toSlots rfl hsubs)]
      exact Step.closeProducer (v := q.view es) (monitors_self hs h.toSlots)

lemma freeSlot_setSub {s : SubQ κ} (s' : SubQ κ) (hs : q.subs[s.id.slot.toNat]? = some (some s))
    (hid : s'.id = s.id) (hgone : s'.producerGone = s.producerGone)
    (hend : s'.endReported = s.endReported) :
    (q.setSub s').freeSlot s.id = q.freeSlot s.id := by
  have hlen := (List.getElem?_eq_some_iff.1 hs).1
  simp only [freeSlot, setSub, subAt, hid, List.set_set,
    getElem?_set_self hlen, hs, Option.join_some, Option.any_some, hgone, hend]

lemma Inv.closeReader (h : Inv q es) (id : AttachId) :
    Inv (q.closeReader id) es ∧
      Trace (q.view es) [.readerClosed id] ((q.closeReader id).view es) := by
  unfold QueInner.closeReader
  cases hsub : q.sub id with
  | none =>
    refine ⟨h, Trace.single ?_⟩
    have hview : q.view es = (q.view es).set id none := by
      refine view_set (q := q) (update_eq_self_iff.2 ?_).symm
      rw [monitors, hsub, Option.map_none]
    nth_rewrite 2 [hview]
    refine Step.detach fun hmem => ?_
    obtain ⟨s, hs, hid⟩ := h.owned id hmem
    rw [sub_eq_some.2 ⟨hs, hid⟩] at hsub
    cases hsub
  | some s =>
    dsimp only
    obtain ⟨hs, rfl⟩ := sub_eq_some.1 hsub
    have hmon := monitors_self hs h.toSlots
    set s' : SubQ κ := { s with readerGone := true }
    by_cases hidle : s.npend = 0
    · -- nothing is queued: the slot is free at once
      rw [if_pos hidle, freeSlot_setSub s' hs rfl rfl rfl]
      refine ⟨⟨h.toCore.freeSlot hs hidle, ?_, ?_⟩, Trace.single ?_⟩
      · exact h.lasts.mono rfl rfl fun j t ht _ => ⟨t, (get_of_freeSlot ht).2, rfl, rfl⟩
      · exact fun j t ht hgone => h.cancelled j t (get_of_freeSlot ht).2 hgone
      · rw [view_set (monitors_freeSlot h.toSlots hs)]
        refine Step.detach fun hmem => ?_
        exact Nat.ne_of_gt ((h.mem_ids_iff hs).1 hmem) hidle
    · rw [if_neg hidle]
      have hsubs : (q.setSub s').subs = q.subs.set s.id.slot.toNat (some s') := rfl
      refine ⟨?_, Trace.single ?_⟩
      · exact h.setFlags s' hs rfl rfl rfl (fun _ => Nat.pos_of_ne_zero hidle)
          (h.ended _ s hs) hsubs rfl rfl
      · rw [view_set (monitors_update s' hs h.toSlots rfl hsubs)]
        exact Step.cancel (v := q.view es) hmon

/-! ### Posting -/

section

variable {s : SubQ κ}

lemma Inv.append (h : Inv q es) (hs : q.subs[s.id.slot.toNat]? = some (some s))
    (log : PostLog η α) (hroom : s.npend = 0 ∨ q.replaceThreshold < q.ringSpace) :
    Inv (q.append s log).1 (es ++ [⟨s.id, log⟩]) := by
  set s' : SubQ κ :=
    { s with npend := s.npend + 1, last := wrap (q.getix + q.used) q.size } with hs'
  set q' := (q.append s log).1
  have hsubs : q'.subs = q.subs.set s.id.slot.toNat (some s') := rfl
  have hids : idsOf (es ++ [⟨s.id, log⟩]) = idsOf es ++ [s.id] := by rw [idsOf_append]; rfl
  have hlast : s'.last = wrap (q.getix + (idsOf es).length) q.size := by rw [← h.used_eq]
  refine ⟨⟨?_, ?_, ?_⟩, ?_, ?_⟩
  · exact h.toSlots.update s' hs rfl hsubs rfl rfl rfl rfl (h.ended _ s hs)
  · have hused : q'.used = q.used + 1 := rfl
    have hdup : q'.nDuplicates = if 0 < s.npend then q.nDuplicates + 1 else q.nDuplicates := rfl
    have hold := h.room
    have hsize := h.size_eq
    rw [hids]
    refine h.toCounts.update h.toSlots s' hs rfl ?_ ?_ hsubs ?_ ?_ ?_ rfl ?_
    · intro id hne
      rw [count_append, count_singleton, if_neg (by simpa using Ne.symm hne),
        Nat.add_zero]
    · rw [count_append, count_singleton_self, ← h.npend_eq _ s hs]
    · rw [hused, h.used_eq, length_append, length_singleton]
    · rw [hused]
      simp only [hs']
      omega
    · rw [hdup]
      simp only [SubQ.duplicates, hs']
      split_ifs <;> omega
    · have hbusy : s.busy = if 0 < s.npend then 1 else 0 := rfl
      have hbusy' : s'.busy = 1 := if_pos (Nat.succ_pos _)
      rw [hused, hbusy, hbusy']
      rw [eventEntries] at hsize
      rcases hroom with hidle | hroom
      · rw [hidle, if_neg (Nat.lt_irrefl 0)]
        omega
      · rw [ringSpace] at hroom
        split_ifs <;> omega
  · refine ⟨h.size_eq, ?_, ?_⟩
    · exact (length_set ..).trans h.ring_length
    · have hlt := h.used_lt_size
      rw [← h.ring_length, h.used_eq_length] at hlt
      have hpush := h.holds.push hlt ⟨s.id, log⟩
      rwa [← h.used_eq_length, h.ring_length] at hpush
  · rw [hids]
    exact h.lasts.push h.toSlots s' hs rfl hlast hsubs rfl rfl
  · intro j t ht hgone
    rcases get_set ht with ⟨-, heq⟩ | ⟨-, ht⟩
    · obtain rfl := Option.some.inj heq
      exact Nat.succ_pos _
    · exact h.cancelled j t ht hgone

lemma Inv.setEntry {pre post e} (h : Inv q (pre ++ e :: post)) {i}
    (hi : i = wrap (q.getix + pre.length) q.size) (e' : Entry η α) (hid : e'.id = e.id) :
    Inv { q with ring := q.ring.set i (some e') } (pre ++ e' :: post) := by
  have hids : idsOf (pre ++ e' :: post) = idsOf (pre ++ e :: post) := by simp [hid]
  refine ⟨⟨{ h.toSlots with }, ?_, ?_⟩, ?_, h.cancelled⟩
  · rw [hids]
    exact { h.toCounts with }
  · refine ⟨h.size_eq, (length_set ..).trans h.ring_length, ?_⟩
    have hmodify := h.holds.modify (k := pre.length) (by simp) e'
    rw [h.ring_length, ← hi] at hmodify
    simpa using hmodify
  · rw [hids]
    exact h.lasts

lemma Inv.overwrite {pre post e} (h : Inv q (pre ++ e :: post)) (s' : SubQ κ)
    (hs : q.subs[s.id.slot.toNat]? = some (some s))
    (hat : s.last = wrap (q.getix + pre.length) q.size) (heid : e.id = s.id) (hid : s'.id = s.id)
    (hnpend : s'.npend = s.npend) (hlast : s'.last = s.last) (hmonitor : s'.monitor = s.monitor)
    (log : PostLog η α) :
    Inv (q.overwrite s' log) (pre ++ ⟨s.id, log⟩ :: post) ∧
      (q.overwrite s' log).monitors = q.monitors := by
  have hgone : s'.producerGone = s.producerGone := congrArg Monitor.producerGone hmonitor
  have hreader : s'.readerGone = s.readerGone := congrArg Monitor.readerGone hmonitor
  have hend : s'.endReported = s.endReported := congrArg Monitor.endReported hmonitor
  have hsubs : (q.setSub s').subs = q.subs.set s.id.slot.toNat (some s') := by rw [← hid]; rfl
  have hset : Inv (q.setSub s') (pre ++ e :: post) := by
    refine h.setFlags s' hs hid hnpend hlast ?_ ?_ hsubs ?_ rfl
    · rw [hreader]
      exact h.cancelled _ s hs
    · rw [hend, hgone]
      exact h.ended _ s hs
    · rw [SubQ.unreported, SubQ.unreported, hgone, hend]
      rfl
  constructor
  · have hentry := hset.setEntry (i := s'.last) (by rw [hlast, hat]; rfl) ⟨s'.id, log⟩
      (by rw [hid, heid])
    rw [← hid]
    exact hentry
  · have hmonitors := monitors_update s' hs h.toSlots hid hsubs
    rw [hmonitor, ← monitors_self hs h.toSlots, update_eq_self] at hmonitors
    exact hmonitors

end

def PostOutcome.accepted : PostOutcome → Bool
  | .closed => false
  | _ => true

def PostOutcome.obs (outcome : PostOutcome) (id : AttachId) (log : PostLog η α) : Obs η α :=
  if outcome.accepted then .posted id log else .refused id

lemma stored_mask (kind : LogKind) (log : PostLog η α) : (log.stored kind).mask = log.mask := by
  cases kind with
  | val => rfl
  | ref =>
    unfold PostLog.stored PostLog.dropVal
    cases log.value <;> rfl

lemma isRef_iff {d : LogData α} : d.isRef = true ↔ d = .ref := by
  cases d <;> simp [LogData.isRef]

/-- A post that overwrites the newest entry of the monitor `s`. -/
structure Overwrites (q : QueInner η α κ) (es : List (Entry η α)) (s : SubQ κ)
    (log : PostLog η α) (r : QueInner η α κ × PostOutcome × Bool) : Prop where
  intro ::
  entries : ∃ pre old post s' new, r.1 = q.overwrite s' new ∧ es = pre ++ ⟨s.id, old⟩ :: post ∧
    s.id ∉ idsOf post ∧ s.last = wrap (q.getix + pre.length) q.size ∧
    s'.id = s.id ∧ s'.npend = s.npend ∧ s'.last = s.last ∧ s'.monitor = s.monitor ∧
    new.value = (log.stored s.kind).value ∧ new.mask = old.mask ||| log.mask
  outcome : r.2.1 = .collapsed ∨ r.2.1 = .replaced
  noChain : r.2.2 = false

/-- **What a post does**: nothing, append, or overwrite. -/
theorem Inv.post_cases (h : Inv q es) (flowOn : Bool) (id : AttachId) (log : PostLog η α) :
    q.post flowOn id log = (q, .closed, false) ∧
        (∀ m, q.monitors id = some m → ¬ m.takesPosts) ∨
      ∃ s, q.sub id = some s ∧ s.monitor.takesPosts ∧
        (q.post flowOn id log = q.append s (log.stored s.kind) ∧
            (s.npend = 0 ∨ flowOn = false ∧ q.replaceThreshold < q.ringSpace) ∨
          Overwrites q es s log (q.post flowOn id log)) := by
  unfold post
  cases hsub : (q.sub id).filter fun s => !s.producerGone && !s.readerGone with
  | none =>
    refine Or.inl ⟨rfl, ?_⟩
    intro m hm hopen
    obtain ⟨s, hs, rfl⟩ := Option.map_eq_some_iff.1 hm
    rw [hs, Option.filter_eq_none_iff] at hsub
    have hopen' : s.producerGone = false ∧ s.readerGone = false := hopen
    simp [hopen'] at hsub
  | some s =>
    dsimp only
    obtain ⟨hsub, hopen⟩ := Option.filter_eq_some_iff.1 hsub
    obtain ⟨hs, rfl⟩ := sub_eq_some.1 hsub
    refine Or.inr ⟨s, hsub, by simpa [Monitor.takesPosts, SubQ.monitor] using hopen, ?_⟩
    by_cases hpend : 0 < s.npend
    · obtain ⟨pre, e, post, hes, heid, hpost, hlast, hat⟩ := h.newest hs hpend
      obtain ⟨eid, old⟩ := e
      obtain rfl : eid = s.id := heid
      rw [if_pos hpend, hat]
      dsimp only
      by_cases hrefs : ((log.stored s.kind).value.isRef && old.value.isRef) = true
      · rw [if_pos hrefs]
        rw [Bool.and_eq_true, isRef_iff, isRef_iff] at hrefs
        refine Or.inr ⟨⟨pre, old, post, _, _, rfl, hes, hpost, hlast, rfl, rfl, rfl, rfl, ?_, ?_⟩,
          Or.inl rfl, rfl⟩
        · rw [hrefs.1]
          exact hrefs.2
        · rw [PostLog.setMaskOr, stored_mask]
      · rw [if_neg hrefs]
        by_cases hfull : (flowOn || decide (q.ringSpace ≤ q.replaceThreshold)) = true
        · rw [if_pos hfull]
          refine Or.inr ⟨⟨pre, old, post, _, _, rfl, hes, hpost, hlast, rfl, rfl, rfl, rfl, rfl,
            ?_⟩, Or.inr rfl, rfl⟩
          rw [PostLog.setMaskOr, stored_mask, UInt16.or_comm]
        · rw [if_neg hfull]
          rw [Bool.or_eq_true, not_or, decide_eq_true_eq] at hfull
          exact Or.inl ⟨rfl, Or.inr ⟨by simpa using hfull.1, by omega⟩⟩
    · rw [if_neg hpend]
      exact Or.inl ⟨rfl, Or.inl (by omega)⟩

lemma monitors_append {s} (hs : q.subs[s.id.slot.toNat]? = some (some s)) (hslots : Slots q)
    (log : PostLog η α) : (q.append s log).1.monitors = q.monitors := by
  have hsubs : (q.append s log).1.subs = q.subs.set s.id.slot.toNat
      (some { s with npend := s.npend + 1, last := wrap (q.getix + q.used) q.size }) := rfl
  have hmonitors := monitors_update _ hs hslots (by rfl) hsubs
  change _ = update q.monitors s.id (some s.monitor) at hmonitors
  rwa [← monitors_self hs hslots, update_eq_self] at hmonitors

lemma Inv.post (h : Inv q es) (flowOn : Bool) (id : AttachId) (log : PostLog η α) :
    Refines q es [(q.post flowOn id log).2.1.obs id log] (q.post flowOn id log).1 := by
  rcases h.post_cases flowOn id log with ⟨heq, hgone⟩ | ⟨s, hsub, hopen, happend | hover⟩
  · rw [heq]
    exact Refines.single es h (Step.refuse hgone)
  · obtain ⟨heq, hroom⟩ := happend
    obtain ⟨hs, rfl⟩ := sub_eq_some.1 hsub
    have hroom' : s.npend = 0 ∨ q.replaceThreshold < q.ringSpace := hroom.imp_right And.right
    rw [heq]
    refine Refines.single _ (h.append hs _ hroom') ?_
    rw [view_entries es _ (monitors_append hs h.toSlots _)]
    exact Step.append (monitors_self hs h.toSlots) hopen
  · obtain ⟨⟨pre, old, post, s', new, heq, rfl, hpost, hlast, hid, hnpend, hlast', hmon, hvalue,
      hmask⟩, houtcome, -⟩ := hover
    obtain ⟨hs, rfl⟩ := sub_eq_some.1 hsub
    obtain ⟨hinv, hmonitors⟩ := h.overwrite s' hs hlast rfl hid hnpend hlast' hmon new
    have hobs : (q.post flowOn s.id log).2.1.obs s.id log = .posted s.id log := by
      rcases houtcome with h | h <;> rw [h] <;> rfl
    rw [hobs, heq]
    refine Refines.single _ hinv ?_
    rw [view_entries (pre ++ ⟨s.id, old⟩ :: post) _ hmonitors]
    exact Step.overwrite (monitors_self hs h.toSlots) hopen rfl hpost hvalue hmask

end EventQueue
