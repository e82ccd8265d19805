/-
**The representation of the event queue.**

The ring, the slab of monitors, the free list and four counters describe the list of the entries
that are queued: `Inv q es` says that `q` represents `es`.  The ring is never full: above the
replace threshold a monitor appends only when nothing of it is queued, and the quota admits fewer
monitors than there are places left.

Main result: `EventQueue.Inv.used_lt_size`.
-/

import EpicsRs.EventQueue
import EpicsRs.SlotTable

set_option autoImplicit false

namespace EventQueue

open RingCells SlotTable List Option QueInner

variable {η α κ : Type}

/-! ### Entries of one monitor -/

/-- Place `k` is that of the newest entry of `id`. -/
def IsNewest (ids : List AttachId) (id : AttachId) (k : ℕ) : Prop :=
  ids[k]? = some id ∧ ∀ j, k < j → ids[j]? ≠ some id

namespace IsNewest

variable {ids pre post : List AttachId} {id x : AttachId} {k : ℕ}

lemma lt_length (h : IsNewest ids id k) : k < ids.length :=
  (List.getElem?_eq_some_iff.1 h.1).1

lemma concat (ids : List AttachId) (id : AttachId) : IsNewest (ids ++ [id]) id ids.length := by
  refine ⟨getElem?_concat_length, fun j hj => ?_⟩
  rw [getElem?_eq_none (by simp; omega)]
  exact nofun

lemma concat_other (h : IsNewest ids id k) (hne : x ≠ id) : IsNewest (ids ++ [x]) id k := by
  refine ⟨?_, fun j hj => ?_⟩
  · rw [getElem?_append_left h.lt_length]
    exact h.1
  · rw [getElem?_append]
    split_ifs with hlt
    · exact h.2 j hj
    · intro hget
      have hmem := mem_of_getElem? hget
      exact hne (mem_singleton.1 hmem).symm

lemma erase (h : IsNewest (pre ++ x :: post) id k) :
    k < pre.length ∧ IsNewest (pre ++ post) id k ∨
      k = pre.length ∧ x = id ∧ id ∉ post ∨
      pre.length < k ∧ IsNewest (pre ++ post) id (k - 1) := by
  obtain ⟨hget, hlater⟩ := h
  have hafter : ∀ j, pre.length ≤ j → (pre ++ post)[j]? = (pre ++ x :: post)[j + 1]? := by
    intro j hj
    rw [getElem?_append_right hj, getElem?_append_right (by omega),
      show j + 1 - pre.length = j - pre.length + 1 by omega, getElem?_cons_succ]
  have hbefore : ∀ j, j < pre.length → (pre ++ post)[j]? = (pre ++ x :: post)[j]? := by
    intro j hj
    rw [getElem?_append_left hj, getElem?_append_left hj]
  rcases lt_trichotomy k pre.length with hk | hk | hk
  · refine Or.inl ⟨hk, by rw [hbefore k hk]; exact hget, fun j hj => ?_⟩
    by_cases hj' : j < pre.length
    · rw [hbefore j hj']
      exact hlater j hj
    · rw [hafter j (by omega)]
      exact hlater (j + 1) (by omega)
  · subst hk
    rw [getElem?_append_right le_rfl, Nat.sub_self, getElem?_cons_zero] at hget
    refine Or.inr (Or.inl ⟨rfl, some.inj hget, fun hmem => ?_⟩)
    obtain ⟨j, hj⟩ := mem_iff_getElem?.1 hmem
    refine hlater (pre.length + (j + 1)) (by omega) ?_
    rw [getElem?_append_right (by omega), Nat.add_sub_cancel_left, getElem?_cons_succ, hj]
  · refine Or.inr (Or.inr ⟨hk, ?_, fun j hj => ?_⟩)
    · rw [hafter (k - 1) (by omega), show k - 1 + 1 = k by omega]
      exact hget
    · rw [hafter j (by omega)]
      exact hlater (j + 1) (by omega)

end IsNewest

/-! ### The invariant -/

/-- What is counted for one monitor: the entries behind its first one. -/
def SubQ.duplicates (s : SubQ κ) : ℕ := s.npend - 1

def SubQ.busy (s : SubQ κ) : ℕ := if 0 < s.npend then 1 else 0

/-- Whether the producer of the monitor is gone and its end not reported. -/
def SubQ.unreported (s : SubQ κ) : ℕ := if s.producerGone && !s.endReported then 1 else 0

def idsOf (es : List (Entry η α)) : List AttachId := es.map Entry.id

@[simp] lemma idsOf_append (es es' : List (Entry η α)) : idsOf (es ++ es') = idsOf es ++ idsOf es' :=
  map_append

@[simp] lemma idsOf_cons (e : Entry η α) (es : List (Entry η α)) :
    idsOf (e :: es) = e.id :: idsOf es := rfl

@[simp] lemma length_idsOf (es : List (Entry η α)) : (idsOf es).length = es.length :=
  length_map _

/-- The table of the monitors and the list of free slots. -/
structure Slots (q : QueInner η α κ) : Prop where
  subs_length : q.subs.length = q.replaceThreshold
  slot_eq : ∀ (i : ℕ) (s : SubQ κ), q.subs[i]? = some (some s) → s.id.slot.toNat = i
  quota_eq : q.quota = eventEntries * total (fun _ => 1) q.subs
  attached_lt : total (fun _ => 1) q.subs < q.replaceThreshold
  free_nodup : q.free.Nodup
  mem_free : ∀ i : UInt16, i ∈ q.free ↔ q.subs[i.toNat]? = some none
  sum_unreported : q.unreportedEnds = total SubQ.unreported q.subs
  /-- An end is reported of a monitor whose producer is gone. -/
  ended : ∀ (i : ℕ) (s : SubQ κ), q.subs[i]? = some (some s) → s.endReported = true →
    s.producerGone = true

/-- The counters, for entries of the monitors `ids`. -/
structure Counts (q : QueInner η α κ) (ids : List AttachId) : Prop where
  used_eq : q.used = ids.length
  npend_eq : ∀ (i : ℕ) (s : SubQ κ), q.subs[i]? = some (some s) → s.npend = ids.count s.id
  /-- An entry is one of a monitor that has a slot. -/
  owned : ∀ id ∈ ids, ∃ s : SubQ κ, q.subs[id.slot.toNat]? = some (some s) ∧ s.id = id
  sum_npend : q.used = total SubQ.npend q.subs
  sum_duplicates : q.nDuplicates = total SubQ.duplicates q.subs
  /-- Above the threshold there is at most one entry more for every busy monitor. -/
  room : q.used ≤ 3 * q.replaceThreshold + total SubQ.busy q.subs

/-- The ring holds the entries `es`, oldest first. -/
structure Cells (q : QueInner η α κ) (es : List (Entry η α)) : Prop where
  size_eq : q.size = eventEntries * q.replaceThreshold
  ring_length : q.ring.length = q.size
  holds : Holds q.ring q.getix es

/-- Every monitor with entries points to its newest one. -/
def Lasts (q : QueInner η α κ) (ids : List AttachId) : Prop :=
  ∀ (i : ℕ) (s : SubQ κ), q.subs[i]? = some (some s) → s.id ∈ ids →
    ∃ k, IsNewest ids s.id k ∧ s.last = wrap (q.getix + k) q.size

/-- The queue represents the entries `es`, but for where `last` points and for which cancelled
monitors there are. -/
structure Core (q : QueInner η α κ) (es : List (Entry η α)) : Prop
    extends Slots q, Counts q (idsOf es), Cells q es

/-- A cancelled monitor has a slot only while something is queued for it. -/
def CancelledBusy (q : QueInner η α κ) : Prop :=
  ∀ (i : ℕ) (s : SubQ κ), q.subs[i]? = some (some s) → s.readerGone = true → 0 < s.npend

/-- **The queue represents the entries `es`.** -/
structure Inv (q : QueInner η α κ) (es : List (Entry η α)) : Prop extends Core q es where
  lasts : Lasts q (idsOf es)
  cancelled : CancelledBusy q

section

variable {q : QueInner η α κ} {es : List (Entry η α)}

lemma get_iff_subAt {i s} : q.subs[i]? = some (some s) ↔ q.subAt i = some s := by
  unfold subAt
  cases q.subs[i]? <;> simp

lemma sub_eq_some {id s} :
    q.sub id = some s ↔ q.subs[id.slot.toNat]? = some (some s) ∧ s.id = id := by
  rw [sub, filter_eq_some_iff, get_iff_subAt]
  simp

lemma entryAt_eq_some {i e} :
    q.entryAt i = some e ↔ q.ring[i]? = some (some e) := by
  unfold entryAt
  cases q.ring[i]? <;> simp

namespace Core

theorem used_lt_size (h : Core q es) : q.used < q.size := by
  have hbusy : total SubQ.busy q.subs ≤ total (fun _ => 1) q.subs :=
    total_le fun s _ => by unfold SubQ.busy; split_ifs <;> omega
  have hroom := h.room
  have hattached := h.attached_lt
  rw [h.size_eq, eventEntries]
  omega

lemma used_eq_length (h : Core q es) : q.used = es.length := by
  rw [h.used_eq, length_idsOf]

lemma entryAt_getix {e} (h : Core q (e :: es)) : q.entryAt q.getix = some e :=
  entryAt_eq_some.2 h.holds.first

lemma entryAt_ix (h : Core q es) {k} (hk : k < es.length) : q.entryAt (q.ix k) = es[k]? := by
  have hitem := h.holds.item hk
  rw [h.ring_length] at hitem
  rw [getElem?_eq_getElem hk]
  exact entryAt_eq_some.2 hitem

lemma mem_ids_iff (h : Core q es) {i : ℕ} {s} (hs : q.subs[i]? = some (some s)) :
    s.id ∈ idsOf es ↔ 0 < s.npend := by
  rw [h.npend_eq i s hs, count_pos_iff]

lemma sub_of_mem (h : Core q es) {e : Entry η α} (he : e ∈ es) :
    ∃ s, q.sub e.id = some s ∧ 0 < s.npend := by
  have hid : e.id ∈ idsOf es := mem_map_of_mem he
  obtain ⟨s, hs, hsid⟩ := h.owned e.id hid
  refine ⟨s, sub_eq_some.2 ⟨hs, hsid⟩, ?_⟩
  rwa [← h.mem_ids_iff hs, hsid]

end Core

/-- The newest entry of a monitor is where `last` says. -/
lemma Inv.newest (h : Inv q es) {i : ℕ} {s} (hs : q.subs[i]? = some (some s))
    (hpend : 0 < s.npend) :
    ∃ pre e post, es = pre ++ e :: post ∧ e.id = s.id ∧ s.id ∉ idsOf post ∧
      s.last = wrap (q.getix + pre.length) q.size ∧ q.entryAt s.last = some e := by
  obtain ⟨k, ⟨hget, hlater⟩, hlast⟩ := h.lasts i s hs ((h.mem_ids_iff hs).2 hpend)
  rw [idsOf, getElem?_map] at hget
  obtain ⟨e, he, hid⟩ := map_eq_some_iff.1 hget
  obtain ⟨hk, rfl⟩ := List.getElem?_eq_some_iff.1 he
  have hlen : (es.take k).length = k := by rw [List.length_take]; omega
  refine ⟨es.take k, es[k], es.drop (k + 1), ?_, hid, ?_, ?_, ?_⟩
  · rw [getElem_cons_drop, take_append_drop]
  · intro hmem
    obtain ⟨j, hj⟩ := mem_iff_getElem?.1 hmem
    rw [idsOf, getElem?_map, getElem?_drop, ← getElem?_map] at hj
    exact hlater (k + 1 + j) (by omega) hj
  · rw [hlen, hlast]
  · have hat := h.entryAt_ix hk
    rw [ix, ← hlast] at hat
    rw [hat, he]

end

/-! ### One slot changes -/

section

variable {q q' : QueInner η α κ} {ids ids' : List AttachId} {i : ℕ} {s : SubQ κ}

lemma Slots.update (h : Slots q) (s' : SubQ κ) (hs : q.subs[i]? = some (some s)) (hid : s'.id = s.id)
    (hsubs : q'.subs = q.subs.set i (some s')) (hfree : q'.free = q.free)
    (hquota : q'.quota = q.quota) (hthreshold : q'.replaceThreshold = q.replaceThreshold)
    (hends : q'.unreportedEnds + s.unreported = q.unreportedEnds + s'.unreported)
    (hended : s'.endReported = true → s'.producerGone = true) : Slots q' := by
  have hone := total_set (f := fun _ : SubQ κ => 1) hs (some s')
  have hunreported := total_set (f := SubQ.unreported) hs (some s')
  have hsum := h.sum_unreported
  have hlen := (List.getElem?_eq_some_iff.1 hs).1
  simp only [elim_some] at hone hunreported
  have hattached : total (fun _ => 1) q'.subs = total (fun _ => 1) q.subs := by rw [hsubs]; omega
  refine ⟨?_, ?_, ?_, ?_, ?_, ?_, ?_, ?_⟩
  · rw [hsubs, length_set, hthreshold, h.subs_length]
  · intro j t ht
    rw [hsubs] at ht
    rcases get_set ht with ⟨rfl, heq⟩ | ⟨-, ht⟩
    · rw [← some.inj heq, hid, h.slot_eq _ s hs]
    · exact h.slot_eq j t ht
  · rw [hquota, hattached, h.quota_eq]
  · rw [hattached, hthreshold]
    exact h.attached_lt
  · rw [hfree]
    exact h.free_nodup
  · intro j
    rw [hfree, h.mem_free, hsubs, getElem?_set]
    split_ifs with hij
    · rw [← hij, hs]
      simp
    · rfl
  · rw [hsubs]
    omega
  · intro j t ht
    rw [hsubs] at ht
    rcases get_set ht with ⟨-, heq⟩ | ⟨-, ht⟩
    · rwa [← some.inj heq]
    · exact h.ended j t ht

lemma Slots.free (h : Slots q) (hs : q.subs[i]? = some (some s))
    (hsubs : q'.subs = q.subs.set i none) (hfree : q'.free = s.id.slot :: q.free)
    (hquota : q'.quota = q.quota - eventEntries)
    (hthreshold : q'.replaceThreshold = q.replaceThreshold)
    (hends : q'.unreportedEnds + s.unreported = q.unreportedEnds) : Slots q' := by
  have hone := total_set (f := fun _ : SubQ κ => 1) hs none
  have hunreported := total_set (f := SubQ.unreported) hs none
  have hsum := h.sum_unreported
  have hlt := h.attached_lt
  have hslot := h.slot_eq i s hs
  have hlen := (List.getElem?_eq_some_iff.1 hs).1
  simp only [elim_some, elim_none] at hone hunreported
  refine ⟨?_, ?_, ?_, ?_, ?_, ?_, ?_, ?_⟩
  · rw [hsubs, length_set, hthreshold, h.subs_length]
  · intro j t ht
    rw [hsubs] at ht
    rcases get_set ht with ⟨-, heq⟩ | ⟨-, ht⟩
    · exact absurd heq nofun
    · exact h.slot_eq j t ht
  · rw [hquota, h.quota_eq, hsubs, eventEntries]
    omega
  · rw [hsubs, hthreshold]
    omega
  · rw [hfree, nodup_cons, h.mem_free, hslot, hs]
    exact ⟨nofun, h.free_nodup⟩
  · intro j
    rw [hfree, mem_cons, h.mem_free, hsubs, getElem?_set, ← UInt16.toNat_inj, hslot]
    split_ifs with hij
    · simp [hij.symm]
    · simp [Ne.symm hij]
  · rw [hsubs]
    omega
  · intro j t ht
    rw [hsubs] at ht
    rcases get_set ht with ⟨-, heq⟩ | ⟨-, ht⟩
    · exact absurd heq nofun
    · exact h.ended j t ht

lemma Slots.attach (h : Slots q) {slot free} (hslot : q.free = slot :: free)
    (hid : s.id.slot = slot) (hends : s.unreported = 0)
    (hended : s.endReported = true → s.producerGone = true)
    (hroom : total (fun _ => 1) q.subs + 1 < q.replaceThreshold)
    (hsubs : q'.subs = q.subs.set slot.toNat (some s)) (hfree : q'.free = free)
    (hquota : q'.quota = q.quota + eventEntries)
    (hthreshold : q'.replaceThreshold = q.replaceThreshold)
    (hunreported : q'.unreportedEnds = q.unreportedEnds) : Slots q' := by
  have hempty : q.subs[slot.toNat]? = some none := (h.mem_free slot).1 (by simp [hslot])
  have hone := total_set (f := fun _ : SubQ κ => 1) hempty (some s)
  have htotal := total_set (f := SubQ.unreported) hempty (some s)
  have hsum := h.sum_unreported
  have hnodup := h.free_nodup
  rw [hslot, nodup_cons] at hnodup
  simp only [elim_some, elim_none] at hone htotal
  have hlen := (List.getElem?_eq_some_iff.1 hempty).1
  refine ⟨?_, ?_, ?_, ?_, ?_, ?_, ?_, ?_⟩
  · rw [hsubs, length_set, hthreshold, h.subs_length]
  · intro j t ht
    rw [hsubs] at ht
    rcases get_set ht with ⟨rfl, heq⟩ | ⟨-, ht⟩
    · rw [← some.inj heq, hid]
    · exact h.slot_eq j t ht
  · rw [hquota, h.quota_eq, hsubs, eventEntries]
    omega
  · rw [hsubs, hthreshold]
    omega
  · rw [hfree]
    exact hnodup.2
  · intro j
    have hmem := h.mem_free j
    rw [hslot, mem_cons, ← UInt16.toNat_inj] at hmem
    rw [hfree, hsubs, getElem?_set]
    split_ifs with hij
    · have hj : j = slot := UInt16.toNat_inj.1 hij.symm
      simp [hj, hnodup.1]
    · rw [← hmem]
      simp [Ne.symm hij]
  · rw [hsubs, hunreported]
    omega
  · intro j t ht
    rw [hsubs] at ht
    rcases get_set ht with ⟨-, heq⟩ | ⟨-, ht⟩
    · rwa [← some.inj heq]
    · exact h.ended j t ht

lemma Counts.update (h : Counts q ids) (hslots : Slots q) (s' : SubQ κ)
    (hs : q.subs[i]? = some (some s)) (hid : s'.id = s.id) (hother : ∀ id, id ≠ s.id → ids'.count id = ids.count id)
    (hnpend : s'.npend = ids'.count s.id) (hsubs : q'.subs = q.subs.set i (some s'))
    (hlen : q'.used = ids'.length) (hused : q'.used + s.npend = q.used + s'.npend)
    (hdup : q'.nDuplicates + s.duplicates = q.nDuplicates + s'.duplicates)
    (hthreshold : q'.replaceThreshold = q.replaceThreshold)
    (hroom : q'.used + s.busy ≤ 3 * q.replaceThreshold + total SubQ.busy q.subs + s'.busy) :
    Counts q' ids' := by
  have hpends := total_set (f := SubQ.npend) hs (some s')
  have hdups := total_set (f := SubQ.duplicates) hs (some s')
  have hbusy := total_set (f := SubQ.busy) hs (some s')
  simp only [elim_some] at hpends hdups hbusy
  have hsumpend := h.sum_npend
  have hsumdups := h.sum_duplicates
  have hlt := (List.getElem?_eq_some_iff.1 hs).1
  refine ⟨hlen, ?_, ?_, ?_, ?_, ?_⟩
  · intro j t ht
    rw [hsubs] at ht
    rcases get_set ht with ⟨rfl, heq⟩ | ⟨hne, ht⟩
    · rw [← some.inj heq, hnpend, hid]
    · have hids : t.id ≠ s.id := by
        intro heq
        rw [← hslots.slot_eq j t ht, heq, hslots.slot_eq i s hs] at hne
        exact hne rfl
      rw [h.npend_eq j t ht, hother t.id hids]
  · intro id hmem
    rw [hsubs]
    by_cases hids : id = s.id
    · refine ⟨s', ?_, hid.trans hids.symm⟩
      rw [hids, hslots.slot_eq i s hs, getElem?_set_self hlt]
    · have hmem' : id ∈ ids := by
        rwa [← count_pos_iff, ← hother id hids, count_pos_iff]
      obtain ⟨t, ht, htid⟩ := h.owned id hmem'
      refine ⟨t, get_set_of_ne ht ?_, htid⟩
      rintro rfl
      obtain rfl : s = t := by simpa [hs] using ht
      exact hids htid.symm
  · rw [hsubs]
    omega
  · rw [hsubs]
    omega
  · rw [hsubs, hthreshold]
    omega

lemma Counts.exchange (h : Counts q ids) {o} (o' : Option (SubQ κ)) (ho : q.subs[i]? = some o)
    (hold : ∀ t, o = some t → t.npend = 0)
    (hnew : ∀ t, o' = some t → t.npend = 0 ∧ t.id.slot.toNat = i)
    (hsubs : q'.subs = q.subs.set i o') (hused : q'.used = q.used)
    (hdup : q'.nDuplicates = q.nDuplicates) (hthreshold : q'.replaceThreshold = q.replaceThreshold)
    : Counts q' ids := by
  have hnone : ∀ id ∈ ids, id.slot.toNat ≠ i := by
    rintro id hmem rfl
    obtain ⟨t, ht, htid⟩ := h.owned id hmem
    obtain rfl : o = some t := by simpa [ho] using ht
    have hzero := h.npend_eq _ t ht
    rw [hold t rfl, htid] at hzero
    exact count_eq_zero.1 hzero.symm hmem
  have hidle : ∀ f : SubQ κ → ℕ, (∀ t, t.npend = 0 → f t = 0) →
      total f q'.subs = total f q.subs := by
    intro f hf
    have hset := total_set (f := f) ho o'
    have hzero : o.elim 0 f = 0 := by
      cases o with
      | none => rfl
      | some t => exact hf t (hold t rfl)
    have hzero' : o'.elim 0 f = 0 := by
      cases o' with
      | none => rfl
      | some t => exact hf t (hnew t rfl).1
    rw [hsubs]
    omega
  refine ⟨?_, ?_, ?_, ?_, ?_, ?_⟩
  · rw [hused, h.used_eq]
  · intro j t ht
    rw [hsubs] at ht
    rcases get_set ht with ⟨rfl, heq⟩ | ⟨-, ht⟩
    · obtain ⟨hpend, hslot⟩ := hnew t heq
      rw [hpend, eq_comm, count_eq_zero]
      exact fun hmem => hnone _ hmem hslot
    · exact h.npend_eq j t ht
  · intro id hmem
    obtain ⟨t, ht, htid⟩ := h.owned id hmem
    refine ⟨t, ?_, htid⟩
    rw [hsubs]
    exact get_set_of_ne ht (hnone id hmem)
  · rw [hused, hidle SubQ.npend fun t ht => ht, h.sum_npend]
  · rw [hdup, hidle SubQ.duplicates fun t ht => by rw [SubQ.duplicates, ht], h.sum_duplicates]
  · rw [hused, hthreshold, hidle SubQ.busy fun t ht => by rw [SubQ.busy, ht]; rfl]
    exact h.room

/-! ### Where `last` points -/

/-- Every monitor of `q'` is one of `q`, with the same newest entry. -/
lemma Lasts.mono (h : Lasts q ids) (hgetix : q'.getix = q.getix) (hsize : q'.size = q.size)
    (hkept : ∀ (j : ℕ) (t' : SubQ κ), q'.subs[j]? = some (some t') → t'.id ∈ ids →
      ∃ t, q.subs[j]? = some (some t) ∧ t.id = t'.id ∧ t.last = t'.last) : Lasts q' ids := by
  intro j t' ht' hmem
  obtain ⟨t, ht, hid, hlast⟩ := hkept j t' ht' hmem
  obtain ⟨k, hnewest, hat⟩ := h j t ht (hid ▸ hmem)
  exact ⟨k, hid ▸ hnewest, by rw [← hlast, hat, hgetix, hsize]⟩

lemma Lasts.push (h : Lasts q ids) (hslots : Slots q) (s' : SubQ κ)
    (hs : q.subs[i]? = some (some s)) (hid : s'.id = s.id) (hlast : s'.last = wrap (q.getix + ids.length) q.size)
    (hsubs : q'.subs = q.subs.set i (some s')) (hgetix : q'.getix = q.getix)
    (hsize : q'.size = q.size) : Lasts q' (ids ++ [s.id]) := by
  intro j t ht hmem
  rw [hsubs] at ht
  rw [hgetix, hsize]
  rcases get_set ht with ⟨rfl, heq⟩ | ⟨hne, ht⟩
  · obtain rfl := some.inj heq
    refine ⟨ids.length, ?_, hlast⟩
    rw [hid]
    exact IsNewest.concat ids s.id
  · have hids : s.id ≠ t.id := by
      intro heq
      rw [← hslots.slot_eq j t ht, ← heq, hslots.slot_eq i s hs] at hne
      exact hne rfl
    rcases mem_append.1 hmem with hmem | hmem
    · obtain ⟨k, hnewest, hat⟩ := h j t ht hmem
      exact ⟨k, hnewest.concat_other hids, hat⟩
    · exact absurd (mem_singleton.1 hmem).symm hids

/-- The first entry of a monitor leaves from behind `pre`, and the head moves on.  The newest entry
of another monitor that stood in front of it has come one place further back. -/
lemma Lasts.erase {pre post x} (h : Lasts q (pre ++ x :: post)) (hhead : q.getix < q.size)
    (hroom : (pre ++ x :: post).length ≤ q.size) (hfirst : x ∉ pre) (hgetix : q'.getix = q.ix 1)
    (hsize : q'.size = q.size)
    (hkept : ∀ (j : ℕ) (t' : SubQ κ), q'.subs[j]? = some (some t') →
      ∃ t, q.subs[j]? = some (some t) ∧ t.id = t'.id ∧
        (t.id ∈ pre ++ x :: post → t'.last =
          if wrap (t.last + q.size - q.getix) q.size < pre.length then wrap (t.last + 1) q.size
          else t.last)) : Lasts q' (pre ++ post) := by
  intro j t' ht' hmem
  obtain ⟨t, ht, hid, hlast⟩ := hkept j t' ht'
  have hmem' : t.id ∈ pre ++ x :: post := by
    rw [hid]
    rcases mem_append.1 hmem with hmem | hmem
    · exact mem_append_left _ hmem
    · exact mem_append_right _ (mem_cons_of_mem _ hmem)
  obtain ⟨k, hnewest, hat⟩ := h j t ht hmem'
  have hk := Nat.lt_of_lt_of_le hnewest.lt_length hroom
  rw [hlast hmem', hat, wrap_sub hhead hk, hgetix, hsize, ix]
  rw [hid] at hnewest
  rcases hnewest.erase with ⟨hlt, hnewest⟩ | ⟨hat, hx, hpost⟩ | ⟨hlt, hnewest⟩
  · refine ⟨k, hnewest, ?_⟩
    unfold wrap
    split_ifs <;> omega
  · -- the entry that leaves was the newest one: the monitor has none left
    subst hx
    rcases mem_append.1 hmem with hmem | hmem
    · exact absurd hmem hfirst
    · exact absurd hmem hpost
  · refine ⟨k - 1, hnewest, ?_⟩
    rw [if_neg (by omega), wrap_succ hhead (by omega), Nat.sub_add_cancel (by omega)]

end

end EventQueue
