/-
**Reads keep the representation of the event queue.**

Entries leave through one place, `advance`, which takes the head; a read of one monitor first brings
its entry there.  While an entry is on its way, `last` of its monitor may point to where it was, so
the two parts of the move are taken together.  The reads of the circuit take entries in the order
of the ring, dropping those of cancelled monitors.

Main result: `EventQueue.Inv.takeAt`.
-/

import EpicsRs.EventQueueSteps

set_option autoImplicit false

namespace EventQueue

open RingCells SlotTable Function List Option QueInner

variable {η α κ : Type} {q q' : QueInner η α κ} {es : List (Entry η α)}

/-! ### An entry leaves -/

section

variable {s : SubQ κ} {e : Entry η α}

/-- The queue when its head entry, of the monitor `s`, has been counted out. -/
def QueInner.popped (q : QueInner η α κ) (s : SubQ κ) : QueInner η α κ :=
  { q with
    getix := q.ix 1
    used := q.used - 1
    taken := q.taken + 1
    subs := q.subs.set s.id.slot.toNat (some { s with npend := s.npend - 1 })
    nDuplicates := if 0 < s.npend - 1 then q.nDuplicates - 1 else q.nDuplicates }

/-- And when a cancelled monitor has left with its last entry. -/
def QueInner.retired (q : QueInner η α κ) (s : SubQ κ) : QueInner η α κ :=
  if s.readerGone && decide (s.npend - 1 = 0) then (q.popped s).freeSlot s.id else q.popped s

section

variable (q s)

@[simp] lemma retired_ring : (q.retired s).ring = q.ring := by
  unfold retired
  split_ifs <;> rfl

@[simp] lemma retired_getix : (q.retired s).getix = q.ix 1 := by
  unfold retired
  split_ifs <;> rfl

@[simp] lemma retired_size : (q.retired s).size = q.size := by
  unfold retired
  split_ifs <;> rfl

@[simp] lemma retired_used : (q.retired s).used = q.used - 1 := by
  unfold retired
  split_ifs <;> rfl

@[simp] lemma retired_inBurst : (q.retired s).inBurst = q.inBurst := by
  unfold retired
  split_ifs <;> rfl

@[simp] lemma retired_taken : (q.retired s).taken = q.taken + 1 := by
  unfold retired
  split_ifs <;> rfl

end

lemma Core.advance (h : Core q (e :: es)) (hsub : q.sub e.id = some s) :
    q.advance = some ({ q.retired s with draining := decide (0 < es.length) }, q.getix, e.id,
      !s.readerGone) := by
  have hused := h.used_eq_length
  rw [length_cons] at hused
  obtain ⟨-, hid⟩ := sub_eq_some.1 hsub
  set q₁ : QueInner η α κ :=
    { q with getix := q.ix 1, used := q.used - 1, taken := q.taken + 1 } with hq₁
  have hrelease : q₁.release e.id = (q.retired s, !s.readerGone) := by
    have hsub₁ : q₁.sub e.id = some s := hsub
    unfold release retired popped
    rw [hsub₁, ← hid]
    dsimp only
    by_cases hpend : 0 < s.npend - 1
    · rw [if_pos hpend, if_pos hpend]
      rfl
    · rw [if_neg hpend, if_neg hpend]
      rfl
  have hretired : (q.retired s).used = es.length := by
    rw [retired_used]
    omega
  unfold QueInner.advance
  rw [if_neg (by omega), h.entryAt_getix]
  dsimp only
  rw [← hq₁, hrelease, hretired]

lemma Core.popped (h : Core q (e :: es)) (hsub : q.sub e.id = some s) :
    Core ((q.popped s).clear q.getix) es := by
  obtain ⟨hs, hid⟩ := sub_eq_some.1 hsub
  rw [← hid] at hs
  set s' : SubQ κ := { s with npend := s.npend - 1 } with hs'
  set q' := (q.popped s).clear q.getix
  have hsubs : q'.subs = q.subs.set s.id.slot.toNat (some s') := rfl
  have hused := h.used_eq
  rw [idsOf_cons, length_cons] at hused
  have hused' : q'.used = q.used - 1 := rfl
  have hcount := h.npend_eq _ s hs
  rw [idsOf_cons, hid, count_cons_self] at hcount
  have hdup : q'.nDuplicates = if 0 < s.npend - 1 then q.nDuplicates - 1 else q.nDuplicates := rfl
  have hdups : s.duplicates ≤ q.nDuplicates := by
    rw [h.sum_duplicates]
    exact le_total (mem_of_getElem? hs)
  refine ⟨h.toSlots.update s' hs rfl hsubs rfl rfl rfl rfl (h.ended _ s hs), ?_, ?_⟩
  · have hroom := h.room
    refine h.toCounts.update h.toSlots s' hs rfl ?_ ?_ hsubs ?_ ?_ ?_ rfl ?_
    · intro id hne
      rw [idsOf_cons, count_cons_of_ne (by rw [← hid]; exact Ne.symm hne)]
    · simp only [hs', hid]
      omega
    · omega
    · simp only [hused', hs']
      omega
    · rw [hdup]
      simp only [SubQ.duplicates, hs'] at hdups ⊢
      split_ifs <;> omega
    · simp only [hused', SubQ.busy, hs']
      split_ifs <;> omega
  · refine ⟨h.size_eq, (length_set ..).trans h.ring_length, ?_⟩
    have hpop := h.holds.pop
    rwa [h.ring_length] at hpop

lemma Core.retired (h : Core q (e :: es)) (hsub : q.sub e.id = some s) :
    Core ((q.retired s).clear q.getix) es := by
  obtain ⟨hs, hid⟩ := sub_eq_some.1 hsub
  rw [← hid] at hs
  have hpopped := h.popped hsub
  unfold QueInner.retired
  split_ifs with hlast
  · rw [Bool.and_eq_true, decide_eq_true_eq] at hlast
    have hget : ((q.popped s).clear q.getix).subs[s.id.slot.toNat]? =
        some (some { s with npend := s.npend - 1 }) :=
      List.getElem?_set_self (List.getElem?_eq_some_iff.1 hs).1
    have hfreed := hpopped.freeSlot hget hlast.2
    exact hfreed
  · exact hpopped

lemma get_of_retired {j t'} (ht : (q.retired s).subs[j]? = some (some t')) :
    t' = { s with npend := s.npend - 1 } ∧ j = s.id.slot.toNat ∧
        ¬ (s.readerGone = true ∧ s.npend - 1 = 0) ∨
      q.subs[j]? = some (some t') := by
  unfold retired at ht
  split_ifs at ht with hlast
  · obtain ⟨hne, ht⟩ := get_of_freeSlot ht
    rcases get_set ht with ⟨hj, -⟩ | ⟨-, ht⟩
    · exact absurd hj hne
    · exact Or.inr ht
  · rcases get_set ht with ⟨rfl, heq⟩ | ⟨-, ht⟩
    · refine Or.inl ⟨(some.inj heq).symm, rfl, ?_⟩
      simpa using hlast
    · exact Or.inr ht

lemma monitors_retired (h : Core q (e :: es)) (hsub : q.sub e.id = some s) :
    (q.retired s).monitors =
      if (q.monitors e.id).any Monitor.readerGone ∧ e.id ∉ idsOf es then
        update q.monitors e.id none
      else q.monitors := by
  obtain ⟨hs, hid⟩ := sub_eq_some.1 hsub
  rw [← hid] at hs
  have hmon : q.monitors e.id = some s.monitor := by rw [← hid]; exact monitors_self hs h.toSlots
  have hcount := h.npend_eq _ s hs
  rw [idsOf_cons, hid, count_cons_self] at hcount
  have hleft : s.npend - 1 = 0 ↔ e.id ∉ idsOf es := by
    rw [hcount, Nat.add_sub_cancel, count_eq_zero]
  have hpopped : (q.popped s).monitors = q.monitors := by
    have hsubs : (q.popped s).subs = q.subs.set s.id.slot.toNat
        (some { s with npend := s.npend - 1 }) := rfl
    have hmonitors := monitors_update _ hs h.toSlots (by rfl) hsubs
    change _ = update q.monitors s.id (some s.monitor) at hmonitors
    rwa [← monitors_self hs h.toSlots, update_eq_self] at hmonitors
  rw [hmon, any_some, retired]
  by_cases hlast : s.readerGone = true ∧ s.npend - 1 = 0
  · have hget : (q.popped s).subs[s.id.slot.toNat]? =
        some (some { s with npend := s.npend - 1 }) :=
      List.getElem?_set_self (List.getElem?_eq_some_iff.1 hs).1
    have hfree := monitors_freeSlot (h.popped hsub).toSlots hget
    have hview : s.monitor.readerGone = true ∧ e.id ∉ idsOf es := ⟨hlast.1, hleft.1 hlast.2⟩
    rw [if_pos (by simpa using hlast), if_pos hview, ← hid, ← hpopped]
    exact hfree
  · have hview : ¬ (s.monitor.readerGone = true ∧ e.id ∉ idsOf es) :=
      fun hgone => hlast ⟨hgone.1, hleft.2 hgone.2⟩
    rw [if_neg (by simpa using hlast), if_neg hview, hpopped]

end

/-! ### An entry is brought to the head -/

section

/-- The monitor after the entries in front of place `k` have gone one place back. -/
def SubQ.shifted (s : SubQ κ) (q : QueInner η α κ) (k : ℕ) : SubQ κ :=
  if 0 < s.npend && decide (wrap (s.last + q.size - q.getix) q.size < k) then
    { s with last := wrap (s.last + 1) q.size }
  else s

lemma shifted_eq (s : SubQ κ) (k : ℕ) :
    s.shifted q k = { s with last := (s.shifted q k).last } := by
  unfold SubQ.shifted
  split_ifs <;> rfl

lemma shifted_zero (s : SubQ κ) : s.shifted q 0 = s := by
  simp [SubQ.shifted]

lemma moveToHead_eq (k : ℕ) :
    q.moveToHead k = { q with
      ring := bubble q.ring q.getix k
      subs := q.subs.map (Option.map fun s => s.shifted q k) } := by
  unfold moveToHead
  by_cases hk : 0 < k
  · rw [if_pos hk]
    rfl
  · obtain rfl : k = 0 := by omega
    have hsubs : q.subs.map (Option.map fun s => s.shifted q 0) = q.subs := by
      simp only [shifted_zero]
      simp
    rw [hsubs]
    rfl

lemma get_moveToHead {k j : ℕ} {t'} (ht : (q.moveToHead k).subs[j]? = some (some t')) :
    ∃ t, q.subs[j]? = some (some t) ∧ t' = t.shifted q k := by
  rw [moveToHead_eq] at ht
  rw [getElem?_map] at ht
  obtain ⟨o, ho, ht⟩ := Option.map_eq_some_iff.1 ht
  obtain ⟨t, rfl, rfl⟩ := map_eq_some_iff.1 ht
  exact ⟨t, ho, rfl⟩

lemma get_moveToHead_of_get {k j : ℕ} {o} (ho : q.subs[j]? = some o) :
    (q.moveToHead k).subs[j]? = some (o.map fun s => s.shifted q k) := by
  rw [moveToHead_eq, getElem?_map, ho, Option.map_some]

lemma sub_moveToHead (k : ℕ) (id : AttachId) :
    (q.moveToHead k).sub id = (q.sub id).map fun s => s.shifted q k := by
  rw [moveToHead_eq]
  unfold sub subAt
  rw [getElem?_map]
  rcases q.subs[id.slot.toNat]? with _ | _ | s
  · rfl
  · rfl
  · have hid : (s.shifted q k).id = s.id := by rw [shifted_eq]
    simp only [map_some, join_some, filter_some, hid]
    split_ifs <;> rfl

lemma monitors_moveToHead (k : ℕ) : (q.moveToHead k).monitors = q.monitors := by
  funext id
  rw [monitors, monitors, sub_moveToHead, Option.map_map]
  congr 1
  funext s
  rw [comp_apply, shifted_eq]
  rfl

lemma Core.moveToHead {pre post : List (Entry η α)} {e} (h : Core q (pre ++ e :: post)) :
    Core (q.moveToHead pre.length) (e :: (pre ++ post)) := by
  have hids : (idsOf (e :: (pre ++ post))).Perm (idsOf (pre ++ e :: post)) :=
    perm_middle.symm.map Entry.id
  have htotal : ∀ f : SubQ κ → ℕ, (∀ s last, f { s with last := last } = f s) →
      total f (q.moveToHead pre.length).subs = total f q.subs := by
    intro f hf
    rw [moveToHead_eq]
    refine total_map (fun s => ?_) q.subs
    rw [shifted_eq, hf]
  set q' := q.moveToHead pre.length with hq'
  have hrest : q' = { q with ring := bubble q.ring q.getix pre.length, subs := q'.subs } := by
    rw [hq', moveToHead_eq]
  have hget : ∀ {j : ℕ} {t' : SubQ κ}, q'.subs[j]? = some (some t') →
      ∃ t last, q.subs[j]? = some (some t) ∧ t' = { t with last := last } := by
    intro j t' ht'
    obtain ⟨t, ht, rfl⟩ := get_moveToHead ht'
    exact ⟨t, _, ht, shifted_eq t _⟩
  refine ⟨⟨?_, ?_, ?_, ?_, ?_, ?_, ?_, ?_⟩, ⟨?_, ?_, ?_, ?_, ?_, ?_⟩, ?_, ?_, ?_⟩
  · rw [hq', moveToHead_eq, length_map]
    exact h.subs_length
  · intro j t' ht'
    obtain ⟨t, last, ht, rfl⟩ := hget ht'
    exact h.slot_eq j t ht
  · rw [htotal _ fun _ _ => rfl, hrest]
    exact h.quota_eq
  · rw [htotal _ fun _ _ => rfl, hrest]
    exact h.attached_lt
  · rw [hrest]
    exact h.free_nodup
  · intro i
    have hfree : q'.free = q.free := by rw [hrest]
    rw [hfree, h.mem_free, hq', moveToHead_eq, getElem?_map]
    rcases q.subs[i.toNat]? with _ | _ | s <;> simp
  · rw [htotal _ fun _ _ => rfl, hrest]
    exact h.sum_unreported
  · intro j t' ht'
    obtain ⟨t, last, ht, rfl⟩ := hget ht'
    exact h.ended j t ht
  · rw [hids.length_eq, hrest]
    exact h.used_eq
  · intro j t' ht'
    obtain ⟨t, last, ht, rfl⟩ := hget ht'
    rw [hids.count_eq]
    exact h.npend_eq j t ht
  · intro id hmem
    obtain ⟨t, ht, htid⟩ := h.owned id (hids.mem_iff.1 hmem)
    exact ⟨t.shifted q pre.length, get_moveToHead_of_get ht, by rw [shifted_eq]; exact htid⟩
  · rw [htotal _ fun _ _ => rfl, hrest]
    exact h.sum_npend
  · rw [htotal _ fun _ _ => rfl, hrest]
    exact h.sum_duplicates
  · rw [htotal _ fun _ _ => rfl, hrest]
    exact h.room
  · rw [hrest]
    exact h.size_eq
  · rw [hrest]
    exact (length_bubble ..).trans h.ring_length
  · rw [hrest]
    exact h.holds.bubble

lemma CancelledBusy.moveToHead (h : CancelledBusy q) (k : ℕ) :
    CancelledBusy (q.moveToHead k) := by
  intro j t' ht' hgone
  obtain ⟨t, ht, rfl⟩ := get_moveToHead ht'
  rw [shifted_eq] at hgone ⊢
  exact h j t ht hgone

lemma CancelledBusy.retired (h : CancelledBusy q) (s : SubQ κ) : CancelledBusy (q.retired s) := by
  intro j t' ht' hgone
  rcases get_of_retired ht' with ⟨rfl, -, hlast⟩ | ht'
  · by_contra hidle
    exact hlast ⟨hgone, Nat.le_zero.1 (Nat.not_lt.1 hidle)⟩
  · exact h j t' ht' hgone

/-- The monitors that are left when an entry has left from place `k`. -/
lemma get_of_retired_moveToHead {s t' : SubQ κ} {k j : ℕ}
    (hs : (q.moveToHead k).subs[s.id.slot.toNat]? = some (some s))
    (ht' : ((q.moveToHead k).retired s).subs[j]? = some (some t')) :
    ∃ t, q.subs[j]? = some (some t) ∧ t.id = t'.id ∧ t'.last = (t.shifted q k).last := by
  rcases get_of_retired ht' with ⟨rfl, rfl, -⟩ | ht'
  · obtain ⟨t, ht, rfl⟩ := get_moveToHead hs
    exact ⟨t, ht, by rw [shifted_eq], rfl⟩
  · obtain ⟨t, ht, rfl⟩ := get_moveToHead ht'
    exact ⟨t, ht, by rw [shifted_eq], rfl⟩

lemma shifted_last {t : SubQ κ} {k} (hpend : 0 < t.npend) :
    (t.shifted q k).last =
      if wrap (t.last + q.size - q.getix) q.size < k then wrap (t.last + 1) q.size
      else t.last := by
  unfold SubQ.shifted
  by_cases hlt : wrap (t.last + q.size - q.getix) q.size < k
  · rw [if_pos (by simp [hpend, hlt]), if_pos hlt]
  · rw [if_neg (by simp [hlt]), if_neg hlt]

/-- **The first entry of a monitor leaves**, from wherever it is. -/
theorem Inv.takeAt (pre post : List (Entry η α)) {e : Entry η α} (h : Inv q (pre ++ e :: post))
    (hfirst : e.id ∉ idsOf pre) :
    ∃ m q', q.monitors e.id = some m ∧
      (q.moveToHead pre.length).advance = some (q', q.getix, e.id, !m.readerGone) ∧
      q'.entryAt q.getix = some e ∧ Inv (q'.clear q.getix) (pre ++ post) ∧
      (q'.clear q.getix).view (pre ++ post) = (q.view (pre ++ e :: post)).retire pre e post ∧
      q'.taken = q.taken + 1 ∧ q'.inBurst = q.inBurst := by
  have hmove := h.toCore.moveToHead
  set q₁ := q.moveToHead pre.length with hq₁
  obtain ⟨s, hsub, -⟩ := hmove.sub_of_mem mem_cons_self
  obtain ⟨hs, hid⟩ := sub_eq_some.1 hsub
  rw [← hid] at hs
  have hmon : q.monitors e.id = some s.monitor := by
    rw [← monitors_moveToHead pre.length, ← hq₁, ← hid]
    exact monitors_self hs hmove.toSlots
  have hrest : q₁ = { q with ring := q₁.ring, subs := q₁.subs } := by rw [hq₁, moveToHead_eq]
  have hgetix : q₁.getix = q.getix := by rw [hrest]
  refine ⟨s.monitor, { q₁.retired s with draining := decide (0 < (pre ++ post).length) }, hmon,
    ?_, ?_, ⟨?_, ?_, ?_⟩, ?_, ?_, ?_⟩
  · rw [hmove.advance hsub, hgetix]
    rfl
  · rw [← hgetix, ← hmove.entryAt_getix]
    unfold entryAt
    rw [retired_ring]
  · have hcore := (hmove.retired hsub).flags (decide (0 < (pre ++ post).length))
      (q₁.retired s).inBurst (q₁.retired s).taken
    rwa [hgetix] at hcore
  · have hids : idsOf (pre ++ e :: post) = idsOf pre ++ e.id :: idsOf post := by simp
    have hlasts := h.lasts
    have hlen := h.used_lt_size
    rw [hids] at hlasts
    rw [h.used_eq, hids] at hlen
    have hhead : q.getix < q.size := by
      rw [← h.ring_length]
      exact h.holds.head_lt
    rw [idsOf_append]
    refine hlasts.erase hhead (Nat.le_of_lt hlen) hfirst ?_ ?_ ?_
    · change (q₁.retired s).getix = q.ix 1
      rw [retired_getix, hrest]
      rfl
    · change (q₁.retired s).size = q.size
      rw [retired_size, hrest]
    · intro j t' ht'
      obtain ⟨t, ht, htid, hlast⟩ := get_of_retired_moveToHead hs ht'
      refine ⟨t, ht, htid, fun hmem => ?_⟩
      rw [← hids, h.mem_ids_iff ht] at hmem
      rw [hlast, shifted_last hmem, length_idsOf]
  · exact (h.cancelled.moveToHead pre.length).retired s
  · have hmonitors := monitors_retired hmove hsub
    rw [hq₁, monitors_moveToHead] at hmonitors
    exact congrArg (View.mk (pre ++ post)) hmonitors
  · change (q₁.retired s).taken = q.taken + 1
    rw [retired_taken, hrest]
  · change (q₁.retired s).inBurst = q.inBurst
    rw [retired_inBurst, hrest]

end

/-! ### The reads of the circuit -/

def CircuitEvent.obs : CircuitEvent η α κ → Obs η α
  | .event id _ _ log _ => .delivered id log
  | .ended id => .ended id

/-- Entries have left at the head of the queue, and were counted. -/
structure Drains (q : QueInner η α κ) (es : List (Entry η α)) (q' : QueInner η α κ)
    (es' : List (Entry η α)) : Prop where
  inv : Inv q' es'
  suffix : ∃ gone, es = gone ++ es' ∧ q'.taken = q.taken + gone.length
  inBurst_eq : q'.inBurst = q.inBurst

lemma Drains.refl (h : Inv q es) : Drains q es q es := ⟨h, ⟨[], rfl, rfl⟩, rfl⟩

lemma Drains.trans {q₁ es₁ es'} (h : Drains q es q₁ es₁) (h' : Drains q₁ es₁ q' es')
    : Drains q es q' es' := by
  obtain ⟨-, ⟨gone, rfl, htaken⟩, hburst⟩ := h
  obtain ⟨hinv, ⟨gone', rfl, htaken'⟩, hburst'⟩ := h'
  refine ⟨hinv, ⟨gone ++ gone', (append_assoc ..).symm, ?_⟩, hburst'.trans hburst⟩
  rw [htaken', htaken, length_append, Nat.add_assoc]

lemma Inv.takeHead {e : Entry η α} (h : Inv q (e :: es)) :
    ∃ m q', q.monitors e.id = some m ∧ q.advance = some (q', q.getix, e.id, !m.readerGone) ∧
      q'.entryAt q.getix = some e ∧ Drains q (e :: es) (q'.clear q.getix) es ∧
      (q'.clear q.getix).view es = (q.view (e :: es)).retire [] e es := by
  obtain ⟨m, q', hmon, hadvance, hentry, hinv, hview, htaken, hburst⟩ :=
    Inv.takeAt [] es h not_mem_nil
  exact ⟨m, q', hmon, hadvance, hentry, ⟨hinv, ⟨[e], rfl, htaken⟩, hburst⟩, hview⟩

lemma advance_nil (h : Inv q []) : q.advance = none := by
  have hused : q.used = 0 := h.used_eq_length
  rw [advance, if_pos hused]

lemma monitors_of_retire {e m} (pre post : List (Entry η α)) (hmon : q.monitors e.id = some m)
    (hlive : m.readerGone = false) (hview : q'.view (pre ++ post) = (q.view es).retire pre e post) :
    q'.monitors = q.monitors := by
  have hmonitors := congrArg View.monitors hview
  rw [View.retire] at hmonitors
  rw [if_neg] at hmonitors
  · exact hmonitors
  · rintro ⟨hgone, -⟩
    have hgone' : (q.monitors e.id).any Monitor.readerGone = true := hgone
    rw [hmon, any_some, hlive] at hgone'
    exact absurd hgone' nofun

/-- The loop of `take_oldest`: entries of cancelled monitors are dropped, up to one that is not. -/
lemma Inv.takeOldestLoop (n : ℕ) : ∀ {q : QueInner η α κ} {es}, Inv q es →
    es.length ≤ n → ∃ es', Drains q es (q.takeOldestLoop n).1 es' ∧
      Trace (q.view es) ((q.takeOldestLoop n).2.map CircuitEvent.obs).toList
        ((q.takeOldestLoop n).1.view es') ∧
      ((q.takeOldestLoop n).2 = none → es' = []) ∧
      ((q.takeOldestLoop n).2 ≠ none → es'.length < es.length) := by
  induction n with
  | zero =>
    intro q es h hlen
    obtain rfl : es = [] := length_eq_zero_iff.1 (Nat.le_zero.1 hlen)
    exact ⟨[], Drains.refl h, Trace.refl _, fun _ => rfl, fun hr => absurd rfl hr⟩
  | succ n ih =>
    intro q es h hlen
    unfold QueInner.takeOldestLoop
    cases es with
    | nil =>
      rw [advance_nil h]
      exact ⟨[], Drains.refl h, Trace.refl _, fun _ => rfl, fun hr => absurd rfl hr⟩
    | cons e es =>
      obtain ⟨m, q', hmon, hadvance, hentry, hdrains, hview⟩ := h.takeHead
      rw [hadvance]
      dsimp only
      cases hgone : m.readerGone with
      | false =>
        -- a live entry: its monitor is still there
        have hmonitors := monitors_of_retire [] es hmon hgone hview
        have hmon' : q'.monitors e.id = some m := by
          rw [← hmon, ← hmonitors]
          rfl
        obtain ⟨s, hsub, -⟩ := map_eq_some_iff.1 hmon'
        rw [hsub, hentry, Bool.not_false, if_pos rfl]
        refine ⟨es, hdrains, ?_, nofun, fun _ => Nat.lt_succ_self _⟩
        rw [hview]
        have hstep : Step (q.view (e :: es)) [.delivered e.id e.log]
            ((q.view (e :: es)).retire [] e es) := Step.deliver rfl not_mem_nil
        exact Trace.single hstep
      | true =>
        obtain ⟨es', hdrains', htrace, hnone, hsome⟩ :=
          ih hdrains.inv (Nat.le_of_succ_le_succ hlen)
        refine ⟨es', hdrains.trans hdrains', ?_, hnone, fun hr => Nat.lt_succ_of_lt (hsome hr)⟩
        rw [hview] at htrace
        exact Trace.head (Step.drop rfl hmon hgone) htrace

/-- **The read of the oldest entry.**  Nothing is found only when nothing is left, or when the gate
is closed; what is found has left the ring. -/
theorem Inv.takeOldest (h : Inv q es) (flowOn : Bool) :
    ∃ es', Drains q es (q.takeOldest flowOn).1 es' ∧
      Trace (q.view es) ((q.takeOldest flowOn).2.map CircuitEvent.obs).toList
        ((q.takeOldest flowOn).1.view es') ∧
      ((q.takeOldest flowOn).2 = none → es' = [] ∨
        (q.takeOldest flowOn).1 = q ∧ q.mayDrain flowOn = false) ∧
      ((q.takeOldest flowOn).2 ≠ none → es'.length < es.length) := by
  unfold QueInner.takeOldest
  split_ifs with hshut
  · refine ⟨es, Drains.refl h, Trace.refl _, fun _ => ?_, fun hr => absurd rfl hr⟩
    rw [Bool.or_eq_true, decide_eq_true_eq, Bool.not_eq_true'] at hshut
    rcases hshut with hused | hgate
    · refine Or.inl (length_eq_zero_iff.1 ?_)
      rw [← h.used_eq_length, hused]
    · exact Or.inr ⟨rfl, hgate⟩
  · obtain ⟨es', hdrains, htrace, hnone, hsome⟩ :=
      Inv.takeOldestLoop q.used (h.flags true q.inBurst q.taken) (Nat.le_of_eq h.used_eq_length.symm)
    exact ⟨es', ⟨hdrains.inv, hdrains.suffix, hdrains.inBurst_eq⟩, htrace,
      fun hr => Or.inl (hnone hr), hsome⟩

/-- **The end of a monitor is reported**, when nothing is queued for it.  Nothing is found only when
there is no such monitor. -/
theorem Inv.takeEnded (h : Inv q es) :
    Inv q.takeEnded.1 es ∧
      Trace (q.view es) (q.takeEnded.2.map CircuitEvent.obs).toList (q.takeEnded.1.view es) ∧
      (q.takeEnded.2 = none → q.takeEnded.1 = q ∧
        ∀ (i : ℕ) (s : SubQ κ), q.subs[i]? = some (some s) → s.producerGone = true →
          s.endReported = false → 0 < s.npend) := by
  unfold QueInner.takeEnded
  by_cases hzero : q.unreportedEnds = 0
  · rw [if_pos hzero]
    refine ⟨h, Trace.refl _, fun _ => ⟨rfl, fun i s hs hgone hend => ?_⟩⟩
    have hle := le_total (f := SubQ.unreported) (mem_of_getElem? hs)
    rw [← h.sum_unreported, hzero, SubQ.unreported, hgone, hend] at hle
    exact absurd hle (by decide)
  rw [if_neg hzero]
  cases hfind : q.subs.findIdx? fun o =>
      o.any fun s => s.producerGone && !s.endReported && decide (s.npend = 0) with
  | none =>
    refine ⟨h, Trace.refl _, fun _ => ⟨rfl, fun i s hs hgone hend => ?_⟩⟩
    have hall := findIdx?_eq_none_iff.1 hfind (some s) (mem_of_getElem? hs)
    rw [any_some, hgone, hend] at hall
    exact Nat.pos_of_ne_zero (by simpa using hall)
  | some i =>
    obtain ⟨hlt, hany, -⟩ := findIdx?_eq_some_iff_getElem.1 hfind
    obtain ⟨s, hsi, hs⟩ := (Option.any_eq_true ..).1 hany
    have hget : q.subs[i]? = some (some s) := by rw [getElem?_eq_getElem hlt, hsi]
    rw [Bool.and_eq_true, Bool.and_eq_true, Bool.not_eq_true', decide_eq_true_eq] at hs
    obtain ⟨⟨hgone, hend⟩, hidle⟩ := hs
    dsimp only
    rw [get_iff_subAt.1 hget]
    set s' : SubQ κ := { s with endReported := true } with hs'
    set q' : QueInner η α κ := { q with
      subs := q.subs.set i (some s')
      unreportedEnds := q.unreportedEnds - 1 }
    have hsubs : q'.subs = q.subs.set i (some s') := rfl
    refine ⟨?_, ?_, by simp⟩
    · refine h.setFlags s' hget rfl rfl rfl (h.cancelled i s hget) (fun _ => hgone) hsubs ?_ rfl
      have hbefore : s.unreported = 1 := by simp [SubQ.unreported, hgone, hend]
      have hafter : s'.unreported = 0 := by simp [SubQ.unreported, hs']
      rw [hbefore, hafter]
      exact Nat.sub_add_cancel (Nat.pos_of_ne_zero hzero)
    · rw [view_set (monitors_update s' hget h.toSlots rfl hsubs)]
      refine Trace.single (Step.finish (m := s.monitor) (monitors_self hget h.toSlots) hgone hend ?_)
      intro hmem
      exact Nat.ne_of_gt ((h.mem_ids_iff hget).1 hmem) hidle

/-! ### The reads of one monitor -/

lemma Inv.dropCancelled (n : ℕ) : ∀ {q : QueInner η α κ} {es}, Inv q es →
    ∃ es', Inv (q.dropCancelled n) es' ∧
      Trace (q.view es) [] ((q.dropCancelled n).view es') := by
  induction n with
  | zero => exact fun h => ⟨_, h, Trace.refl _⟩
  | succ n ih =>
    intro q es h
    unfold QueInner.dropCancelled
    cases es with
    | nil =>
      have hused : q.used = 0 := h.used_eq_length
      rw [if_pos hused]
      exact ⟨[], h, Trace.refl _⟩
    | cons e es =>
      have hused : q.used ≠ 0 := by rw [h.used_eq_length]; exact Nat.succ_ne_zero _
      rw [if_neg hused, h.entryAt_getix]
      dsimp only
      split_ifs with hlive
      · exact ⟨e :: es, h, Trace.refl _⟩
      · obtain ⟨m, q', hmon, hadvance, -, hdrains, hview⟩ := h.takeHead
        rw [hadvance]
        obtain ⟨es', hinv, htrace⟩ := ih hdrains.inv
        refine ⟨es', hinv, ?_⟩
        rw [hview] at htrace
        refine Trace.head (Step.drop rfl hmon ?_) htrace
        obtain ⟨s, hsub, rfl⟩ := map_eq_some_iff.1 hmon
        rw [hsub, any_some] at hlive
        change s.readerGone = true
        simpa using hlive

lemma Core.find_first (h : Core q es) (id : AttachId) {k : ℕ}
    (hk : (range q.used).find? (fun k => (q.entryAt (q.ix k)).any fun e => e.id = id) = some k) :
    ∃ pre e post, es = pre ++ e :: post ∧ pre.length = k ∧ e.id = id ∧ id ∉ idsOf pre := by
  obtain ⟨hfound, hrange, hbefore⟩ := find?_range_eq_some.1 hk
  rw [mem_range, h.used_eq_length] at hrange
  rw [h.entryAt_ix hrange, getElem?_eq_getElem hrange, any_some,
    decide_eq_true_eq] at hfound
  have hlen : (es.take k).length = k := by rw [length_take]; omega
  refine ⟨es.take k, es[k], es.drop (k + 1), ?_, hlen, hfound, ?_⟩
  · rw [getElem_cons_drop, take_append_drop]
  · intro hmem
    obtain ⟨e, he, rfl⟩ := mem_map.1 hmem
    obtain ⟨j, hj⟩ := mem_iff_getElem?.1 he
    rw [getElem?_take] at hj
    split_ifs at hj with hjk
    have hnot := hbefore j hjk
    rw [h.entryAt_ix (by omega), hj] at hnot
    simp at hnot

theorem Inv.takeFor (h : Inv q es) (id : AttachId) :
    Refines q es ((q.takeFor id).2.map (Obs.delivered id)).toList (q.takeFor id).1 := by
  obtain ⟨es₁, hinv, htrace⟩ := Inv.dropCancelled q.used h
  unfold QueInner.takeFor
  set q₁ := q.dropCancelled q.used
  dsimp only
  cases hk : (range q₁.used).find? fun k => (q₁.entryAt (q₁.ix k)).any fun e => e.id = id with
  | none => exact ⟨es₁, hinv, htrace⟩
  | some k =>
    obtain ⟨pre, e, post, rfl, rfl, rfl, hfirst⟩ := hinv.toCore.find_first id hk
    obtain ⟨m, q', -, hadvance, hentry, hinv', hview, -⟩ := Inv.takeAt _ _ hinv hfirst
    dsimp only
    rw [hadvance]
    dsimp only
    rw [hentry]
    refine ⟨pre ++ post, hinv', ?_⟩
    have hstep : Step (q₁.view (pre ++ e :: post)) [.delivered e.id e.log]
        ((q'.clear q₁.getix).view (pre ++ post)) := by
      rw [hview]
      exact Step.deliver rfl hfirst
    exact htrace.trans (Trace.single hstep)

end EventQueue
