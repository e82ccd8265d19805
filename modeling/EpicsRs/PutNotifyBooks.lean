/-
**The books of the put-callbacks.**

A wait-set counts the records whose slot holds it and the holds from outside.  Every action moves
the count and the slots together; a set whose member goes away without leaving it is spoiled.  The
books are right because a put with an open claim finds its slot as it left it.

Main result: `PutNotify.State.step_books`.
-/

import EpicsRs.PutNotify

set_option autoImplicit false

namespace PutNotify

open SlotCount Function List Option

/-! ### Wait-sets -/

namespace WaitSet

variable {ι : Type}

/-- What was sent: the completion at most once; not before the set is empty, and then unless the put
failed. -/
structure Told (w : WaitSet ι) : Prop where
  once : w.sent + w.tx.toNat ≤ 1
  last : w.spoiled = false → w.pending = 0 → w.tx = false
  told : w.spoiled = false → w.tx = false → w.sent = 1 ∨ w.failed = true

lemma told_new (entry : Option ι) (holds : ℕ) : Told (new entry holds) :=
  ⟨Nat.le_refl 1, nofun, nofun⟩

variable {w : WaitSet ι}

lemma Told.enter (h : Told w) : Told w.enter := ⟨h.once, fun _ => nofun, h.told⟩

lemma Told.fail (h : Told w) : Told w.fail := ⟨h.once, h.last, fun _ _ => .inr rfl⟩

lemma Told.close (h : Told w) : Told w.close := ⟨h.once, h.last, h.told⟩

lemma Told.spoil (h : Told w) : Told w.spoil := ⟨h.once, nofun, nofun⟩

lemma Told.abandon (h : Told w) : Told w.abandon :=
  ⟨Nat.le_trans (Nat.add_le_add_left (Nat.zero_le _) _) h.once, nofun, nofun⟩

lemma told_fire (honce : w.sent + w.tx.toNat ≤ 1)
    (htold : w.spoiled = false → w.tx = false → w.sent = 1 ∨ w.failed = true) : Told w.fire := by
  cases htx : w.tx with
  | false =>
    refine ⟨?_, fun _ _ => rfl, fun hs _ => ?_⟩
    · simpa [fire, htx] using honce
    · simpa [fire, htx] using htold hs htx
  | true =>
    have hsent : w.sent = 0 := by simpa [htx] using honce
    cases hf : w.failed with
    | false =>
      exact ⟨by simp [fire, htx, hf, hsent], fun _ _ => rfl,
        fun _ _ => .inl (by simp [fire, htx, hf, hsent])⟩
    | true => exact ⟨by simp [fire, htx, hf, hsent], fun _ _ => rfl, fun _ _ => .inr hf⟩

lemma wrapPred_eq_zero {n} (h : wrapPred n = 0) : n = 1 := by
  cases n with
  | zero => simp [wrapPred] at h
  | succ n => rw [show n = 0 from h]

lemma wrapPred_of_pos {n} (h : 0 < n) : wrapPred n = n - 1 := by
  cases n with
  | zero => exact absurd h (Nat.lt_irrefl 0)
  | succ n => rfl

lemma Told.leave (h : Told w) : Told w.leave := by
  unfold WaitSet.leave
  split
  · exact told_fire h.once h.told
  · rename_i hone
    exact ⟨h.once, fun _ hz => absurd (wrapPred_eq_zero hz) hone, h.told⟩

lemma Told.hold (h : Told w) : Told w.hold := ⟨h.once, fun _ => nofun, h.told⟩

def unheld (w : WaitSet ι) : WaitSet ι := { w with holds := 0 }

lemma Told.unheld (h : Told w) : Told w.unheld := ⟨h.once, h.last, h.told⟩

lemma Told.release (h : Told w) : Told w.release := ⟨h.leave.once, h.leave.last, h.leave.told⟩

lemma pending_leave (w : WaitSet ι) : w.leave.pending = wrapPred w.pending := by
  unfold leave
  split <;> rfl

lemma holds_leave (w : WaitSet ι) : w.leave.holds = w.holds := by
  unfold leave
  split <;> rfl

lemma spoiled_leave (w : WaitSet ι) : w.leave.spoiled = w.spoiled := by
  unfold leave
  split <;> rfl

lemma joinedRecords_leave (w : WaitSet ι) : w.leave.joinedRecords = w.joinedRecords := by
  unfold leave
  split <;> rfl

/-- Only the `leave` that empties the set sends. -/
lemma sent_leave (w : WaitSet ι) : w.leave.sent = w.sent ∨ w.leave.pending = 0 := by
  unfold leave
  split
  · rename_i hone
    exact .inr (by simp [fire, hone, wrapPred])
  · exact .inl rfl

variable [DecidableEq ι]

/-- `record_joined` names the record and changes nothing else. -/
lemma mem_joinedRecords_recordJoined (w : WaitSet ι) (r : ι) :
    r ∈ (w.recordJoined r).joinedRecords := by
  unfold recordJoined joinedRecords
  split
  · rename_i he
    simp [he]
  · simp

lemma joinedRecords_subset_recordJoined (w : WaitSet ι) (r : ι) {m} (h : m ∈ w.joinedRecords)
    : m ∈ (w.recordJoined r).joinedRecords := by
  unfold recordJoined
  split
  · exact h
  · rw [joinedRecords, ← append_assoc]
    exact mem_append_left _ h

lemma recordJoined_fields (w : WaitSet ι) (r : ι) :
    (w.recordJoined r).pending = w.pending ∧ (w.recordJoined r).holds = w.holds ∧
      (w.recordJoined r).spoiled = w.spoiled ∧ (w.recordJoined r).sent = w.sent := by
  unfold recordJoined
  split <;> exact ⟨rfl, rfl, rfl, rfl⟩

lemma Told.recordJoined (h : Told w) (r : ι) : Told (w.recordJoined r) := by
  unfold WaitSet.recordJoined
  split
  · exact h
  · exact ⟨h.once, h.last, h.told⟩

end WaitSet

/-! ### The order of requests -/

namespace Rec

/-- The requests taken up, and after them those on the restart list, are all that arrived, in order. -/
def Ordered (x : Rec) : Prop :=
  x.destroyed = false → x.started ++ x.restart.map Request.ticket = List.range x.arrived

variable {x : Rec}

lemma Ordered.queue (h : Ordered x) (kind : Kind) : Ordered (x.queue kind) := fun hd => by
  simp only [Rec.queue, map_append, map_cons, map_nil, range_succ]
  rw [← append_assoc, h hd]

lemma Ordered.admitFresh (h : Ordered x) (hnone : x.restart = []) : Ordered x.admitFresh :=
  fun hd => by
    have hstarted : x.started = range x.arrived := by simpa [hnone] using h hd
    simp [Rec.admitFresh, hnone, hstarted, range_succ]

lemma Ordered.popNext (h : Ordered x) : Ordered x.popNext := fun hd => by
  have hall := h hd
  unfold Rec.popNext
  cases hr : x.restart with
  | nil => simpa [hr] using hall
  | cons q qs => simpa [hr] using hall

lemma Ordered.applyExit (h : Ordered x) (exit : Bool) : Ordered (x.applyExit exit) := by
  cases exit <;> exact h

lemma ordered_destroy (x : Rec) : Ordered x.destroy := nofun

lemma restart_of_not_owned (h : ¬ x.owned = true) : x.slot = none ∧ x.restart = [] := by
  simp only [owned, restartPending, Bool.or_eq_true, not_or] at h
  exact ⟨by simpa using h.1.1, by simpa using h.2⟩

end Rec

/-! ### The books -/

namespace State

variable {ι : Type} [DecidableEq ι]

lemma slots_setRec (s : State ι) (r : ι) (x : Rec) :
    (s.setRec r x).slots = update s.slots r x.slot := by
  funext m
  by_cases hm : m = r
  · subst hm
    simp [slots]
  · simp [slots, update_of_ne hm]

variable [Fintype ι]

structure Books (s : State ι) : Prop where
  made : ∀ {r w}, s.slots r = some w → w < s.made
  named : ∀ {r w}, s.slots r = some w → r ∈ (s.sets w).joinedRecords
  told : ∀ w < s.made, (s.sets w).Told
  count : ∀ w < s.made, (s.sets w).spoiled = false →
    (s.sets w).pending = holders s.slots w + (s.sets w).holds
  claimed : ∀ {r w}, (s.recs r).claim = some w → s.slots r = some w
  ordered : ∀ r, (s.recs r).Ordered

omit [DecidableEq ι] in
lemma books_init : Books (init : State ι) where
  made h := nomatch h
  named h := nomatch h
  told _ h := absurd h (Nat.not_lt_zero _)
  count _ h := absurd h (Nat.not_lt_zero _)
  claimed h := nomatch h
  ordered _ _ := rfl

variable {s : State ι} {r : ι} {x : Rec} {w : ℕ} {f : WaitSet ι → WaitSet ι}

omit [Fintype ι] [DecidableEq ι] in
lemma forall_sets_mapSet {p : ℕ → WaitSet ι → Prop} (hother : ∀ k, k ≠ w → p k (s.sets k))
    (hw : p w (f (s.sets w))) (k : ℕ) :
    p k ((s.mapSet w f).sets k) := by
  by_cases hk : k = w
  · subst hk
    rw [sets_mapSet, update_self]
    exact hw
  · rw [sets_mapSet, update_of_ne hk]
    exact hother k hk

omit [Fintype ι] in
lemma forall_recs_setRec {p : ι → Rec → Prop} (hother : ∀ m, m ≠ r → p m (s.recs m)) (hx : p r x)
    (m : ι) : p m ((s.setRec r x).recs m) := by
  by_cases hm : m = r
  · subst hm
    rw [recs_setRec, update_self]
    exact hx
  · rw [recs_setRec, update_of_ne hm]
    exact hother m hm

/-- **One set and the slot of one record change**, and the slot holds that set before and after, or
nothing. -/
theorem Books.change (h : Books s) (hother : ∀ k, k ≠ w → s.slots r ≠ some k ∧ x.slot ≠ some k)
    (hmade : x.slot = some w → w < s.made)
    (hjoined : ∀ m ∈ (s.sets w).joinedRecords, m ∈ (f (s.sets w)).joinedRecords)
    (hnamed : x.slot = some w → r ∈ (f (s.sets w)).joinedRecords)
    (htold : (s.sets w).Told → (f (s.sets w)).Told)
    (hcount : w < s.made → (f (s.sets w)).spoiled = false →
      (f (s.sets w)).pending = holders (update s.slots r x.slot) w + (f (s.sets w)).holds)
    (hclaim : ∀ k, x.claim = some k → x.slot = some k) (hordered : x.Ordered) :
    Books ((s.mapSet w f).setRec r x) := by
  have hslots : ((s.mapSet w f).setRec r x).slots = update s.slots r x.slot :=
    slots_setRec _ r x
  have hset : ∀ k, x.slot = some k → k = w := fun k hk => by_contra fun hne => (hother k hne).2 hk
  constructor
  case made =>
    intro m k
    refine forall_recs_setRec (s := s.mapSet w f) (p := fun _ y => y.slot = some k → k < s.made)
      (fun m _ hm => h.made hm) (fun hm => ?_) m
    obtain rfl := hset k hm
    exact hmade hm
  case named =>
    intro m k
    refine forall_recs_setRec (s := s.mapSet w f)
      (p := fun m y => y.slot = some k → m ∈ ((s.mapSet w f).sets k).joinedRecords)
      (fun m _ => ?_) (fun hm => ?_) m
    · exact forall_sets_mapSet (p := fun k v => s.slots m = some k → m ∈ v.joinedRecords)
        (fun k _ hm => h.named hm) (fun hm => hjoined m (h.named hm)) k
    · obtain rfl := hset k hm
      rw [sets_mapSet, update_self]
      exact hnamed hm
  case told =>
    exact forall_sets_mapSet (p := fun k v => k < s.made → v.Told) (fun k _ => h.told k)
      (fun hw => htold (h.told w hw))
  case count =>
    rw [hslots]
    refine forall_sets_mapSet (p := fun k v => k < s.made → v.spoiled = false →
      v.pending = holders (update s.slots r x.slot) k + v.holds) (fun k hk => ?_) hcount
    obtain ⟨hold, hnew⟩ := hother k hk
    rw [holders_update_of_ne hold hnew]
    exact h.count k
  case claimed =>
    intro m k
    exact forall_recs_setRec (s := s.mapSet w f) (p := fun _ y => y.claim = some k → y.slot = some k)
      (fun m _ hm => h.claimed hm) (hclaim k) m
  case ordered =>
    exact forall_recs_setRec (s := s.mapSet w f) (p := fun _ y => y.Ordered)
      (fun m _ => h.ordered m) hordered

omit [Fintype ι] [DecidableEq ι] in
lemma mapSet_id (s : State ι) (w : ℕ) : s.mapSet w id = s := by
  simp [mapSet]

lemma Books.setRec (h : Books s) (hslot : x.slot = (s.recs r).slot)
    (hclaim : ∀ k, x.claim = some k → x.slot = some k) (hordered : x.Ordered) :
    Books (s.setRec r x) := by
  have hsame : update s.slots r x.slot = s.slots := by
    rw [hslot]
    exact update_eq_self r s.slots
  have hone : ∃ w, ∀ k, x.slot = some k → k = w := by
    cases x.slot with
    | none => exact ⟨0, nofun⟩
    | some w => exact ⟨w, fun k hk => (some.inj hk).symm⟩
  obtain ⟨w, hone⟩ := hone
  rw [← mapSet_id s w]
  refine h.change (fun k hk => ⟨fun he => hk (hone k (hslot.trans he)), fun he => hk (hone k he)⟩)
    (fun hx => h.made (hslot.symm.trans hx)) (fun m hm => hm)
    (fun hx => h.named (hslot.symm.trans hx)) id (fun hw hs => ?_) hclaim hordered
  rw [hsame]
  exact h.count w hw hs

omit [DecidableEq ι] in
lemma Books.mapSet (h : Books s)
    (hjoined : (f (s.sets w)).joinedRecords = (s.sets w).joinedRecords)
    (htold : (s.sets w).Told → (f (s.sets w)).Told)
    (hcount : w < s.made → (f (s.sets w)).spoiled = false →
      (f (s.sets w)).pending = holders s.slots w + (f (s.sets w)).holds) :
    Books (s.mapSet w f) where
  made hm := h.made hm
  named := fun {m _} => forall_sets_mapSet (p := fun k v => s.slots m = some k → m ∈ v.joinedRecords)
    (fun _ _ hm => h.named hm) (fun hm => hjoined ▸ h.named hm) _
  told := forall_sets_mapSet (p := fun k v => k < s.made → v.Told) (fun k _ => h.told k)
    (fun hw => htold (h.told w hw))
  count := forall_sets_mapSet (p := fun k v => k < s.made → v.spoiled = false →
    v.pending = holders s.slots k + v.holds) (fun k _ => h.count k) hcount
  claimed hm := h.claimed hm
  ordered := h.ordered

omit [DecidableEq ι] in
lemma Books.newSet (h : Books s) (entry : Option ι) : Books (s.newSet entry 1) := by
  have hnew : holders s.slots s.made = 0 :=
    holders_eq_zero_iff.2 fun m hm => Nat.lt_irrefl _ (h.made hm)
  constructor
  case made => exact fun hm => Nat.lt_succ_of_lt (h.made hm)
  case named =>
    intro m k hm
    have hne : k ≠ s.made := Nat.ne_of_lt (h.made hm)
    rw [sets_newSet, update_of_ne hne]
    exact h.named hm
  case told =>
    intro k hk
    by_cases hne : k = s.made
    · rw [hne, sets_newSet, update_self]
      exact WaitSet.told_new entry 1
    · rw [sets_newSet, update_of_ne hne]
      exact h.told k (Nat.lt_of_le_of_ne (Nat.le_of_lt_succ hk) hne)
  case count =>
    intro k hk
    by_cases hne : k = s.made
    · intro _
      rw [hne, sets_newSet, update_self]
      show 1 = holders s.slots s.made + 1
      rw [hnew]
    · rw [sets_newSet, update_of_ne hne]
      exact h.count k (Nat.lt_of_le_of_ne (Nat.le_of_lt_succ hk) hne)
  case claimed => exact fun hm => h.claimed hm
  case ordered => exact h.ordered

omit [Fintype ι] [DecidableEq ι] in
lemma mapSet_mapSet (s : State ι) (w : ℕ) (f g : WaitSet ι → WaitSet ι) :
    (s.mapSet w f).mapSet w g = s.mapSet w (g ∘ f) := by
  simp [State.mapSet]

omit [Fintype ι] in
lemma install_eq (s : State ι) (r : ι) (x : Rec) :
    s.install r x = ((s.newSet (some r) 1).mapSet s.made
      (fun v => v.unheld.recordJoined r)).setRec r (x.take s.made) := by
  simp [State.install, State.takeSlot, State.newSet, State.mapSet, WaitSet.new, WaitSet.unheld]

lemma Books.install (h : Books s) (hfree : (s.recs r).slot = none)
    (hclaim : ∀ k, x.claim = some k → k = s.made) (hordered : x.Ordered) : Books (s.install r x) := by
  have hnew : holders s.slots s.made = 0 :=
    holders_eq_zero_iff.2 fun m hm => Nat.lt_irrefl _ (h.made hm)
  rw [install_eq]
  refine (h.newSet (some r)).change (fun k hk => ⟨?_, fun he => hk (some.inj he).symm⟩)
    (fun _ => Nat.lt_succ_self _) (fun m hm => ?_) (fun _ => WaitSet.mem_joinedRecords_recordJoined _ r)
    (fun ht => ht.unheld.recordJoined r) (fun _ _ => ?_)
    (fun k hk => congrArg some (hclaim k hk).symm) hordered
  · rw [show (s.newSet (some r) 1).slots r = none from hfree]
    nofun
  · exact WaitSet.joinedRecords_subset_recordJoined _ r hm
  · have hslots : (s.newSet (some r) 1).slots = s.slots := rfl
    have hfree : s.slots r = none := hfree
    obtain ⟨hp, hh, -, -⟩ := WaitSet.recordJoined_fields ((s.newSet (some r) 1).sets s.made).unheld r
    rw [hp, hh, hslots, Rec.take, holders_fill (hfree ▸ nofun), hnew, sets_newSet, update_self]
    rfl

lemma Books.join (h : Books s) (hw : w < s.made) : Books (s.join r w) := by
  unfold State.join
  split
  · exact h
  · rename_i hs
    have hfree : s.slots r = none := by simpa [slots] using hs
    rw [State.takeSlot, mapSet_mapSet]
    obtain ⟨hp, hh, hsp, -⟩ := WaitSet.recordJoined_fields (s.sets w).enter r
    refine h.change (fun k hk => ⟨?_, fun he => hk (some.inj he).symm⟩) (fun _ => hw)
      (fun m hm => WaitSet.joinedRecords_subset_recordJoined _ r hm)
      (fun _ => WaitSet.mem_joinedRecords_recordJoined _ r) (fun ht => ht.enter.recordJoined r)
      (fun hw hs => ?_) (fun k hk => ?_) (h.ordered r)
    · rw [hfree]
      nofun
    · have hcount := h.count w hw (hsp.symm.trans hs)
      rw [comp_apply, hp, hh, Rec.take, holders_fill (hfree ▸ nofun)]
      show (s.sets w).pending + 1 = _ + (s.sets w).holds
      omega
    · exact absurd (hfree.symm.trans (h.claimed hk)) nofun

lemma Books.leaveSlot (h : Books s) (hclaim : x.claim = none) (hordered : x.Ordered) :
    Books (s.leaveSlot r x) := by
  have hnone : ∀ k, x.vacate.claim = some k → x.vacate.slot = some k :=
    fun k hk => absurd (hclaim.symm.trans hk) nofun
  unfold State.leaveSlot
  cases hr : (s.recs r).slot with
  | none => exact h.setRec hr.symm hnone hordered
  | some w =>
    have hslot : s.slots r = some w := hr
    refine h.change (fun k hk => ⟨fun he => hk ?_, nofun⟩) nofun (fun m hm => ?_) nofun
      (fun ht => ht.leave) (fun hw hs => ?_) hnone hordered
    · exact some.inj (he.symm.trans hslot)
    · rwa [WaitSet.joinedRecords_leave]
    · have hcount := h.count w hw ((WaitSet.spoiled_leave _).symm.trans hs)
      have hholders := holders_drop (x := none) hslot nofun
      rw [WaitSet.pending_leave, WaitSet.holds_leave, WaitSet.wrapPred_of_pos (by omega), hcount]
      show _ = holders (update s.slots r none) w + _
      omega

lemma Books.spoil (h : Books s) (hr : s.slots r = some w)
    (hjoined : (f (s.sets w)).joinedRecords = (s.sets w).joinedRecords)
    (htold : (s.sets w).Told → (f (s.sets w)).Told) (hspoiled : (f (s.sets w)).spoiled = true)
    (hslot : x.slot = none) (hclaim : x.claim = none) (hordered : x.Ordered) :
    Books ((s.mapSet w f).setRec r x) := by
  refine h.change (fun k hk => ⟨fun he => hk ?_, fun he => ?_⟩) (fun he => ?_) (fun m hm => ?_)
    (fun he => ?_) htold (fun _ hs => ?_) (fun k hk => ?_) hordered
  · exact some.inj (he.symm.trans hr)
  · exact absurd (hslot.symm.trans he) nofun
  · exact absurd (hslot.symm.trans he) nofun
  · rwa [hjoined]
  · exact absurd (hslot.symm.trans he) nofun
  · exact absurd (hspoiled.symm.trans hs) nofun
  · exact absurd (hclaim.symm.trans hk) nofun

lemma slot_releaseNotify (x : Rec) (dead k : ℕ) :
    (x.releaseNotify dead).slot = some k ↔ x.slot = some k ∧ k ≠ dead := by
  unfold Rec.releaseNotify
  split
  · rename_i hdead
    have hgone : (x.vacate.applyExit x.restartPending).slot = none := by
      cases x.restartPending <;> rfl
    rw [hgone, hdead]
    exact ⟨nofun, fun ⟨he, hne⟩ => absurd (some.inj he).symm hne⟩
  · rename_i hlive
    exact ⟨fun he => ⟨he, fun hk => hlive (hk ▸ he)⟩, And.left⟩

lemma releaseNotify_fields (x : Rec) (dead : ℕ) :
    (x.releaseNotify dead).claim = x.claim ∧ (x.Ordered → (x.releaseNotify dead).Ordered) := by
  unfold Rec.releaseNotify
  split
  · exact ⟨by cases x.restartPending <;> rfl, fun h => Rec.Ordered.applyExit (x := x.vacate) h _⟩
  · exact ⟨rfl, id⟩

omit [Fintype ι] in
lemma slots_sweep (s : State ι) (w : ℕ) (m : ι) (k : ℕ) :
    (s.sweep w).slots m = some k ↔
      s.slots m = some k ∧ (m ∈ (s.sets w).joinedRecords → k ≠ w) := by
  show (if m ∈ (s.sets w).joinedRecords then (s.recs m).releaseNotify w else s.recs m).slot = some k ↔ _
  split
  · rename_i hm
    rw [slot_releaseNotify]
    exact and_congr_right fun _ => ⟨fun hk _ => hk, fun hk => hk hm⟩
  · rename_i hm
    exact ⟨fun he => ⟨he, fun h => absurd h hm⟩, And.left⟩

lemma Books.sweep (h : Books s) (hsweep : s.sweepable w = true) : Books (s.sweep w) := by
  constructor
  case made => exact fun {m k} hm => h.made ((slots_sweep s w m k).1 hm).1
  case named =>
    intro m k hm
    obtain ⟨hm, -⟩ := (slots_sweep s w m k).1 hm
    exact forall_sets_mapSet (s := s) (f := WaitSet.spoil)
      (p := fun k v => s.slots m = some k → m ∈ v.joinedRecords)
      (fun k _ hm => h.named hm) (fun hm => h.named hm) k hm
  case told =>
    exact forall_sets_mapSet (s := s) (f := WaitSet.spoil) (p := fun k v => k < s.made → v.Told)
      (fun k _ => h.told k) (fun hw => (h.told w hw).spoil)
  case count =>
    refine forall_sets_mapSet (s := s) (f := WaitSet.spoil) (p := fun k v => k < s.made →
      v.spoiled = false → v.pending = holders (s.sweep w).slots k + v.holds) (fun k hk => ?_)
      (fun _ hs => nomatch hs)
    have hsame : holders (s.sweep w).slots k = holders s.slots k :=
      holders_congr fun m => (slots_sweep s w m k).trans ⟨And.left, fun hm => ⟨hm, fun _ => hk⟩⟩
    rw [hsame]
    exact h.count k
  case claimed =>
    intro m k hm
    have hclaim : (s.recs m).claim = some k := by
      rw [← hm]
      show _ = (if m ∈ (s.sets w).joinedRecords then (s.recs m).releaseNotify w else s.recs m).claim
      split
      · exact (releaseNotify_fields _ _).1.symm
      · rfl
    refine (slots_sweep s w m k).2 ⟨h.claimed hclaim, fun hmem hk => ?_⟩
    -- a member with an open claim holds the sweep back
    have hblocked := all_eq_true.1 hsweep m hmem
    rw [show (s.recs m).slot = some w from hk ▸ h.claimed hclaim, hclaim] at hblocked
    simp at hblocked
  case ordered =>
    intro m
    show Rec.Ordered (if m ∈ (s.sets w).joinedRecords then (s.recs m).releaseNotify w else s.recs m)
    split
    · exact (releaseNotify_fields _ _).2 (h.ordered m)
    · exact h.ordered m

lemma applyExit_fields (x : Rec) (exit : Bool) :
    (x.applyExit exit).slot = x.slot ∧ (x.applyExit exit).claim = x.claim := by
  cases exit <;> exact ⟨rfl, rfl⟩

lemma Books.cancelUnanswerable {t} (h : Books s) (ht : s.cancelUnanswerable r = some t)
    : Books t := by
  rcases cancelUnanswerable_cases ht with rfl | ⟨w, -, hw, rfl⟩
  · exact h
  · exact h.sweep hw

/-! ### Actions -/

lemma Books.keep (h : Books s) (hslot : x.slot = (s.recs r).slot)
    (hclaim : x.claim = (s.recs r).claim) (hordered : x.Ordered) : Books (s.setRec r x) :=
  h.setRec hslot (fun _ hk => hslot.trans (h.claimed (hclaim.symm.trans hk))) hordered

lemma Books.arrivePut (h : Books s) : Books (s.arrivePut r) := by
  unfold State.arrivePut
  split
  · exact h.keep rfl rfl ((h.ordered r).queue .put)
  · rename_i hfree
    obtain ⟨hslot, hnone⟩ := Rec.restart_of_not_owned hfree
    exact h.install hslot (fun k hk => (some.inj hk).symm) ((h.ordered r).admitFresh hnone)

lemma Books.arriveProcess (h : Books s) (passive : Bool) : Books (s.arriveProcess r passive) := by
  unfold State.arriveProcess
  split
  · exact h.keep rfl rfl ((h.ordered r).queue .process)
  · rename_i hfree
    obtain ⟨hslot, hnone⟩ := Rec.restart_of_not_owned hfree
    have hfresh := (h.ordered r).admitFresh hnone
    cases passive with
    | false => exact h.keep rfl rfl hfresh
    | true =>
      refine h.install hslot (fun k hk => ?_) hfresh
      exact absurd (hslot.symm.trans (h.claimed hk)) nofun

lemma Books.arriveWait (h : Books s) : Books (s.arriveWait r) := by
  unfold State.arriveWait
  split
  · exact h.keep rfl rfl ((h.ordered r).queue .wait)
  · rename_i hfree
    exact h.keep rfl rfl ((h.ordered r).admitFresh (Rec.restart_of_not_owned hfree).2)

lemma Books.arriveGet (h : Books s) (passive : Bool) : Books (s.arriveGet r passive) := by
  unfold State.arriveGet
  split
  · exact h.keep rfl rfl ((h.ordered r).queue .processGet)
  · rename_i hfree
    have hfresh : Books (s.setRec r (s.recs r).admitFresh) :=
      h.keep rfl rfl ((h.ordered r).admitFresh (Rec.restart_of_not_owned hfree).2)
    cases passive with
    | false => exact hfresh
    | true => exact (hfresh.newSet (some r)).join (Nat.lt_succ_self _)

lemma slot_of_takeNext {q} (h : x.takeNext = some q) : x.slot = none := by
  unfold Rec.takeNext at h
  split at h
  · cases h
  · rename_i hfree
    simp only [Bool.or_eq_true, not_or] at hfree
    simpa using hfree.1.2

lemma Books.restartNext (h : Books s) (hclaim : (s.recs r).claim = none)
    (passive refused current : Bool) : Books (s.restartNext r passive refused current) := by
  have hpop := (h.ordered r).popNext
  have hskip : Books (s.setRec r (s.recs r).popNext) := h.keep rfl rfl hpop
  unfold State.restartNext
  cases hnext : (s.recs r).takeNext with
  | none => exact h.keep rfl rfl (h.ordered r)
  | some q =>
    have hslot := slot_of_takeNext hnext
    have hreplay : Books (s.install r (s.recs r).popNext.endTask) :=
      h.install hslot (fun k hk => absurd (hclaim.symm.trans hk) nofun) hpop
    have hput : Books (s.install r ((s.recs r).popNext.setClaim (some s.made))) :=
      h.install hslot (fun k hk => (some.inj hk).symm) hpop
    cases hk : q.kind with
    | put =>
      simp only [map_some, hk]
      cases refused with
      | false => exact hput
      | true => exact hskip
    | wait =>
      simp only [map_some, hk]
      exact hskip
    | process =>
      simp only [map_some, hk]
      cases passive with
      | false => exact hskip
      | true => exact hreplay
    | processGet =>
      simp only [map_some, hk]
      cases current && passive with
      | false => exact hskip
      | true => exact hreplay

/-- No cycle of a record takes its slot away from a put whose claim is open. -/
def keepsClaim (s : State ι) : Action ι → Bool
  | .finish r complete => !complete || (s.recs r).claim.isNone
  | .bail r => (s.recs r).claim.isNone
  | .missingDset r => (s.recs r).claim.isNone
  | .refusedEntry r => (s.recs r).pact || (s.recs r).claim.isNone
  | .valuePut r complete => !complete || (s.recs r).claim.isNone
  | _ => true

/-- **The step lemma**: an action that leaves open claims alone keeps the books. -/
theorem step_books {t a} (h : Books s) (hkeeps : s.keepsClaim a = true) (hstep : s.step a = some t)
    : Books t := by
  cases a with
  | newPutNotify =>
    cases hstep
    exact h.newSet none
  | externalPut w =>
    obtain ⟨-, ht⟩ := ite_none_right_eq_some.1 hstep
    cases ht
    refine h.mapSet rfl (fun ht => ht.hold) fun hw hs => ?_
    have hcount := h.count w hw hs
    show (s.sets w).pending + 1 = holders s.slots w + ((s.sets w).holds + 1)
    omega
  | dropHold w =>
    obtain ⟨hheld, ht⟩ := ite_none_right_eq_some.1 hstep
    cases ht
    refine h.mapSet (WaitSet.joinedRecords_leave _) (fun ht => ht.release) fun hw hs => ?_
    have hcount := h.count w hw ((WaitSet.spoiled_leave _).symm.trans hs)
    show (s.sets w).leave.pending = holders s.slots w + ((s.sets w).holds - 1)
    rw [WaitSet.pending_leave, WaitSet.wrapPred_of_pos (by omega)]
    omega
  | closeReceiver w =>
    cases hstep
    exact h.mapSet rfl (fun ht => ht.close) (h.count w)
  | cancel r => exact h.cancelUnanswerable hstep
  | putArrives r =>
    obtain ⟨-, ht⟩ := ite_none_right_eq_some.1 hstep
    obtain ⟨u, hu, rfl⟩ := map_eq_some_iff.1 ht
    exact (h.cancelUnanswerable hu).arrivePut
  | processArrives r passive =>
    obtain ⟨-, ht⟩ := ite_none_right_eq_some.1 hstep
    obtain ⟨u, hu, rfl⟩ := map_eq_some_iff.1 ht
    exact (h.cancelUnanswerable hu).arriveProcess passive
  | waitArrives r =>
    obtain ⟨-, ht⟩ := ite_none_right_eq_some.1 hstep
    obtain ⟨u, hu, rfl⟩ := map_eq_some_iff.1 ht
    exact (h.cancelUnanswerable hu).arriveWait
  | getArrives r passive =>
    obtain ⟨-, ht⟩ := ite_none_left_eq_some.1 hstep
    cases ht
    exact h.arriveGet passive
  | dropClaim r =>
    obtain ⟨w, hw, rfl⟩ := withClaim_eq_some hstep
    exact h.spoil (h.claimed hw) rfl (fun ht => ht.spoil) rfl rfl rfl (h.ordered r)
  | completeUnprocessed r =>
    obtain ⟨w, hw, rfl⟩ := withClaim_eq_some hstep
    have hleaves := h.leaveSlot (r := r) (x := (s.recs r).setClaim none) rfl (h.ordered r)
    rwa [State.leaveSlot, show (s.recs r).slot = some w from h.claimed hw] at hleaves
  | commit r refused =>
    obtain ⟨w, hw, rfl⟩ := withClaim_eq_some hstep
    cases refused with
    | false => exact h.setRec rfl nofun (h.ordered r)
    | true =>
      have hfailed : Books (s.mapSet w WaitSet.fail) :=
        h.mapSet rfl (fun ht => ht.fail) (h.count w)
      exact hfailed.setRec rfl nofun (h.ordered r)
  | admitTarget r w onChain =>
    obtain ⟨hw, ht⟩ := ite_none_left_eq_some.1 hstep
    split at ht
    · cases ht
      exact h
    · cases ht
      exact h.join (Nat.lt_of_not_le hw)
  | beginCycle r =>
    simp only [step] at hstep
    split at hstep
    · cases hstep
      exact h
    · cases hstep
      exact h.keep rfl rfl (h.ordered r)
  | resume r =>
    obtain ⟨-, ht⟩ := ite_none_left_eq_some.1 hstep
    cases ht
    exact h.keep rfl rfl (h.ordered r)
  | remint r =>
    obtain ⟨-, ht⟩ := ite_none_left_eq_some.1 hstep
    cases ht
    exact h.keep rfl rfl (h.ordered r)
  | finish r complete =>
    simp only [step] at hstep
    obtain ⟨-, rfl⟩ := inCycle_eq_some hstep
    have hordered : ((s.recs r).closeCycle.applyExit (s.recs r).token).Ordered :=
      Rec.Ordered.applyExit (x := (s.recs r).closeCycle) (h.ordered r) _
    cases complete with
    | false => exact h.keep (applyExit_fields _ _).1 (applyExit_fields _ _).2 hordered
    | true =>
      have hclaim : (s.recs r).claim = none := by simpa [keepsClaim] using hkeeps
      exact h.leaveSlot ((applyExit_fields _ _).2.trans hclaim) hordered
  | goAsync r =>
    simp only [step] at hstep
    obtain ⟨-, rfl⟩ := inCycle_eq_some hstep
    exact h.keep (applyExit_fields _ _).1 (applyExit_fields _ _).2
      (Rec.Ordered.applyExit (x := (s.recs r).closeCycle.enterPact) (h.ordered r) _)
  | handOff r =>
    simp only [step] at hstep
    obtain ⟨-, rfl⟩ := inCycle_eq_some hstep
    exact h.keep rfl rfl (h.ordered r)
  | bail r =>
    obtain ⟨-, rfl⟩ := inCycle_eq_some hstep
    have hclaim : (s.recs r).claim = none := by simpa [keepsClaim] using hkeeps
    exact h.leaveSlot hclaim (h.ordered r)
  | missingDset r =>
    simp only [step] at hstep
    obtain ⟨-, rfl⟩ := inCycle_eq_some hstep
    have hclaim : (s.recs r).claim = none := by simpa [keepsClaim] using hkeeps
    exact h.leaveSlot hclaim (h.ordered r)
  | refusedEntry r =>
    obtain ⟨-, ht⟩ := ite_none_left_eq_some.1 hstep
    split at ht
    · cases ht
      exact h
    · rename_i hidle
      cases ht
      have hclaim : (s.recs r).claim = none := by simpa [keepsClaim, hidle] using hkeeps
      exact h.leaveSlot hclaim (h.ordered r)
  | valuePut r complete =>
    cases hstep
    cases complete with
    | false => exact h
    | true =>
      have hclaim : (s.recs r).claim = none := by simpa [keepsClaim] using hkeeps
      exact h.leaveSlot hclaim (h.ordered r)
  | restart r passive refused current =>
    obtain ⟨hguard, ht⟩ := ite_none_right_eq_some.1 hstep
    cases ht
    have hclaim : (s.recs r).claim = none := by simp [Rec.atRest] at hguard; exact hguard.1.2
    exact h.restartNext hclaim passive refused current
  | destroy r =>
    obtain ⟨hrest, ht⟩ := ite_none_right_eq_some.1 hstep
    cases ht
    have hclaim : (s.recs r).claim = none := by simp [Rec.atRest] at hrest; exact hrest.2
    cases hr : (s.recs r).slot with
    | none =>
      exact h.setRec (x := (s.recs r).destroy) hr.symm
        (fun k hk => absurd (hclaim.symm.trans hk) nofun) (Rec.ordered_destroy _)
    | some w =>
      exact h.spoil (f := WaitSet.abandon) hr rfl (fun ht => ht.abandon) rfl rfl hclaim
        (Rec.ordered_destroy _)

end State

end PutNotify
