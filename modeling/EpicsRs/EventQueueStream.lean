/-
**What a monitor sees of its posts.**

The posts that a monitor accepted are cut into blocks, one for each event delivered and then one for
each entry queued.  An event carries the value of the last post of its block and the masks of all.
All this holds of the view, which does not say when the queue appends and when it overwrites.

Main result:

* `EventQueue.Trace.condenses` — **delivered and queued condense accepted**, in every run of the
  view.
-/

import EpicsRs.CoalescingQueue
import EpicsRs.EventQueueRuns

set_option autoImplicit false

namespace EventQueue

open CoalescingQueue List Option

variable {η α κ : Type}

/-! ### What is seen of one monitor -/

def accepted (id : AttachId) (os : List (Obs η α)) : List (PostLog η α) :=
  os.filterMap fun
    | .posted i log => if i = id then some log else none
    | _ => none

def delivered (id : AttachId) (os : List (Obs η α)) : List (PostLog η α) :=
  os.filterMap fun
    | .delivered i log => if i = id then some log else none
    | _ => none

def queued (id : AttachId) (es : List (Entry η α)) : List (PostLog η α) :=
  (es.filter fun e => e.id = id).map Entry.log

def Obs.concerns (id : AttachId) : Obs η α → Prop
  | .posted i _ => i = id
  | .delivered i _ => i = id
  | .ended i => i = id
  | _ => False

/-- An event of a monitor of this kind stands for a block of posts: it has the value of the last one
and all their masks. -/
def Carries (kind : LogKind) (e : PostLog η α) (block : List (PostLog η α)) : Prop :=
  (∃ log, block.getLast? = some log ∧ e.value = (log.stored kind).value) ∧
    e.mask = block.foldl (fun mask log => mask ||| log.mask) 0

lemma carries_single (kind : LogKind) (log : PostLog η α) :
    Carries kind (log.stored kind) [log] := by
  refine ⟨⟨log, rfl, rfl⟩, ?_⟩
  rw [stored_mask, foldl_cons, foldl_nil, UInt16.zero_or]

lemma Carries.snoc {kind old new log} {block : List (PostLog η α)} (h : Carries kind old block)
    (hvalue : new.value = (log.stored kind).value) (hmask : new.mask = old.mask ||| log.mask)
    : Carries kind new (block ++ [log]) := by
  refine ⟨⟨log, getLast?_concat .., hvalue⟩, ?_⟩
  rw [hmask, h.2, foldl_append, foldl_cons, foldl_nil]

section

variable {id : AttachId} {es pre post : List (Entry η α)} {e : Entry η α}

@[simp] lemma queued_append (es es' : List (Entry η α)) :
    queued id (es ++ es') = queued id es ++ queued id es' := by
  simp [queued]

@[simp] lemma queued_cons_self (log : PostLog η α) (es : List (Entry η α)) :
    queued id (⟨id, log⟩ :: es) = log :: queued id es := by
  simp [queued]

lemma queued_cons_of_ne (hne : e.id ≠ id) : queued id (e :: es) = queued id es := by
  simp [queued, hne]

lemma queued_eq_nil (h : id ∉ idsOf es) : queued id es = [] := by
  rw [queued, map_eq_nil_iff, filter_eq_nil_iff]
  intro e he heq
  exact h (of_decide_eq_true heq ▸ mem_map_of_mem he)

end

/-! ### Steps of the view -/

section

variable {v v' w : View η α κ} {os : List (Obs η α)} {id : AttachId} {m : Monitor κ}

lemma Step.obs (h : Step v os v') : os = [] ∨ ∃ o, os = [o] := by
  cases h <;> simp

variable {events posts : List (PostLog η α)} {pre post : List (Entry η α)}

lemma retire_monitors_of_open {e : Entry η α} (hm : v.monitors id = some m)
    (hopen : m.readerGone = false) : (v.retire pre e post).monitors id = some m := by
  unfold View.retire
  dsimp only
  split_ifs with hgone
  · rw [Function.update_of_ne, hm]
    rintro rfl
    rw [hm, any_some, hopen] at hgone
    exact absurd hgone.1 nofun
  · exact hm

/-- What is kept for a monitor whose reader is open. -/
structure Stream (id : AttachId) (kind : LogKind) (v : View η α κ) (events posts : List (PostLog η α)) :
    Prop where
  monitor : ∃ m, v.monitors id = some m ∧ m.readerGone = false ∧ m.kind = kind
  condenses : Condenses (fun _ => true) (Carries kind) (events ++ queued id v.entries) posts

variable {kind : LogKind}

lemma Stream.of_same (h : Stream id kind v events posts) (v' : View η α κ)
    (hmon : v'.monitors id = v.monitors id) (hqueued : queued id v'.entries = queued id v.entries) :
    Stream id kind v' events posts :=
  ⟨by rw [hmon]; exact h.monitor, by rw [hqueued]; exact h.condenses⟩

lemma Stream.of_set {id' m'} (h : Stream id kind v events posts)
    (hset : id' = id → m'.readerGone = false ∧ m'.kind = kind) :
    Stream id kind (v.set id' (some m')) events posts := by
  refine ⟨?_, h.condenses⟩
  by_cases hid : id' = id
  · subst hid
    exact ⟨m', View.set_monitors_self _, hset rfl⟩
  · obtain ⟨m, hm⟩ := h.monitor
    refine ⟨m, ?_, hm.2⟩
    rw [View.set_monitors_of_ne (Ne.symm hid)]
    exact hm.1

/-- **One step**, for a monitor whose reader stays open. -/
theorem Stream.step (h : Stream id kind v events posts) (hstep : Step v os v')
    (hreader : .readerClosed id ∉ os) :
    Stream id kind v' (events ++ delivered id os) (posts ++ accepted id os) ∧
      ∀ k, .attached id k ∉ os := by
  obtain ⟨m, hm, hopen, hkind⟩ := h.monitor
  cases hstep with
  | @attach id' m' hfree hnone hopen' hend =>
    have hne : id' ≠ id := by
      rintro rfl
      rw [hm] at hfree
      exact absurd hfree nofun
    refine ⟨?_, by simpa using Ne.symm hne⟩
    simpa [delivered, accepted] using h.of_set fun hid => absurd hid hne
  | refuse hgone =>
    refine ⟨?_, by simp⟩
    simpa [delivered, accepted] using h
  | @append id' m' log hid hopen' =>
    refine ⟨?_, by simp⟩
    by_cases hids : id' = id
    · subst hids
      obtain rfl : m = m' := some.inj (hm.symm.trans hid)
      subst hkind
      refine ⟨h.monitor, ?_⟩
      have hone : Condenses (fun _ => true) (Carries m.kind) [log.stored m.kind] ([log] ++ []) :=
        .run rfl (by simp) (carries_single m.kind log) .nil
      simpa [delivered, accepted, queued] using h.condenses.append hone
    · have hqueued : queued id (v.entries ++ [⟨id', log.stored m'.kind⟩]) =
          queued id v.entries := by simp [queued, hids]
      simpa [delivered, accepted, hids] using
        h.of_same { v with entries := v.entries ++ [⟨id', log.stored m'.kind⟩] } rfl hqueued
  | @overwrite id' m' log old new pre post hid hopen' hentries hnewest hvalue hmask =>
    refine ⟨?_, by simp⟩
    have hcond := h.condenses
    rw [hentries] at hcond
    by_cases hids : id' = id
    · subst hids
      obtain rfl : m = m' := some.inj (hm.symm.trans hid)
      subst hkind
      refine ⟨h.monitor, ?_⟩
      rw [queued_append, queued_cons_self, queued_eq_nil hnewest, ← append_assoc] at hcond
      have hmerge := hcond.merge (z := new) (x := log) rfl rfl rfl
        fun block hblock => hblock.snoc hvalue hmask
      simpa [delivered, accepted, queued_eq_nil hnewest] using hmerge
    · have hqueued : queued id (pre ++ ⟨id', new⟩ :: post) = queued id v.entries := by
        rw [hentries, queued_append, queued_append, queued_cons_of_ne hids, queued_cons_of_ne hids]
      simpa [delivered, accepted, hids] using
        h.of_same { v with entries := pre ++ ⟨id', new⟩ :: post } rfl hqueued
  | @drop m' e post hentries hid hgone =>
    refine ⟨?_, by simp⟩
    have hne : e.id ≠ id := by
      rintro rfl
      rw [hm] at hid
      rw [← some.inj hid, hopen] at hgone
      exact absurd hgone nofun
    have hqueued : queued id ([] ++ post) = queued id v.entries := by
      rw [hentries, queued_cons_of_ne hne, nil_append]
    have hmon : (v.retire [] e post).monitors id = v.monitors id := by
      rw [retire_monitors_of_open hm hopen, hm]
    simpa [delivered, accepted] using h.of_same _ hmon hqueued
  | @deliver e pre post hentries hfirst =>
    refine ⟨?_, by simp⟩
    have hmon : (v.retire pre e post).monitors id = v.monitors id := by
      rw [retire_monitors_of_open hm hopen, hm]
    by_cases hids : e.id = id
    · -- the first entry of the monitor becomes its last event
      obtain ⟨eid, log⟩ := e
      obtain rfl : eid = id := hids
      have hcond := h.condenses
      rw [hentries, queued_append, queued_cons_self, queued_eq_nil hfirst] at hcond
      refine ⟨by rw [hmon]; exact h.monitor, ?_⟩
      have hnil := queued_eq_nil hfirst
      simpa [delivered, accepted, View.retire, hnil] using hcond
    · have hqueued : queued id (pre ++ post) = queued id v.entries := by
        rw [hentries, queued_append, queued_append, queued_cons_of_ne hids]
      simpa [delivered, accepted, hids] using h.of_same _ hmon hqueued
  | @finish id' m' hid hgone hend hnone =>
    refine ⟨?_, by simp⟩
    simpa [delivered, accepted] using h.of_set fun heq => by
      rw [heq, hm] at hid
      rw [← some.inj hid]
      exact ⟨hopen, hkind⟩
  | @closeProducer id' m' hid =>
    refine ⟨?_, by simp⟩
    simpa [delivered, accepted] using h.of_set fun heq => by
      rw [heq, hm] at hid
      rw [← some.inj hid]
      exact ⟨hopen, hkind⟩
  | @cancel id' m' hid =>
    refine ⟨?_, by simp⟩
    have hne : id' ≠ id := by
      rintro rfl
      exact hreader (by simp)
    simpa [delivered, accepted] using h.of_set fun heq => absurd heq hne
  | @detach id' hnone =>
    refine ⟨?_, by simp⟩
    have hne : id ≠ id' := by
      rintro rfl
      exact hreader (by simp)
    simpa [delivered, accepted] using h.of_same (v.set id' none) (View.set_monitors_of_ne hne _) rfl

lemma accepted_append (os os' : List (Obs η α)) :
    accepted id (os ++ os') = accepted id os ++ accepted id os' := filterMap_append

lemma delivered_append (os os' : List (Obs η α)) :
    delivered id (os ++ os') = delivered id os ++ delivered id os' := filterMap_append

/-- **Delivered and queued condense accepted**, in every run that leaves the reader open. -/
theorem Stream.trace (htrace : Trace v os w) :
    ∀ {events posts : List (PostLog η α)}, Stream id kind v events posts →
      .readerClosed id ∉ os →
      Stream id kind w (events ++ delivered id os) (posts ++ accepted id os) ∧
        ∀ k, .attached id k ∉ os := by
  induction htrace with
  | refl v =>
    intro events posts h _
    exact ⟨by simpa [delivered, accepted] using h, by simp⟩
  | @head v v' w os os' hstep _ ih =>
    intro events posts h hreader
    rw [mem_append, not_or] at hreader
    obtain ⟨hfirst, hattach⟩ := h.step hstep hreader.1
    obtain ⟨hrest, hattach'⟩ := ih hfirst hreader.2
    rw [accepted_append, delivered_append, ← append_assoc, ← append_assoc]
    refine ⟨hrest, fun k hmem => ?_⟩
    rcases mem_append.1 hmem with hmem | hmem
    · exact hattach k hmem
    · exact hattach' k hmem

/-! ### The end of a monitor -/

structure Done (id : AttachId) (v : View η α κ) : Prop where
  monitor : ∀ m, v.monitors id = some m → m.producerGone = true ∧ m.endReported = true
  queued : id ∉ idsOf v.entries

lemma Done.of_set (h : Done id v) {id' o}
    (ho : id' = id → ∀ m, o = some m → m.producerGone = true ∧ m.endReported = true) :
    Done id (v.set id' o) := by
  refine ⟨fun m hm => ?_, h.queued⟩
  by_cases hid : id' = id
  · subst hid
    rw [View.set_monitors_self] at hm
    exact ho rfl m hm
  · rw [View.set_monitors_of_ne (Ne.symm hid)] at hm
    exact h.monitor m hm

lemma retire_monitors_of_some {e : Entry η α} (hm : (v.retire pre e post).monitors id = some m) :
    v.monitors id = some m := by
  unfold View.retire at hm
  dsimp only at hm
  split_ifs at hm
  · by_cases hid : id = e.id
    · rw [hid, Function.update_self] at hm
      exact absurd hm nofun
    · rwa [Function.update_of_ne hid] at hm
  · exact hm

lemma Done.retire (h : Done id v) {e : Entry η α} (hentries : v.entries = pre ++ e :: post) :
    e.id ≠ id ∧ Done id (v.retire pre e post) := by
  have hnone := h.queued
  rw [hentries, idsOf_append, idsOf_cons] at hnone
  simp only [mem_append, mem_cons, not_or] at hnone
  refine ⟨Ne.symm hnone.2.1, fun m hm => h.monitor m (retire_monitors_of_some hm), ?_⟩
  change id ∉ idsOf (pre ++ post)
  rw [idsOf_append, mem_append, not_or]
  exact ⟨hnone.1, hnone.2.2⟩

lemma Done.ne_of_takesPosts (h : Done id v) {id' : AttachId} (hid : v.monitors id' = some m)
    (hopen : m.takesPosts) : id' ≠ id := by
  rintro rfl
  have hgone := (h.monitor m hid).1
  rw [hopen.1] at hgone
  exact absurd hgone nofun

/-- **Nothing comes after the end**, unless a monitor gets the same handle. -/
theorem Done.step (h : Done id v) (hstep : Step v os v') (hattach : ∀ k, .attached id k ∉ os) :
    Done id v' ∧ ∀ o ∈ os, ¬ o.concerns id := by
  cases hstep with
  | @attach id' m' hfree hnone hopen hend =>
    have hne : id' ≠ id := by
      rintro rfl
      exact hattach m'.kind (mem_singleton_self _)
    exact ⟨h.of_set fun heq => absurd heq hne, by simp [Obs.concerns]⟩
  | refuse hgone => exact ⟨h, by simp [Obs.concerns]⟩
  | @append id' m' log hid hopen =>
    have hne := h.ne_of_takesPosts hid hopen
    refine ⟨⟨h.monitor, ?_⟩, by simpa [Obs.concerns] using hne⟩
    rw [idsOf_append, mem_append, not_or]
    exact ⟨h.queued, by simpa [idsOf] using Ne.symm hne⟩
  | @overwrite id' m' log old new pre post hid hopen hentries hnewest hvalue hmask =>
    have hne := h.ne_of_takesPosts hid hopen
    refine ⟨⟨h.monitor, ?_⟩, by simpa [Obs.concerns] using hne⟩
    have hnone := h.queued
    rw [hentries] at hnone
    simpa using hnone
  | @drop m' e post hentries hid hgone => exact ⟨(h.retire hentries).2, by simp⟩
  | @deliver e pre post hentries hfirst =>
    obtain ⟨hne, hdone⟩ := h.retire hentries
    exact ⟨hdone, by simpa [Obs.concerns] using hne⟩
  | @finish id' m' hid hgone hend hnone =>
    have hne : id' ≠ id := by
      rintro rfl
      rw [(h.monitor m' hid).2] at hend
      cases hend
    exact ⟨h.of_set fun heq => absurd heq hne, by simpa [Obs.concerns] using hne⟩
  | @closeProducer id' m' hid =>
    refine ⟨h.of_set ?_, by simp⟩
    rintro rfl m hm
    rw [← some.inj hm]
    exact ⟨rfl, (h.monitor m' hid).2⟩
  | @cancel id' m' hid =>
    refine ⟨h.of_set ?_, by simp [Obs.concerns]⟩
    rintro rfl m hm
    rw [← some.inj hm]
    exact h.monitor m' hid
  | @detach id' hnone => exact ⟨h.of_set (fun _ m hm => by cases hm), by simp [Obs.concerns]⟩

lemma Done.trace (htrace : Trace v os w) : Done id v → (∀ k, .attached id k ∉ os) →
    ∀ o ∈ os, ¬ o.concerns id := by
  induction htrace with
  | refl v => exact fun _ _ o ho => absurd ho not_mem_nil
  | @head v v' w os os' hstep _ ih =>
    intro h hattach o ho
    obtain ⟨hdone, hfirst⟩ := h.step hstep fun k hk => hattach k (mem_append_left _ hk)
    rcases mem_append.1 ho with ho | ho
    · exact hfirst o ho
    · exact ih hdone (fun k hk => hattach k (mem_append_right _ hk)) o ho

lemma Trace.split (htrace : Trace v os w) : ∀ (pre : List (Obs η α)) {post o}, os = pre ++ o :: post → ∃ v₁ v₂, Trace v pre v₁ ∧ Step v₁ [o] v₂ ∧ Trace v₂ post w := by
  induction htrace with
  | refl v => exact fun _ _ _ h => absurd h (by simp)
  | @head v v' w os os' hstep htrace ih =>
    intro pre post o hos
    rcases hstep.obs with rfl | ⟨o', rfl⟩
    · obtain ⟨v₁, v₂, hpre, ho, hpost⟩ := ih pre hos
      exact ⟨v₁, v₂, Trace.head hstep hpre, ho, hpost⟩
    · cases pre with
      | nil =>
        obtain ⟨rfl, rfl⟩ : o' = o ∧ os' = post := by simpa using hos
        exact ⟨v, v', Trace.refl v, hstep, htrace⟩
      | cons o'' pre =>
        obtain ⟨rfl, hos'⟩ : o' = o'' ∧ os' = pre ++ o :: post := by simpa using hos
        obtain ⟨v₁, v₂, hpre, ho, hpost⟩ := ih pre hos'
        exact ⟨v₁, v₂, Trace.head hstep hpre, ho, hpost⟩

lemma Step.done (h : Step v [.ended id] v') : id ∉ idsOf v.entries ∧ Done id v' := by
  cases h with
  | @finish _ m hid hgone hend hnone =>
    refine ⟨hnone, fun m' hm' => ?_, hnone⟩
    rw [View.set_monitors_self] at hm'
    rw [← some.inj hm']
    exact ⟨hgone, rfl⟩

end

/-! ### The queue -/

lemma filterMap_getElem?_range {β : Type} (xs : List β) :
    ((range xs.length).filterMap fun k => xs[k]?) = xs := by
  induction xs with
  | nil => rfl
  | cons x xs ih =>
    rw [length_cons, range_succ_eq_map, filterMap_cons, getElem?_cons_zero,
      filterMap_map]
    exact congrArg (x :: ·) ih

def QueInner.entries (q : QueInner η α κ) : List (Entry η α) :=
  (List.range q.used).filterMap fun k => q.entryAt (q.ix k)

lemma Inv.entries_eq {q : QueInner η α κ} {es} (h : Inv q es) :
    q.entries = es := by
  have hentry : ∀ k ∈ range q.used, q.entryAt (q.ix k) = es[k]? := by
    intro k hk
    exact h.entryAt_ix (by rw [← h.used_eq_length]; exact mem_range.1 hk)
  rw [QueInner.entries, filterMap_congr hentry, h.used_eq_length]
  exact filterMap_getElem?_range es

/-- A queue of a run, right after the monitor `id` was attached. -/
def Attached (q : Que η α κ) (id : AttachId) (kind : LogKind) : Prop :=
  ∃ n ops generation sid context, 4 ≤ n ∧ n ≤ maxEventsPerQue ∧
    ((Que.new n).run ops).1.apply (.tryAttach generation sid kind context) =
      (q, [.attached id kind])

lemma readerClosed_notMem_circuitObs {id : AttachId} (r : Option (CircuitEvent η α κ)) :
    .readerClosed id ∉ circuitObs r := by
  rcases r with _ | e
  · simp [circuitObs]
  · cases e <;> simp [circuitObs, CircuitEvent.obs]

lemma closeReader_of_mem_apply {id} {q : Que η α κ} {op} (h : .readerClosed id ∈ (q.apply op).2)
    : op = .closeReader id := by
  cases op with
  | tryAttach generation sid kind context => simp [Que.apply] at h
  | post i log =>
    simp only [Que.apply, PostOutcome.obs, mem_singleton] at h
    split_ifs at h
  | takeOldest => exact absurd h (readerClosed_notMem_circuitObs _)
  | takeFor i => simp [Que.apply] at h
  | takeEnded => exact absurd h (readerClosed_notMem_circuitObs _)
  | pollOldest => exact absurd h (readerClosed_notMem_circuitObs _)
  | pollNext i =>
    simp only [Que.apply] at h
    cases hr : (q.inner.pollNext q.flowOn i).2 <;> simp [hr, QueInner.Polled.obs] at h
  | closeProducer i => simp [Que.apply] at h
  | closeReader i =>
    obtain rfl : id = i := by simpa [Que.apply] using h
    rfl
  | flowCtrl on => simp [Que.apply] at h

lemma readerClosed_of_mem {id} (ops : List (Op η α κ)) : ∀ {q : Que η α κ},
    .readerClosed id ∈ (q.run ops).2 → .closeReader id ∈ ops := by
  induction ops with
  | nil => exact fun h => absurd h not_mem_nil
  | cons op ops ih =>
    intro q h
    rcases mem_append.1 h with h | h
    · rw [closeReader_of_mem_apply h]
      exact mem_cons_self
    · exact mem_cons_of_mem _ (ih h)

lemma Inv.post_others {q : QueInner η α κ} {es} (h : Inv q es) (flowOn : Bool) (id : AttachId)
    (log : PostLog η α) :
    ((q.post flowOn id log).1.entries.filter fun e => e.id ≠ id) =
      es.filter fun e => e.id ≠ id := by
  rcases h.post_cases flowOn id log with ⟨heq, -⟩ | ⟨s, hsub, -, ⟨heq, hroom⟩ | hover⟩
  · rw [heq, h.entries_eq]
  · obtain ⟨hs, rfl⟩ := sub_eq_some.1 hsub
    rw [heq, (h.append hs _ (hroom.imp_right And.right)).entries_eq]
    simp
  · obtain ⟨⟨pre, old, post, s', new, heq, rfl, -, hlast, hid, hnpend, hlast', hmon, -⟩, -⟩ := hover
    obtain ⟨hs, rfl⟩ := sub_eq_some.1 hsub
    rw [heq, (h.overwrite s' hs hlast rfl hid hnpend hlast' hmon new).1.entries_eq]
    simp

lemma Attached.stream {q : Que η α κ} {id kind} (h : Attached q id kind) :
    ∃ es, Inv q.inner es ∧ Stream id kind (q.inner.view es) [] [] := by
  obtain ⟨n, ops, generation, sid, context, hmin, hmax, heq⟩ := h
  obtain ⟨es, hinv, -⟩ := run_refines ops (q := Que.new n) (Inv.new hmin hmax)
  obtain ⟨es', hinv', htrace⟩ := apply_refines hinv (.tryAttach generation sid kind context)
  rw [heq] at hinv' htrace
  obtain ⟨v₁, v₂, -, hstep, hrest⟩ := htrace.split [] rfl
  refine ⟨es', hinv', ?_⟩
  have hstart : Stream id kind v₂ [] [] := by
    cases hstep with
    | @attach _ m hfree hnone hopen hend =>
      refine ⟨⟨m, View.set_monitors_self _, hopen.2, rfl⟩, ?_⟩
      rw [nil_append, View.set, queued_eq_nil hnone]
      exact .nil
  exact (hstart.trace hrest not_mem_nil).1

lemma getLast_of_carries {kind events} {blocks : List (List (PostLog η α))}
    (h : Forall₂ (Carries kind) events blocks) :
    ∀ log, blocks.flatten.getLast? = some log →
      ∃ e, events.getLast? = some e ∧ e.value = (log.stored kind).value := by
  induction h with
  | nil => exact fun log hlog => absurd hlog nofun
  | @cons e block events blocks hcarries hrest ih =>
    intro log hlog
    rw [flatten_cons, getLast?_append] at hlog
    cases hrest with
    | nil =>
      obtain ⟨⟨log', hlog', hvalue⟩, -⟩ := hcarries
      rw [flatten_nil, getLast?_nil, none_or, hlog'] at hlog
      exact ⟨e, rfl, some.inj hlog ▸ hvalue⟩
    | @cons e' block' events blocks hcarries' hrest =>
      obtain ⟨⟨log', hlog', -⟩, -⟩ := hcarries'
      have hlast : ((block' :: blocks).flatten.getLast?).isSome := by
        rw [flatten_cons, getLast?_append, hlog', isSome_or]
        simp
      obtain ⟨log'', hlog''⟩ := isSome_iff_exists.1 hlast
      rw [hlog'', some_or] at hlog
      obtain ⟨e'', he'', hvalue⟩ := ih log'' hlog''
      exact ⟨e'', he'', some.inj hlog ▸ hvalue⟩

/-- **What a monitor sees**, from its attach on.  As long as its reader is open, what it accepted is
cut into blocks, for the events that were delivered and then for the entries that are queued; after
a drain the last event has the value of the last post; and when its end is reported everything was
delivered before, and nothing comes after.  A post leaves the entries of the other monitors where
they were.  The end comes once also for a monitor whose reader is closed later. -/
theorem monitor_stream {q : Que η α κ} {id : AttachId} {kind : LogKind} (h : Attached q id kind)
    (ops : List (Op η α κ)) :
    (.closeReader id ∉ ops →
      (∃ blocks : List (List (PostLog η α)), blocks.flatten = accepted id (q.run ops).2 ∧
        List.Forall₂ (Carries kind)
          (delivered id (q.run ops).2 ++ queued id (q.run ops).1.inner.entries) blocks) ∧
      (queued id (q.run ops).1.inner.entries = [] →
        ∀ log, (accepted id (q.run ops).2).getLast? = some log →
          ∃ e, (delivered id (q.run ops).2).getLast? = some e ∧
            e.value = (log.stored kind).value) ∧
      (∀ before after, (q.run ops).2 = before ++ .ended id :: after →
        (∃ blocks : List (List (PostLog η α)), blocks.flatten = accepted id before ∧
          List.Forall₂ (Carries kind) (delivered id before) blocks) ∧
        ∀ o ∈ after, ¬ o.concerns id)) ∧
    ((∀ k, .attached id k ∉ (q.run ops).2) →
      ∀ before after, (q.run ops).2 = before ++ .ended id :: after →
        ∀ o ∈ after, ¬ o.concerns id) ∧
    (∀ id' log, ((((q.run ops).1.apply (.post id' log)).1.inner.entries.filter
        fun e => e.id ≠ id') = (q.run ops).1.inner.entries.filter fun e => e.id ≠ id')) := by
  obtain ⟨es, hinv, hstream⟩ := h.stream
  obtain ⟨es', hinv', htrace⟩ := run_refines ops hinv
  rw [hinv'.entries_eq]
  refine ⟨fun hopen => ?_, fun hattach before after hos => ?_, fun id' log => ?_⟩
  · have hreader : .readerClosed id ∉ (q.run ops).2 := fun hmem => hopen (readerClosed_of_mem ops hmem)
    obtain ⟨hend, hattach⟩ := hstream.trace htrace hreader
    obtain ⟨blocks, hblocks, hcarries⟩ := hend.condenses.exists_blocks
    refine ⟨⟨blocks, hblocks, hcarries⟩, fun hnil log hlog => ?_, fun before after hos => ?_⟩
    · change Forall₂ _ ([] ++ _ ++ queued id es') _ at hcarries
      rw [hnil, append_nil, nil_append] at hcarries
      exact getLast_of_carries hcarries log (by rwa [hblocks])
    · obtain ⟨v₁, v₂, hbefore, hstep, hafter⟩ := htrace.split _ hos
      obtain ⟨hnone, hdone⟩ := hstep.done
      rw [hos, mem_append, not_or] at hreader
      have hmid := (hstream.trace hbefore hreader.1).1.condenses
      rw [queued_eq_nil hnone, append_nil] at hmid
      refine ⟨hmid.exists_blocks, hdone.trace hafter fun k hk => hattach k ?_⟩
      rw [hos]
      exact mem_append_right _ (mem_cons_of_mem _ hk)
  · obtain ⟨v₁, v₂, -, hstep, hafter⟩ := htrace.split _ hos
    refine hstep.done.2.trace hafter fun k hk => hattach k ?_
    rw [hos]
    exact mem_append_right _ (mem_cons_of_mem _ hk)
  · exact hinv'.post_others _ id' log

/-- A monitor of a new queue, with two posts of which one is read. -/
theorem monitor_stream_sample :
    Attached ((Que.new 4 : Que Unit ℕ Unit).apply (.tryAttach 1 0 .val ())).1 (.new 1 0) .val ∧
      ∃ blocks : List (List (PostLog Unit ℕ)), blocks.flatten = [⟨(), 1, .val 5⟩, ⟨(), 4, .val 6⟩] ∧
        List.Forall₂ (Carries .val) [⟨(), 1, .val 5⟩, ⟨(), 4, .val 6⟩] blocks := by
  have hattached : Attached ((Que.new 4 : Que Unit ℕ Unit).apply (.tryAttach 1 0 .val ())).1
      (.new 1 0) .val := ⟨4, [], 1, 0, (), by decide, by decide, rfl⟩
  exact ⟨hattached, ((monitor_stream hattached [.post (.new 1 0) ⟨(), 1, .val 5⟩,
    .post (.new 1 0) ⟨(), 4, .val 6⟩, .pollOldest]).1 (by simp)).1⟩

end EventQueue
