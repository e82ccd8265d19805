/-
**No wake-up of a circuit is lost.**

A consumer that found nothing parks in the one slot of the circuit.  A burst owes it a wake for each
queue that it has marked, a close, EVENTS_ON or reply for its change; a post to a queue that is
marked, or that the consumer would not find empty, owes nothing.  The invariant is about the queues
that the poll has seen: each is quiet, or the waker was fired, or a wake is still to come.

Main result: `EventQueue.no_lost_wakeup`.
-/

import EpicsRs.EventUserReplies

set_option autoImplicit false

namespace EventQueue

open RingCells SlotTable List Option QueInner

variable {η α κ ρ : Type} {u u' : User η α κ ρ} {q q' : QueInner η α κ}

/-! ### Quiet queues -/

lemma Quiet.inBurst {flowOn} (h : Quiet q flowOn) (b : Bool) :
    Quiet { q with inBurst := b } flowOn :=
  ⟨h.gate, h.ends⟩

lemma Quiet.flowCtrlOn {flowOn} (h : Quiet q flowOn) : Quiet q true := by
  refine ⟨fun hpos => ?_, h.ends⟩
  have hgate := h.gate hpos
  simp only [mayDrain, Bool.or_eq_false_iff] at hgate ⊢
  exact ⟨⟨hgate.1.1, rfl⟩, hgate.2⟩

lemma Quiet.tryAttach {flowOn} (h : Quiet q flowOn) (generation : UInt64) (sid : UInt32)
    (kind : LogKind) (context : κ) : Quiet (q.tryAttach generation sid kind context).1 flowOn := by
  unfold QueInner.tryAttach
  split_ifs
  · exact h
  · cases q.free with
    | nil => exact h
    | cons slot free =>
      refine ⟨h.gate, fun j t ht hgone hend => ?_⟩
      rcases get_set ht with ⟨-, heq⟩ | ⟨-, ht⟩
      · rw [← some.inj heq] at hgone
        exact absurd hgone nofun
      · exact h.ends j t ht hgone hend

lemma Quiet.new (n : ℕ) (flowOn : Bool) : Quiet (new n : QueInner η α κ) flowOn := by
  refine ⟨fun hpos => absurd hpos (Nat.lt_irrefl 0), fun i s hs => ?_⟩
  change (replicate n none)[i]? = some (some s) at hs
  rw [getElem?_replicate] at hs
  split_ifs at hs
  exact absurd (some.inj hs) nofun

/-! ### The invariant -/

/-- A burst has marked queue `i`, and the mark is not yet taken off. -/
def Marking (u : User η α κ ρ) (i : ℕ) : Prop :=
  ∃ burst ∈ u.bursts, burst.marked = some i ∨ i ∈ burst.chain

/-- A burst has marked queue `i`, or has just taken it off its chain. -/
def BurstOwes (u : User η α κ ρ) (i : ℕ) : Prop :=
  ∃ burst ∈ u.bursts, burst.marked = some i ∨ i ∈ burst.chain ∨ burst.off = some i

/-- A close, a reply or `flow_ctrl_off` has made its change, and has not yet come to its wake. -/
def CallOwes (u : User η α κ ρ) : Prop := 0 < u.waking ∨ 0 < u.offs ∨ u.lock = .flowOff 0

def WakeDue (u : User η α κ ρ) (i : ℕ) : Prop := BurstOwes u i ∨ CallOwes u

def Parked (u : User η α κ ρ) : Prop :=
  u.pending = true ∨ ∃ s, 0 < s ∧ (u.lock = .look s ∨ u.lock = .park s)

/-- The last poll has found nothing on queue `i`, and parked. -/
def Seen (u : User η α κ ρ) (i : ℕ) : Prop :=
  u.pending = true ∨ ∃ s t, t < s ∧ (u.lock = .look s ∨ u.lock = .park s) ∧ u.turn t = i

def ChainLock.Polls : ChainLock κ ρ → Prop
  | .due _ | .look _ | .park _ => True
  | .free | .reply .. | .attach .. | .flowOff _ => False

structure Wakes (u : User η α κ ρ) : Prop where
  polling : u.lock.Polls → u.pending = false
  parked : Parked u → u.ppendsem = true ∨ u.woken = true
  seen : ∀ (i : ℕ) (q : QueInner η α κ), u.ques[i]? = some q → Seen u i →
    Quiet q u.flowOn ∨ u.woken = true ∨ WakeDue u i
  /-- Only EVENTS_ON can change what the consumer finds on a queue whose lock it holds. -/
  held : ∀ (s : ℕ) (q : QueInner η α κ), u.lock = .park s → u.ques[u.turn s]? = some q →
    Quiet q u.flowOn ∨ 0 < u.offs
  owed : u.pending = true → u.replies ≠ [] → u.woken = true ∨ 0 < u.waking

/-- The mark on a queue is that of a burst. -/
def Marks (u : User η α κ ρ) : Prop :=
  ∀ (i : ℕ) (q : QueInner η α κ), u.ques[i]? = some q → q.inBurst = true → Marking u i

variable {i : ℕ}

lemma Marking.owes (h : Marking u i) : BurstOwes u i := by
  obtain ⟨burst, hburst, hmarked | hchain⟩ := h
  · exact ⟨burst, hburst, Or.inl hmarked⟩
  · exact ⟨burst, hburst, Or.inr (Or.inl hchain)⟩

lemma Seen.parked (h : Seen u i) : Parked u := by
  rcases h with hpending | ⟨s, t, ht, hlock, -⟩
  · exact Or.inl hpending
  · exact Or.inr ⟨s, by omega, hlock⟩

/-! ### Bursts -/

section

variable {P : PostBurst → Prop} {bursts : List PostBurst} {b : ℕ} {burst burst' : PostBurst}

lemma exists_mem_set (hburst : bursts[b]? = some burst) (hP : P burst → P burst')
    (h : ∃ x ∈ bursts, P x) : ∃ x ∈ bursts.set b burst', P x := by
  obtain ⟨x, hx, hPx⟩ := h
  obtain ⟨n, hn⟩ := mem_iff_getElem?.1 hx
  by_cases hbn : b = n
  · subst hbn
    obtain rfl : burst = x := some.inj (hburst.symm.trans hn)
    exact ⟨burst', List.mem_set (List.getElem?_eq_some_iff.1 hn).1 _, hP hPx⟩
  · refine ⟨x, mem_iff_getElem?.2 ⟨n, ?_⟩, hPx⟩
    rw [getElem?_set_ne hbn, hn]

lemma mem_set_self (hburst : bursts[b]? = some burst) : burst' ∈ bursts.set b burst' :=
  List.mem_set (List.getElem?_eq_some_iff.1 hburst).1 _

end

/-! ### The marks of bursts -/

lemma Marks.mono (h : Marks u)
    (hques : ∀ (i : ℕ) (q' : QueInner η α κ), u'.ques[i]? = some q' → q'.inBurst = true →
      Marking u' i ∨ ∃ q, u.ques[i]? = some q ∧ q.inBurst = true)
    (hmarking : ∀ i, Marking u i → Marking u' i) : Marks u' := by
  intro i q' hq' hburst
  rcases hques i q' hq' hburst with hmarking' | ⟨q, hq, hqburst⟩
  · exact hmarking'
  · exact hmarking i (h i q hq hqburst)

lemma Marks.setQue (h : Marks u) (hque : u.ques[i]? = some q) (hques : u'.ques = u.ques.set i q')
    (hburst : q'.inBurst = true → Marking u' i ∨ q.inBurst = true)
    (hmarking : ∀ i, Marking u i → Marking u' i) : Marks u' := by
  refine h.mono (fun j t ht htburst => ?_) hmarking
  rw [hques, getElem?_set] at ht
  split_ifs at ht with hij hlt
  · subst hij
    obtain rfl := some.inj ht
    exact (hburst htburst).imp_right fun hq => ⟨q, hque, hq⟩
  · exact Or.inr ⟨t, ht, htburst⟩

lemma Marks.congr (h : Marks u) (hques : u'.ques = u.ques) (hbursts : u'.bursts = u.bursts) :
    Marks u' := by
  intro i q hq hburst
  rw [hques] at hq
  obtain ⟨burst, hmem, hmarked⟩ := h i q hq hburst
  exact ⟨burst, hbursts ▸ hmem, hmarked⟩

@[simp] lemma wake_bursts (u : User η α κ ρ) : u.wake.bursts = u.bursts := by
  unfold User.wake
  split_ifs <;> rfl

lemma bursts_post (b : ℕ) (burst : PostBurst) (i : ℕ) (q : QueInner η α κ) (id : AttachId)
    (log : PostLog η α) (hburst : u.bursts[b]? = some burst)
    {P : PostBurst → Prop} (hP : P burst → P { burst with marked := some i })
    (h : ∃ x ∈ u.bursts, P x) : ∃ x ∈ (u.post b burst i q id log).bursts, P x := by
  unfold User.post
  dsimp only
  split_ifs
  · exact exists_mem_set hburst hP h
  · exact h

lemma marking_post (b : ℕ) (burst : PostBurst) (i : ℕ) (q : QueInner η α κ) (id : AttachId)
    (log : PostLog η α) (hburst : u.bursts[b]? = some burst)
    (hchain : (q.post u.flowOn id log).2.2 = true) : Marking (u.post b burst i q id log) i := by
  have hbursts : (u.post b burst i q id log).bursts =
      u.bursts.set b { burst with marked := some i } := if_pos hchain
  exact ⟨{ burst with marked := some i }, hbursts ▸ mem_set_self hburst, Or.inl rfl⟩

lemma UserStep.marks (hstep : UserStep u u') (hbase : Base u) (h : Marks u) : Marks u' := by
  cases hstep with
  | newBurst =>
    refine h.mono (fun i q hq hburst => Or.inr ⟨q, hq, hburst⟩) fun i => ?_
    rintro ⟨burst, hmem, hmarked⟩
    exact ⟨burst, mem_append_left _ hmem, hmarked⟩
  | @post b i burst q id log hburst hmarked hdropping hque hfree =>
    refine h.setQue hque rfl (fun hpost => ?_) fun j => ?_
    · rw [inBurst_post (hbase.lists hque), Bool.or_eq_true] at hpost
      rcases hpost with hpost | hpost
      · exact Or.inr hpost
      · exact Or.inl (marking_post b burst i q id log hburst hpost)
    · refine bursts_post b burst i q id log hburst fun hP => ?_
      rcases hP with hP | hP
      · exact absurd (hmarked.symm.trans hP) nofun
      · exact Or.inr hP
  | @push b i burst hburst hmarked =>
    refine h.mono (fun i q hq hburst => Or.inr ⟨q, hq, hburst⟩) fun j => ?_
    refine exists_mem_set hburst fun hP => Or.inr ?_
    rcases hP with hP | hP
    · obtain rfl : i = j := some.inj (hmarked.symm.trans hP)
      exact mem_append_right _ (mem_singleton_self _)
    · exact mem_append_left _ hP
  | @unchain b i burst rest q hburst hmarked hoff hchain hque hfree =>
    -- the other queues of the chain stay on it
    intro j t ht htburst
    rw [getElem?_set] at ht
    split_ifs at ht with hij hlt
    · obtain rfl := some.inj ht
      exact absurd htburst nofun
    · refine exists_mem_set hburst (fun hP => Or.inr ?_) (h j t ht htburst)
      rcases hP with hP | hP
      · exact absurd (hmarked.symm.trans hP) nofun
      · rw [hchain] at hP
        exact (mem_cons.1 hP).resolve_left (Ne.symm hij)
  | @wakeBurst b i burst hburst hoff =>
    refine h.mono (fun i q hq hburst => Or.inr ⟨q, by rwa [wake_ques] at hq, hburst⟩) fun j hj => ?_
    unfold Marking
    rw [wake_bursts]
    exact exists_mem_set hburst id hj
  | @closeProducer i q id hque hfree hsub =>
    refine h.setQue hque rfl (fun hburst => Or.inr ?_) fun _ hj => hj
    obtain ⟨subs, ends, heq, -⟩ := closeProducer_frame q id
    rwa [heq] at hburst
  | @closeReader i q id hque hfree hsub =>
    refine h.setQue hque rfl (fun hburst => Or.inr ?_) fun _ hj => hj
    obtain ⟨subs, ends, free, quota, heq, -⟩ := closeReader_frame q id
    rwa [heq] at hburst
  | wakeCall hwaking => exact h.congr (wake_ques _) (wake_bursts _)
  | flowOffWake hlock hk => exact h.congr (wake_ques _) (wake_bursts _)
  | @attachTry k generation sid kind context q hheld hque =>
    refine h.setQue hque rfl (fun hburst => Or.inr ?_) fun _ hj => hj
    obtain ⟨subs, free, quota, heq⟩ := tryAttach_frame q generation sid kind context
    rwa [heq] at hburst
  | @attachNew k generation sid kind context hheld hk =>
    intro j t ht htburst
    rw [getElem?_append] at ht
    split_ifs at ht with hj
    · exact h j t ht htburst
    · obtain ⟨_, rfl⟩ := List.getElem?_eq_some_iff.1 ht
      rw [List.getElem_singleton] at htburst
      obtain ⟨subs, free, quota, heq⟩ :=
        tryAttach_frame (new u.eventsPerQue) generation sid kind context
      rw [heq] at htburst
      exact absurd htburst nofun
  | @pollEvent s q q' e hheld hs hque hpoll =>
    refine h.setQue hque rfl (fun hburst => Or.inr ?_) fun _ hj => hj
    have heq := inBurst_pollOldest (hbase.lists hque) u.flowOn
    rw [hpoll] at heq
    exact heq.symm.trans hburst
  | @pollNothing s q q' hheld hs hque hpoll =>
    refine h.setQue hque rfl (fun hburst => Or.inr ?_) fun _ hj => hj
    have heq := inBurst_pollOldest (hbase.lists hque) u.flowOn
    rw [hpoll] at heq
    exact heq.symm.trans hburst
  | flowCtrlOn | flowCtrlOff | flowOffLock | replyLock | replySample | replyPush | closeReplies
  | attachLock | pollBegin | pollDue | pollReply | pollPark | pollPassed | pollPending =>
    exact h.congr rfl rfl

/-! ### What others do -/

lemma WakeDue.mono (h : WakeDue u i) (hburst : BurstOwes u i → BurstOwes u' i)
    (hwaking : u.waking ≤ u'.waking) (hoffs : u.offs ≤ u'.offs)
    (hlock : u.lock = .flowOff 0 → u'.lock = .flowOff 0) : WakeDue u' i := by
  rcases h with h | h | h | h
  · exact Or.inl (hburst h)
  · exact Or.inr (Or.inl (h.trans_le hwaking))
  · exact Or.inr (Or.inr (Or.inl (h.trans_le hoffs)))
  · exact Or.inr (Or.inr (Or.inr (hlock h)))

/-- **A step of others**, while the consumer stays where it is. -/
theorem Wakes.change (h : Wakes u) (hlock : u'.lock = u.lock) (hreading : u'.reading = u.reading)
    (hlen : u'.ques.length = u.ques.length) (hpending : u'.pending = u.pending)
    (hppendsem : u'.ppendsem = u.ppendsem) (hwoken : u'.woken = u.woken)
    (hreplies : u'.replies = u.replies) (hwaking : u.waking ≤ u'.waking) (hoffs : u.offs ≤ u'.offs)
    (hques : ∀ (i : ℕ) (q' : QueInner η α κ), u'.ques[i]? = some q' →
      ∃ q, u.ques[i]? = some q ∧ (Quiet q u.flowOn → Quiet q' u'.flowOn ∨ 0 < u'.offs ∨
        ¬ u.holds i ∧ WakeDue u' i))
    (hdue : ∀ i, WakeDue u i → WakeDue u' i) : Wakes u' := by
  have hturn : u'.turn = u.turn := by
    funext s
    rw [User.turn, User.turn, hreading, hlen]
  refine ⟨?_, ?_, ?_, ?_, ?_⟩
  · rw [hlock, hpending]
    exact h.polling
  · unfold Parked
    rw [hlock, hpending, hppendsem, hwoken]
    exact h.parked
  · unfold Seen
    rw [hlock, hpending, hturn, hwoken]
    intro i q' hq' hseen
    obtain ⟨q, hq, hquiet⟩ := hques i q' hq'
    rcases h.seen i q hq hseen with hold | hold | hold
    · rcases hquiet hold with hnew | hnew | ⟨-, hnew⟩
      · exact Or.inl hnew
      · exact Or.inr (Or.inr (Or.inr (Or.inr (Or.inl hnew))))
      · exact Or.inr (Or.inr hnew)
    · exact Or.inr (Or.inl hold)
    · exact Or.inr (Or.inr (hdue i hold))
  · rw [hlock, hturn]
    intro s q' hs hq'
    obtain ⟨q, hq, hquiet⟩ := hques _ q' hq'
    rcases h.held s q hs hq with hold | hold
    · rcases hquiet hold with hnew | hnew | ⟨hnot, -⟩
      · exact Or.inl hnew
      · exact Or.inr hnew
      · exact absurd ⟨s, hs, rfl⟩ hnot
    · exact Or.inr (hold.trans_le hoffs)
  · rw [hpending, hreplies, hwoken]
    intro hp hr
    exact (h.owed hp hr).imp_right fun hold => hold.trans_le hwaking

lemma Wakes.setQue (h : Wakes u) (hque : u.ques[i]? = some q) (hnot : ¬ u.holds i)
    (hques : u'.ques = u.ques.set i q')
    (hquiet : Quiet q u.flowOn → Quiet q' u.flowOn ∨ WakeDue u' i) (hlock : u'.lock = u.lock)
    (hreading : u'.reading = u.reading) (hflow : u'.flowOn = u.flowOn)
    (hpending : u'.pending = u.pending) (hppendsem : u'.ppendsem = u.ppendsem)
    (hwoken : u'.woken = u.woken) (hreplies : u'.replies = u.replies)
    (hwaking : u.waking ≤ u'.waking) (hoffs : u'.offs = u.offs)
    (hdue : ∀ i, BurstOwes u i → BurstOwes u' i) : Wakes u' := by
  refine h.change hlock hreading (by rw [hques, length_set]) hpending hppendsem hwoken hreplies
    hwaking (Nat.le_of_eq hoffs.symm) (fun j t ht => ?_) fun j hj =>
      hj.mono (hdue j) hwaking (Nat.le_of_eq hoffs.symm) hlock.trans
  · rw [hques, getElem?_set] at ht
    rw [hflow]
    split_ifs at ht with hij hlt
    · subst hij
      obtain rfl := some.inj ht
      exact ⟨q, hque, fun hold => (hquiet hold).imp_right fun hnew => Or.inr ⟨hnot, hnew⟩⟩
    · exact ⟨t, ht, Or.inl⟩

/-- **A wake.**  If the consumer has parked, the wake is fired now, or one was before. -/
theorem Wakes.wake (hpolling : u.lock.Polls → u.pending = false)
    (hparked : Parked u → u.ppendsem = true ∨ u.woken = true)
    (hheld : ∀ (s : ℕ) (q : QueInner η α κ), u.lock = .park s → u.ques[u.turn s]? = some q →
      Quiet q u.flowOn ∨ 0 < u.offs) : Wakes u.wake := by
  unfold User.wake
  split_ifs with hslot
  · exact ⟨hpolling, fun _ => Or.inr rfl, fun _ _ _ _ => Or.inr (Or.inl rfl), hheld,
      fun _ _ => Or.inl rfl⟩
  · have hwoken : Parked u → u.woken = true := fun hp => (hparked hp).resolve_left hslot
    exact ⟨hpolling, hparked, fun i q hq hs => Or.inr (Or.inl (hwoken hs.parked)), hheld,
      fun hp _ => Or.inl (hwoken (Or.inl hp))⟩

/-- **The chain lock changes hands**, and no poll holds it. -/
theorem Wakes.relock (h : Wakes u) (hnot : ¬ u'.lock.Polls) (hpending : u'.pending = u.pending)
    (hppendsem : u'.ppendsem = u.ppendsem) (hwoken : u'.woken = u.woken)
    (hreplies : u'.replies ≠ [] → 0 < u'.waking ∨ u.replies ≠ [] ∧ u'.waking = u.waking)
    (hques : ∀ (i : ℕ) (q' : QueInner η α κ), u'.ques[i]? = some q' → Quiet q' u'.flowOn ∨
      ∃ q, u.ques[i]? = some q ∧ (Quiet q u.flowOn → Quiet q' u'.flowOn))
    (hdue : ∀ i, WakeDue u i → WakeDue u' i) : Wakes u' := by
  have hparked : Parked u' → u'.pending = true := by
    rintro (hp | ⟨s, -, hs | hs⟩)
    · exact hp
    · exact absurd (hs ▸ trivial) hnot
    · exact absurd (hs ▸ trivial) hnot
  refine ⟨fun hp => absurd hp hnot, fun hp => ?_, fun i q' hq' hseen => ?_, fun s q hs => ?_,
    fun hp hr => ?_⟩
  · rw [hppendsem, hwoken]
    exact h.parked (Or.inl (hpending ▸ hparked hp))
  · rcases hques i q' hq' with hquiet | ⟨q, hq, hquiet⟩
    · exact Or.inl hquiet
    · rw [hwoken]
      exact (h.seen i q hq (Or.inl (hpending ▸ hparked hseen.parked))).imp hquiet
        (Or.imp_right (hdue i))
  · exact absurd (hs ▸ trivial) hnot
  · rw [hwoken]
    rcases hreplies hr with hpos | ⟨hold, heq⟩
    · exact Or.inr hpos
    · rw [heq]
      exact h.owed (hpending ▸ hp) hold

lemma Wakes.setLock {lock} (h : Wakes u) (hnot : ¬ lock.Polls)
    (hoff : u.lock = .flowOff 0 → lock = .flowOff 0) : Wakes { u with lock := lock } :=
  h.relock hnot rfl rfl rfl (fun hr => Or.inr ⟨hr, rfl⟩) (fun _ q hq => Or.inr ⟨q, hq, id⟩)
    fun _ hj => hj.mono id (Nat.le_refl _) (Nat.le_refl _) hoff

lemma Wakes.fresh (hpending : u.pending = false) (hlook : ∀ s, u.lock = .look s → s = 0)
    (hpark : ∀ s, u.lock ≠ .park s) : Wakes u := by
  have hnot : ¬ Parked u := by
    rintro (hp | ⟨s, hs, hl | hl⟩)
    · exact absurd (hpending.symm.trans hp) nofun
    · have := hlook s hl
      omega
    · exact hpark s hl
  exact ⟨fun _ => hpending, fun hp => absurd hp hnot, fun i q hq hs => absurd hs.parked hnot,
    fun s q hs => absurd hs (hpark s), fun hp => absurd (hpending.symm.trans hp) nofun⟩

/-! ### What the consumer does -/

lemma Wakes.pollNothing {s} (h : Wakes u) (hheld : u.lock = .look s)
    (hque : u.ques[u.turn s]? = some q) (hquiet : Quiet q' u.flowOn) :
    Wakes (u.pollNothing s (u.turn s) q') := by
  have hturn : (u.pollNothing s (u.turn s) q').turn = u.turn := by
    funext t
    simp [User.turn, User.pollNothing]
  have hpending := h.polling (hheld ▸ trivial)
  have hlt := (List.getElem?_eq_some_iff.1 hque).1
  refine ⟨fun _ => hpending, ?_, fun i t ht hseen => ?_, fun t q hs hq => ?_, ?_⟩
  · rintro (hp | ⟨t, ht, hl | hl⟩)
    · exact h.parked (Or.inl hp)
    · cases hl
    · obtain rfl : s = t := ChainLock.park.inj hl
      exact h.parked (Or.inr ⟨s, ht, Or.inl hheld⟩)
  · change (u.ques.set (u.turn s) q')[i]? = some t at ht
    rw [getElem?_set] at ht
    split_ifs at ht
    · obtain rfl := some.inj ht
      exact Or.inl hquiet
    · have hold : Seen u i := by
        rcases hseen with hp | ⟨t, k, hk, hl | hl, hi⟩
        · exact Or.inl hp
        · cases hl
        · obtain rfl : s = t := ChainLock.park.inj hl
          exact Or.inr ⟨s, k, hk, Or.inl hheld, hturn ▸ hi⟩
      refine (h.seen i t ht hold).imp_right (Or.imp_right fun hdue => ?_)
      exact hdue.mono (fun hb => hb) (Nat.le_refl _) (Nat.le_refl _) (by simp [hheld])
  · obtain rfl : s = t := ChainLock.park.inj hs
    rw [hturn] at hq
    change (u.ques.set (u.turn s) q')[u.turn s]? = some q at hq
    rw [getElem?_set_self hlt] at hq
    obtain rfl := some.inj hq
    exact Or.inl hquiet
  · exact fun hp => by cases hpending.symm.trans hp

lemma Wakes.pollPark {s} (h : Wakes u) (hheld : u.lock = .park s) :
    Wakes { u with ppendsem := true, lock := .look (s + 1) } := by
  have hpending := h.polling (hheld ▸ trivial)
  refine ⟨fun _ => hpending, fun _ => Or.inl rfl, fun i q hq hseen => ?_, nofun,
    fun hp => absurd (hpending.symm.trans hp) nofun⟩
  rcases hseen with hp | ⟨t, k, hk, hl | hl, rfl⟩
  · exact absurd (hpending.symm.trans hp) nofun
  · obtain rfl : s + 1 = t := ChainLock.look.inj hl
    rcases Nat.lt_succ_iff_lt_or_eq.1 hk with hk | rfl
    · refine (h.seen _ q hq (Or.inr ⟨s, k, hk, Or.inr hheld, rfl⟩)).imp_right
        (Or.imp_right fun hdue => ?_)
      exact hdue.mono (fun hb => hb) (Nat.le_refl _) (Nat.le_refl _) (by simp [hheld])
    · -- this queue was held until now
      refine (h.held k q hheld hq).imp_right fun hoffs => ?_
      exact Or.inr (Or.inr (Or.inr (Or.inl hoffs)))
  · exact absurd hl nofun

lemma Wakes.pollPending {s} (h : Wakes u) (hreading : u.reading < u.ques.length)
    (hheld : u.lock = .look s) (hs : s = u.ques.length) (hreplies : u.replies = []) :
    Wakes u.pollPending := by
  refine ⟨fun hp => absurd hp id, fun _ => ?_, fun i q hq _ => ?_, nofun,
    fun _ hr => absurd hreplies hr⟩
  · exact h.parked (Or.inr ⟨s, by omega, Or.inl hheld⟩)
  · obtain ⟨k, hk, hi⟩ := exists_wrap hreading (List.getElem?_eq_some_iff.1 hq).1
    refine (h.seen i q hq (Or.inr ⟨s, k, hs ▸ hk, Or.inl hheld, hi⟩)).imp_right
      (Or.imp_right fun hdue => ?_)
    exact hdue.mono (fun hb => hb) (Nat.le_refl _) (Nat.le_refl _) (by simp [hheld])

/-! ### Every step keeps the invariant -/

theorem UserStep.wakes (hstep : UserStep u u') (hbase : Base u) (hmarks' : Marks u')
    (h : Wakes u) : Wakes u' := by
  cases hstep with
  | newBurst =>
    refine h.change rfl rfl rfl rfl rfl rfl rfl (Nat.le_refl _) (Nat.le_refl _)
      (fun i q hq => ⟨q, hq, Or.inl⟩) fun i => Or.imp_left ?_
    rintro ⟨burst, hmem, howes⟩
    exact ⟨burst, mem_append_left _ hmem, howes⟩
  | @post b i burst q id log hburst hmarked hdropping hque hfree =>
    refine h.setQue hque hfree rfl (fun hquiet => ?_) rfl rfl rfl rfl rfl rfl rfl (Nat.le_refl _)
      rfl fun j => ?_
    · refine (quiet_post (hbase.lists hque) hquiet id log).imp_right fun hpost => ?_
      have hlt := (List.getElem?_eq_some_iff.1 hque).1
      exact Or.inl (hmarks' i _ (getElem?_set_self hlt) hpost).owes
    · refine bursts_post b burst i q id log hburst fun hP => ?_
      rcases hP with hP | hP
      · exact absurd (hmarked.symm.trans hP) nofun
      · exact Or.inr hP
  | @push b i burst hburst hmarked =>
    refine h.change rfl rfl rfl rfl rfl rfl rfl (Nat.le_refl _) (Nat.le_refl _)
      (fun i q hq => ⟨q, hq, Or.inl⟩) fun j => Or.imp_left ?_
    refine exists_mem_set hburst fun hP => Or.inr ?_
    rcases hP with hP | hP | hP
    · obtain rfl : i = j := some.inj (hmarked.symm.trans hP)
      exact Or.inl (mem_append_right _ (mem_singleton_self _))
    · exact Or.inl (mem_append_left _ hP)
    · exact Or.inr hP
  | @unchain b i burst rest q hburst hmarked hoff hchain hque hfree =>
    refine h.setQue hque hfree rfl (fun hquiet => Or.inl (hquiet.inBurst false)) rfl rfl rfl rfl rfl
      rfl rfl (Nat.le_refl _) rfl fun j => ?_
    refine exists_mem_set hburst fun hP => Or.inr ?_
    rcases hP with hP | hP | hP
    · exact absurd (hmarked.symm.trans hP) nofun
    · rw [hchain] at hP
      rcases mem_cons.1 hP with rfl | hP
      · exact Or.inr rfl
      · exact Or.inl hP
    · exact absurd (hoff.symm.trans hP) nofun
  | wakeBurst hburst hoff => exact Wakes.wake h.polling h.parked h.held
  | @closeProducer i q id hque hfree hsub =>
    exact h.setQue hque hfree rfl (fun _ => Or.inr (Or.inr (Or.inl (Nat.succ_pos _)))) rfl rfl rfl
      rfl rfl rfl rfl (Nat.le_succ _) rfl fun j hj => hj
  | @closeReader i q id hque hfree hsub =>
    exact h.setQue hque hfree rfl (fun _ => Or.inr (Or.inr (Or.inl (Nat.succ_pos _)))) rfl rfl rfl
      rfl rfl rfl rfl (Nat.le_succ _) rfl fun j hj => hj
  | wakeCall hwaking => exact Wakes.wake h.polling h.parked h.held
  | flowCtrlOn =>
    exact h.change rfl rfl rfl rfl rfl rfl rfl (Nat.le_refl _) (Nat.le_refl _)
      (fun i q hq => ⟨q, hq, fun hquiet => Or.inl hquiet.flowCtrlOn⟩) fun j hj => hj
  | flowCtrlOff =>
    refine h.change rfl rfl rfl rfl rfl rfl rfl (Nat.le_refl _) (Nat.le_succ _)
      (fun i q hq => ⟨q, hq, fun _ => Or.inr (Or.inl (Nat.succ_pos _))⟩) fun j _ => ?_
    exact Or.inr (Or.inr (Or.inl (Nat.succ_pos _)))
  | flowOffLock hfree hoffs =>
    exact h.relock id rfl rfl rfl (fun hr => Or.inr ⟨hr, rfl⟩)
      (fun i q hq => Or.inr ⟨q, hq, fun hquiet => hquiet⟩) fun j _ => Or.inr (Or.inr (Or.inr rfl))
  | @flowOffWake k hheld hk =>
    refine Wakes.wake ?_ ?_ ?_
    · split_ifs
      · exact fun hp => absurd hp id
      · exact fun hp => absurd hp id
    · rintro (hp | ⟨s, -, hs⟩)
      · exact h.parked (Or.inl hp)
      · split_ifs at hs <;> exact absurd hs (by simp)
    · intro s q hs
      split_ifs at hs
  | replyLock frame hfree hclosed => exact h.setLock id (by simp [hfree])
  | replySample hheld hque => exact h.setLock id (by simp [hheld])
  | replyPush hheld hk =>
    exact h.relock id rfl rfl rfl (fun _ => Or.inl (Nat.succ_pos _))
      (fun i q hq => Or.inr ⟨q, hq, fun hquiet => hquiet⟩) fun j hj =>
        hj.mono (fun hb => hb) (Nat.le_succ _) (Nat.le_refl _) (by simp [hheld])
  | closeReplies hfree =>
    refine h.relock ?_ rfl rfl rfl (fun hr => absurd rfl hr)
      (fun i q hq => Or.inr ⟨q, hq, fun hquiet => hquiet⟩) fun j hj =>
        hj.mono (fun hb => hb) (Nat.le_refl _) (Nat.le_refl _) (by simp [hfree])
    rw [hfree]
    exact id
  | attachLock generation sid kind context hfree => exact h.setLock id (by simp [hfree])
  | @attachTry k generation sid kind context q hheld hque =>
    refine h.relock ?_ rfl rfl rfl (fun hr => Or.inr ⟨hr, rfl⟩) (fun i t ht => ?_) fun j hj =>
        hj.mono (fun hb => hb) (Nat.le_refl _) (Nat.le_refl _) (by simp [hheld])
    · cases (q.tryAttach generation sid kind context).2 <;> exact id
    · rw [getElem?_set] at ht
      split_ifs at ht with hij hlt
      · subst hij
        obtain rfl := some.inj ht
        exact Or.inr ⟨q, hque, fun hquiet => hquiet.tryAttach generation sid kind context⟩
      · exact Or.inr ⟨t, ht, fun hquiet => hquiet⟩
  | @attachNew k generation sid kind context hheld hk =>
    refine h.relock id rfl rfl rfl (fun hr => Or.inr ⟨hr, rfl⟩) (fun i t ht => ?_) fun j hj =>
        hj.mono (fun hb => hb) (Nat.le_refl _) (Nat.le_refl _) (by simp [hheld])
    rw [getElem?_append] at ht
    split_ifs at ht with hi
    · exact Or.inr ⟨t, ht, fun hquiet => hquiet⟩
    · obtain ⟨_, rfl⟩ := List.getElem?_eq_some_iff.1 ht
      rw [List.getElem_singleton]
      exact Or.inl ((Quiet.new _ _).tryAttach generation sid kind context)
  | pollBegin hfree =>
    unfold User.pollBegin
    cases u.replies with
    | nil => exact Wakes.fresh rfl (by simp) (by simp)
    | cons reply replies => exact Wakes.fresh rfl (by simp) (by simp)
  | pollDue hheld hque =>
    refine Wakes.fresh (h.polling (hheld ▸ trivial)) (fun s hs => ?_) fun s hs => ?_
    · dsimp only at hs
      split_ifs at hs
      exact (ChainLock.look.inj hs).symm
    · dsimp only at hs
      split_ifs at hs
  | pollReply hheld hreplies => exact Wakes.fresh (h.polling (hheld ▸ trivial)) nofun nofun
  | pollEvent hheld hs hque hpoll => exact Wakes.fresh (h.polling (hheld ▸ trivial)) nofun nofun
  | pollPassed hheld hs hreplies => exact Wakes.fresh (h.polling (hheld ▸ trivial)) nofun nofun
  | @pollNothing s q q' hheld hs hque hpoll =>
    have hquiet := quiet_pollOldest (hbase.lists hque) u.flowOn (by rw [hpoll])
    rw [hpoll] at hquiet
    exact h.pollNothing hheld hque hquiet
  | @pollPark s hheld => exact h.pollPark hheld
  | @pollPending s hheld hs hreplies => exact h.pollPending hbase.reading_lt hheld hs hreplies

lemma Wakes.start (n : ℕ) : Wakes (User.new n : User η α κ ρ) := Wakes.fresh rfl nofun nofun

lemma Marks.start (n : ℕ) : Marks (User.new n : User η α κ ρ) := by
  intro i q hq hburst
  obtain rfl := mem_singleton.1 (mem_of_getElem? hq)
  exact absurd hburst nofun

lemma Reachable.wakes {n} (hmin : 4 ≤ n) (hmax : n ≤ maxEventsPerQue) (h : Reachable n u) :
    Marks u ∧ Wakes u := by
  induction h with
  | refl => exact ⟨Marks.start n, Wakes.start n⟩
  | tail hreach hstep ih =>
    obtain ⟨hbase, hlock⟩ := Reachable.inv hmin hmax hreach
    have hmarks := hstep.marks hbase ih.1
    exact ⟨hmarks, hstep.wakes hbase hmarks ih.2⟩

/-- **No wake-up is lost.**  When the last poll has parked and no wake was fired since it began, the
waker is in its slot, and a wake is still to come for a queue that holds an entry its gate would let
go or an end to report, and for a reply that is owed. -/
theorem no_lost_wakeup {n : ℕ} (hmin : 4 ≤ n) (hmax : n ≤ maxEventsPerQue) (h : Reachable n u)
    (hpending : u.pending = true) (hwoken : u.woken = false) :
    u.ppendsem = true ∧
    (∀ (i : ℕ) (q : QueInner η α κ), u.ques[i]? = some q →
      0 < q.used ∧ q.mayDrain u.flowOn = true ∨
        (∃ s, some s ∈ q.subs ∧ s.producerGone = true ∧ s.endReported = false ∧ s.npend = 0) →
      WakeDue u i) ∧
    (u.replies ≠ [] → 0 < u.waking) := by
  obtain ⟨-, hwakes⟩ := h.wakes hmin hmax
  have hnot : ¬ u.woken = true := by simp [hwoken]
  refine ⟨(hwakes.parked (Or.inl hpending)).resolve_right hnot, fun i q hq hready => ?_,
    fun hreplies => (hwakes.owed hpending hreplies).resolve_left hnot⟩
  rcases hwakes.seen i q hq (Or.inl hpending) with hquiet | hfired | hdue
  · rcases hready with ⟨hpos, hgate⟩ | ⟨s, hs, hgone, hend, hnone⟩
    · exact absurd (hgate.symm.trans (hquiet.gate hpos)) nofun
    · obtain ⟨j, hj⟩ := mem_iff_getElem?.1 hs
      have hpos := hquiet.ends j s hj hgone hend
      omega
  · exact absurd hfired hnot
  · exact hdue

/-- A post to a queue on which the consumer has parked. -/
theorem no_lost_wakeup_post : ∃ u : User Unit Unit Unit Unit, Reachable 4 u ∧ u.pending = true ∧
    u.woken = false ∧ (∃ q, u.ques[0]? = some q ∧ 0 < q.used) ∧ WakeDue u 0 := by
  have hnew : Reachable 4 (User.new 4 : User Unit Unit Unit Unit) := .refl
  have hattached := (hnew.tail (.attachLock 0 0 .val () rfl)).tail (.attachTry rfl rfl)
  have hlooked := (hattached.tail (.pollBegin rfl)).tail (.pollNothing rfl Nat.zero_lt_one rfl rfl)
  have hparked := (hlooked.tail (.pollPark rfl)).tail (.pollPending rfl rfl rfl)
  have hposted := (hparked.tail (.newBurst _)).tail
    (.post (b := 0) (i := 0) (AttachId.new 0 0) ⟨(), 1, .val ()⟩ rfl rfl rfl rfl (not_holds rfl 0))
  refine ⟨_, hposted, rfl, rfl, ⟨_, rfl, Nat.zero_lt_one⟩, ?_⟩
  exact (no_lost_wakeup (Nat.le_refl 4) (by decide) hposted rfl rfl).2.1 0 _ rfl
    (Or.inl ⟨Nat.zero_lt_one, rfl⟩)

end EventQueue
