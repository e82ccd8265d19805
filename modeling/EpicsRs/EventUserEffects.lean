/-
**What the operations on a queue mean for its circuit.**

The consumer of a circuit reads little of a queue: how many entries have left it, how many are in it,
how many ends are to report, and whether its gate lets an entry go.  For each operation on a queue
this module says what it does to these.

Main result: `EventQueue.quiet_post`.
-/

import EpicsRs.EventQueueRuns

set_option autoImplicit false

namespace EventQueue

open RingCells SlotTable Option QueInner

variable {η α κ : Type} {q q' : QueInner η α κ} {es : List (Entry η α)}

/-- The queue holds entries of the monitors `ids`, oldest first. -/
def Lists (q : QueInner η α κ) (ids : List AttachId) : Prop := ∃ es, Inv q es ∧ idsOf es = ids

/-- Entries of the monitors `new` were appended, and the first `gone` entries have left. -/
def Moves (q q' : QueInner η α κ) (new : List AttachId) : Prop :=
  ∀ ids, Lists q ids → ∃ gone ids', Lists q' ids' ∧ ids ++ new = gone ++ ids' ∧
    q'.taken = q.taken + gone.length

def load (q : QueInner η α κ) : ℕ := q.used + q.unreportedEnds

/-- There is nothing that a poll would find: no entry that the gate lets go, and no end to report
of a monitor without entries. -/
structure Quiet (q : QueInner η α κ) (flowOn : Bool) : Prop where
  gate : 0 < q.used → q.mayDrain flowOn = false
  ends : ∀ (i : ℕ) (s : SubQ κ), q.subs[i]? = some (some s) → s.producerGone = true →
    s.endReported = false → 0 < s.npend

lemma Lists.used_eq {ids} (h : Lists q ids) : q.used = ids.length := by
  obtain ⟨es, hinv, rfl⟩ := h
  exact hinv.used_eq

lemma Moves.of_inv (hinv : ∀ es, Inv q es → Inv q' es) (htaken : q'.taken = q.taken) :
    Moves q q' [] := by
  rintro ids ⟨es, h, rfl⟩
  exact ⟨[], idsOf es, ⟨es, hinv es h, rfl⟩, by simp, htaken⟩

/-! ### Closing and attaching -/

lemma closeProducer_frame (q : QueInner η α κ) (id : AttachId) :
    ∃ subs ends, q.closeProducer id = { q with subs := subs, unreportedEnds := ends } ∧
      ends ≤ q.unreportedEnds + 1 := by
  unfold closeProducer
  cases q.sub id with
  | none => exact ⟨q.subs, q.unreportedEnds, rfl, by omega⟩
  | some s =>
    dsimp only
    split_ifs
    · exact ⟨q.subs, q.unreportedEnds, rfl, by omega⟩
    · exact ⟨_, _, rfl, Nat.le_refl _⟩

lemma freeSlot_unreportedEnds (id : AttachId) :
    (q.freeSlot id).unreportedEnds ≤ q.unreportedEnds := by
  unfold freeSlot
  dsimp only
  split_ifs <;> omega

lemma closeReader_frame (q : QueInner η α κ) (id : AttachId) :
    ∃ subs ends free quota, q.closeReader id = { q with
        subs := subs
        unreportedEnds := ends
        free := free
        quota := quota } ∧ ends ≤ q.unreportedEnds := by
  unfold closeReader
  cases q.sub id with
  | none => exact ⟨q.subs, q.unreportedEnds, q.free, q.quota, rfl, Nat.le_refl _⟩
  | some s =>
    dsimp only
    split_ifs
    · exact ⟨_, _, _, _, rfl, freeSlot_unreportedEnds id⟩
    · exact ⟨_, q.unreportedEnds, q.free, q.quota, rfl, Nat.le_refl _⟩

lemma tryAttach_frame (q : QueInner η α κ) (generation : UInt64) (sid : UInt32) (kind : LogKind)
    (context : κ) :
    ∃ subs free quota, (q.tryAttach generation sid kind context).1 =
      { q with subs := subs, free := free, quota := quota } := by
  unfold tryAttach
  split_ifs
  · exact ⟨q.subs, q.free, q.quota, rfl⟩
  · cases q.free with
    | nil => exact ⟨q.subs, q.free, q.quota, rfl⟩
    | cons slot free => exact ⟨_, _, _, rfl⟩

lemma moves_closeProducer (id : AttachId) : Moves q (q.closeProducer id) [] := by
  obtain ⟨subs, ends, heq, -⟩ := closeProducer_frame q id
  exact Moves.of_inv (fun es h => (h.closeProducer id).1) (by rw [heq])

lemma moves_closeReader (id : AttachId) : Moves q (q.closeReader id) [] := by
  obtain ⟨subs, ends, free, quota, heq, -⟩ := closeReader_frame q id
  exact Moves.of_inv (fun es h => (h.closeReader id).1) (by rw [heq])

lemma moves_tryAttach (generation : UInt64) (sid : UInt32) (kind : LogKind) (context : κ) :
    Moves q (q.tryAttach generation sid kind context).1 [] := by
  obtain ⟨subs, free, quota, heq⟩ := tryAttach_frame q generation sid kind context
  exact Moves.of_inv (fun es h => (h.tryAttach generation sid kind context).1) (by rw [heq])

lemma moves_inBurst (b : Bool) : Moves q { q with inBurst := b } [] :=
  Moves.of_inv (fun _ h => h.flags q.draining b q.taken) rfl

lemma load_closeProducer (id : AttachId) : load (q.closeProducer id) ≤ load q + 1 := by
  obtain ⟨subs, ends, heq, hle⟩ := closeProducer_frame q id
  rw [heq]
  exact Nat.add_le_add_left hle q.used

lemma load_closeReader (id : AttachId) : load (q.closeReader id) ≤ load q := by
  obtain ⟨subs, ends, free, quota, heq, hle⟩ := closeReader_frame q id
  rw [heq]
  exact Nat.add_le_add_left hle q.used

lemma load_tryAttach (generation : UInt64) (sid : UInt32) (kind : LogKind) (context : κ) :
    load (q.tryAttach generation sid kind context).1 = load q := by
  obtain ⟨subs, free, quota, heq⟩ := tryAttach_frame q generation sid kind context
  rw [heq]
  rfl

/-! ### Posting -/

def PostOutcome.new (id : AttachId) : PostOutcome → List AttachId
  | .appended _ => [id]
  | _ => []

lemma moves_post (flowOn : Bool) (id : AttachId) (log : PostLog η α) :
    Moves q (q.post flowOn id log).1 ((q.post flowOn id log).2.1.new id) := by
  rintro ids ⟨es, h, rfl⟩
  rcases h.post_cases flowOn id log with ⟨heq, -⟩ | ⟨s, hsub, -, ⟨heq, hroom⟩ | hover⟩
  · rw [heq]
    exact ⟨[], idsOf es, ⟨es, h, rfl⟩, by simp [PostOutcome.new], rfl⟩
  · obtain ⟨hs, rfl⟩ := sub_eq_some.1 hsub
    rw [heq]
    refine ⟨[], idsOf es ++ [s.id], ⟨_, h.append hs _ (hroom.imp_right And.right), ?_⟩, rfl, rfl⟩
    rw [idsOf_append]
    rfl
  · obtain ⟨⟨pre, old, post, s', new, heq, rfl, -, hlast, hid, hnpend, hlast', hmon, -⟩, houtcome,
      -⟩ := hover
    obtain ⟨hs, rfl⟩ := sub_eq_some.1 hsub
    have hnew : (q.post flowOn s.id log).2.1.new s.id = [] := by
      rcases houtcome with h | h <;> rw [h] <;> rfl
    have hinv := (h.overwrite s' hs hlast rfl hid hnpend hlast' hmon new).1
    rw [heq, hnew]
    refine ⟨[], _, ⟨_, hinv, rfl⟩, ?_, rfl⟩
    simp

lemma load_post (hlists : ∃ ids, Lists q ids) (flowOn : Bool) (id : AttachId)
    (log : PostLog η α) :
    load (q.post flowOn id log).1 = load q + ((q.post flowOn id log).2.1.new id).length := by
  obtain ⟨ids, es, h, -⟩ := hlists
  rcases h.post_cases flowOn id log with ⟨heq, -⟩ | ⟨s, -, -, ⟨heq, -⟩ | hover⟩
  · rw [heq]
    rfl
  · rw [heq]
    exact Nat.add_right_comm q.used 1 q.unreportedEnds
  · obtain ⟨⟨_, _, _, _, _, heq, -⟩, houtcome, -⟩ := hover
    have hnew : (q.post flowOn id log).2.1.new id = [] := by
      rcases houtcome with h | h <;> rw [h] <;> rfl
    rw [heq, hnew]
    rfl

lemma inBurst_post (hlists : ∃ ids, Lists q ids) (flowOn : Bool) (id : AttachId)
    (log : PostLog η α) :
    (q.post flowOn id log).1.inBurst = (q.inBurst || (q.post flowOn id log).2.2) := by
  obtain ⟨ids, es, h, -⟩ := hlists
  rcases h.post_cases flowOn id log with ⟨heq, -⟩ | ⟨s, -, -, ⟨heq, -⟩ | hover⟩
  · rw [heq, Bool.or_false]
  · rw [heq]
    rfl
  · obtain ⟨⟨_, _, _, _, _, heq, -⟩, -, hchain⟩ := hover
    rw [heq, hchain, Bool.or_false]
    rfl

/-- **A post that gives the consumer something to read marks the queue.** -/
theorem quiet_post (hlists : ∃ ids, Lists q ids) {flowOn} (hquiet : Quiet q flowOn) (id : AttachId)
    (log : PostLog η α) :
    Quiet (q.post flowOn id log).1 flowOn ∨ (q.post flowOn id log).1.inBurst = true := by
  obtain ⟨ids, es, h, -⟩ := hlists
  rcases h.post_cases flowOn id log with ⟨heq, -⟩ | ⟨s, hsub, -, ⟨heq, hroom⟩ | hover⟩
  · rw [heq]
    exact Or.inl hquiet
  · rw [heq]
    by_cases hempty : q.used = 0
    · -- the first entry of an empty ring
      right
      have hfirst : q.ringSpace = q.size := by rw [ringSpace, hempty, Nat.sub_zero]
      change (q.inBurst || (decide (q.ringSpace = q.size) && !q.inBurst)) = true
      cases q.inBurst <;> simp [hfirst]
    · -- the gate was closed, so the client has said EVENTS_OFF and the monitor had no entry
      left
      have hgate := hquiet.gate (Nat.pos_of_ne_zero hempty)
      simp only [mayDrain, Bool.or_eq_false_iff, Bool.not_eq_false',
        decide_eq_false_iff_not] at hgate
      obtain ⟨⟨hdraining, hflow⟩, hdup⟩ := hgate
      have hidle : s.npend = 0 := by
        rcases hroom with hidle | ⟨hoff, -⟩
        · exact hidle
        · rw [hflow] at hoff
          cases hoff
      refine ⟨fun _ => ?_, fun j t ht hgone hend => ?_⟩
      · change (q.draining || !flowOn ||
          decide (0 < if 0 < s.npend then q.nDuplicates + 1 else q.nDuplicates)) = false
        rw [hidle, if_neg (Nat.lt_irrefl 0)]
        simp [hdraining, hflow, hdup]
      · rcases get_set ht with ⟨-, heq⟩ | ⟨-, ht⟩
        · rw [← some.inj heq]
          exact Nat.succ_pos _
        · exact hquiet.ends j t ht hgone hend
  · obtain ⟨⟨pre, old, post, s', new, heq, rfl, -, hlast, hid, hnpend, hlast', hmon, -⟩, -⟩ := hover
    obtain ⟨hs, rfl⟩ := sub_eq_some.1 hsub
    left
    rw [heq]
    refine ⟨hquiet.gate, fun j t ht hgone hend => ?_⟩
    rcases get_set ht with ⟨-, heq⟩ | ⟨-, ht⟩
    · obtain rfl := some.inj heq
      have hgone' : s.producerGone = true := by rw [← hgone]; exact (congrArg Monitor.producerGone hmon).symm
      have hend' : s.endReported = false := by rw [← hend]; exact (congrArg Monitor.endReported hmon).symm
      rw [hnpend]
      exact hquiet.ends _ s hs hgone' hend'
    · exact hquiet.ends j t ht hgone hend

/-! ### Reading -/

lemma release_unreportedEnds (id : AttachId) :
    (q.release id).1.unreportedEnds ≤ q.unreportedEnds := by
  unfold release
  cases q.sub id with
  | none => exact Nat.le_refl _
  | some s =>
    dsimp only
    split_ifs
    · exact freeSlot_unreportedEnds id
    · exact freeSlot_unreportedEnds id
    · exact Nat.le_refl _
    · exact Nat.le_refl _

lemma advance_unreportedEnds {r} (h : q.advance = some (q', r)) :
    q'.unreportedEnds ≤ q.unreportedEnds := by
  unfold advance at h
  split_ifs at h
  cases he : q.entryAt q.getix with
  | none =>
    rw [he] at h
    exact absurd h nofun
  | some e =>
    rw [he] at h
    have hq := congrArg (fun r => r.1.unreportedEnds) (some.inj h)
    exact hq.symm.trans_le (release_unreportedEnds e.id)

lemma takeOldestLoop_unreportedEnds (n : ℕ) : ∀ q : QueInner η α κ,
    (q.takeOldestLoop n).1.unreportedEnds ≤ q.unreportedEnds := by
  induction n with
  | zero => exact fun _ => Nat.le_refl _
  | succ n ih =>
    intro q
    unfold takeOldestLoop
    rcases hadvance : q.advance with _ | ⟨q', i, id, live⟩
    · exact Nat.le_refl _
    · have hq' := advance_unreportedEnds hadvance
      dsimp only
      cases live with
      | false => exact (ih _).trans hq'
      | true =>
        cases q'.sub id <;> cases q'.entryAt i <;> exact hq'

lemma takeOldest_unreportedEnds (flowOn : Bool) :
    (q.takeOldest flowOn).1.unreportedEnds ≤ q.unreportedEnds := by
  unfold takeOldest
  split_ifs
  · exact Nat.le_refl _
  · exact takeOldestLoop_unreportedEnds q.used _

lemma takeEnded_frame (q : QueInner η α κ) :
    q.takeEnded = (q, none) ∨ ∃ subs e, q.takeEnded =
      ({ q with subs := subs, unreportedEnds := q.unreportedEnds - 1 }, some e) ∧
        0 < q.unreportedEnds := by
  unfold takeEnded
  by_cases hzero : q.unreportedEnds = 0
  · rw [if_pos hzero]
    exact Or.inl rfl
  · rw [if_neg hzero]
    cases q.subs.findIdx? _ with
    | none => exact Or.inl rfl
    | some i =>
      dsimp only
      cases q.subAt i with
      | none => exact Or.inl rfl
      | some s => exact Or.inr ⟨_, _, rfl, Nat.pos_of_ne_zero hzero⟩

theorem Inv.look (h : Inv q es) (flowOn : Bool) :
    ∃ es', Drains q es (q.pollOldest flowOn).1 es' ∧
      (q.pollOldest flowOn).1.unreportedEnds ≤ q.unreportedEnds ∧
      ((q.pollOldest flowOn).2 ≠ none → load (q.pollOldest flowOn).1 < load q) ∧
      ((q.pollOldest flowOn).2 = none → Quiet (q.pollOldest flowOn).1 flowOn) := by
  obtain ⟨es', hdrains, -, hnone, hsome⟩ := h.takeOldest flowOn
  have hends := takeOldest_unreportedEnds (q := q) flowOn
  unfold QueInner.pollOldest
  rcases htake : q.takeOldest flowOn with ⟨q₁, _ | e⟩
  · rw [htake] at hdrains hnone hends
    dsimp only at hends ⊢
    obtain ⟨hinv, -, hquiet⟩ := hdrains.inv.takeEnded
    have hused : q₁.used ≤ q.used := by
      obtain ⟨gone, rfl, -⟩ := hdrains.suffix
      rw [hdrains.inv.used_eq_length, h.used_eq_length, List.length_append]
      omega
    rcases takeEnded_frame q₁ with heq | ⟨subs, e, heq, hpos⟩
    · rw [heq] at hquiet ⊢
      refine ⟨es', hdrains, hends, fun hr => absurd rfl hr, fun _ => ⟨fun hpos => ?_, (hquiet rfl).2⟩⟩
      rcases hnone rfl with rfl | ⟨hq, hgate⟩
      · rw [hdrains.inv.used_eq_length] at hpos
        exact absurd hpos (Nat.lt_irrefl 0)
      · rw [hq]
        exact hgate
    · rw [heq] at hinv ⊢
      refine ⟨es', ⟨hinv, hdrains.suffix, hdrains.inBurst_eq⟩, ?_, fun _ => ?_, nofun⟩
      · dsimp only
        omega
      · simp only [load]
        omega
  · rw [htake] at hdrains hsome hends
    have hlt := hsome nofun
    refine ⟨es', hdrains, hends, fun _ => ?_, nofun⟩
    have hused : q₁.used < q.used := by rwa [hdrains.inv.used_eq_length, h.used_eq_length]
    exact Nat.add_lt_add_of_lt_of_le hused hends

lemma moves_pollOldest (flowOn : Bool) : Moves q (q.pollOldest flowOn).1 [] := by
  rintro ids ⟨es, h, rfl⟩
  obtain ⟨es', ⟨hinv, ⟨gone, rfl, htaken⟩, -⟩, -⟩ := h.look flowOn
  refine ⟨idsOf gone, idsOf es', ⟨es', hinv, rfl⟩, by simp, ?_⟩
  rw [htaken, length_idsOf]

lemma load_pollOldest (hlists : ∃ ids, Lists q ids) (flowOn : Bool) :
    load (q.pollOldest flowOn).1 ≤ load q ∧
      ((q.pollOldest flowOn).2 ≠ none → load (q.pollOldest flowOn).1 < load q) := by
  obtain ⟨ids, es, h, -⟩ := hlists
  obtain ⟨es', ⟨hinv, ⟨gone, hgone, -⟩, -⟩, hends, hsome, -⟩ := h.look flowOn
  refine ⟨?_, hsome⟩
  have hused : (q.pollOldest flowOn).1.used ≤ q.used := by
    rw [hinv.used_eq_length, h.used_eq_length, hgone, List.length_append]
    omega
  exact Nat.add_le_add hused hends

lemma inBurst_pollOldest (hlists : ∃ ids, Lists q ids) (flowOn : Bool) :
    (q.pollOldest flowOn).1.inBurst = q.inBurst := by
  obtain ⟨ids, es, h, -⟩ := hlists
  obtain ⟨es', hdrains, -⟩ := h.look flowOn
  exact hdrains.inBurst_eq

lemma quiet_pollOldest (hlists : ∃ ids, Lists q ids) (flowOn : Bool)
    (hnone : (q.pollOldest flowOn).2 = none) : Quiet (q.pollOldest flowOn).1 flowOn := by
  obtain ⟨ids, es, h, -⟩ := hlists
  obtain ⟨es', -, -, -, hquiet⟩ := h.look flowOn
  exact hquiet hnone

end EventQueue
