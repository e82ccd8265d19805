/-
**Blocks are exclusive as long as they are taken with nothing set aside.**

The holders are tested when a request enters the heap, when a holder is newly taken — for the heap
only — and when one is released, for the requests held back only.  A request that was set aside goes
back to the heap untested, and a holder that takes over from another does not look at the requests
held back.  In runs without these the gate is exact.

Main result: `AsynBlock.block_exact`.
-/

import EpicsRs.AsynBlock

set_option autoImplicit false

namespace AsynBlock

open KeyTable StepRuns List Option

/-! ### Releases and new holders -/

/-- A change of the book by which no holder is taken, and of which the actor is told. -/
structure Releases (b b' : Book) : Prop where
  port : b'.port = none ∨ b'.port = b.port
  device : ∀ dp, b'.dpCommons.lookup dp = none ∨ b'.dpCommons.lookup dp = b.dpCommons.lookup dp
  told : b'.released = false → b.released = false ∧ b'.port = b.port ∧
    ∀ dp, b'.dpCommons.lookup dp = b.dpCommons.lookup dp

lemma Releases.of_counts (b : Book) (counts : Table ℕ (ℕ × ℕ)) :
    Releases b { b with counts := counts } :=
  ⟨.inr rfl, fun _ => .inr rfl, fun h => ⟨h, rfl, fun _ => rfl⟩⟩

lemma Book.unblock_releases {b b' token dp allDevices} (h : b.unblock token dp allDevices = some b')
    : Releases b b' := by
  unfold Book.unblock at h
  split_ifs at h with hzero howner
  · cases h
    cases allDevices with
    | true => exact ⟨.inl rfl, fun _ => .inr rfl, nofun⟩
    | false =>
      refine ⟨.inr rfl, fun dp' => ?_, nofun⟩
      show (b.dpCommons.erase dp).lookup dp' = none ∨
        (b.dpCommons.erase dp).lookup dp' = b.dpCommons.lookup dp'
      rw [lookup_erase]
      split_ifs with hdp
      · exact .inl rfl
      · exact .inr rfl
  · cases h
    exact Releases.of_counts b _

lemma Book.release_releases (b : Book) (token : ℕ) : Releases b (b.release token) := by
  have hlookup : ∀ dp, (b.release token).dpCommons.lookup dp =
      (b.dpCommons.lookup dp).filter fun owner => owner != token := fun dp => lookup_retain _ _ dp
  refine ⟨?_, fun dp => ?_, fun htold => ?_⟩
  · show (if b.port == some token then none else b.port) = none ∨ _
    split_ifs with hport
    · exact .inl rfl
    · exact .inr (if_neg hport)
  · rw [hlookup]
    cases b.dpCommons.lookup dp with
    | none => exact .inl rfl
    | some owner =>
      rw [filter_some]
      split_ifs with howner
      · exact .inr rfl
      · exact .inl rfl
  · have hall : b.released = false ∧ (b.port == some token) = false ∧
        (b.dpCommons.entries.any fun e => e.2 == token) = false := by
      have hor : (b.released || b.port == some token ||
        b.dpCommons.entries.any fun e => e.2 == token) = false := htold
      simpa only [Bool.or_eq_false_iff, and_assoc] using hor
    obtain ⟨hreleased, hport, hany⟩ := hall
    refine ⟨hreleased, if_neg (by rw [hport]; exact Bool.false_ne_true), fun dp => ?_⟩
    rw [hlookup]
    cases hdp : b.dpCommons.lookup dp with
    | none => rfl
    | some owner =>
      have hmem : (⟨dp, owner⟩ : Σ _ : DpKey, ℕ) ∈ b.dpCommons.entries := AList.mem_lookup_iff.1 hdp
      have howner := any_eq_false.1 hany _ hmem
      simpa using howner

lemma Book.settle_port (b : Book) (token : ℕ) (dp : DpKey) :
    (b.settle token dp).2.port = if 0 < (b.countsOf token).1 then some token else b.port := by
  simp only [Book.settle]
  by_cases hcount : 0 < (b.countsOf token).1
  · by_cases hport : b.port = some token
    · simp [hport]
    · simp [hcount, hport]
  · simp [hcount]

lemma Book.settle_lookup (b : Book) (token : ℕ) (dp dp' : DpKey) :
    (b.settle token dp).2.dpCommons.lookup dp' =
      if 0 < (b.countsOf token).2 ∧ dp' = dp then some token else b.dpCommons.lookup dp' := by
  simp only [Book.settle]
  by_cases hcount : 0 < (b.countsOf token).2
  · by_cases hdevice : b.dpCommons.lookup dp = some token
    · by_cases hdp : dp' = dp
      · subst hdp
        simp [hdevice]
      · simp [hdevice, hdp]
    · simp [hcount, hdevice, lookup_put]
  · simp [hcount]

/-! ### The condition and the invariant -/

section Runs

variable {multiDevice : Bool}

/-- **A callback returns whose user takes no holder over requests set aside**: what is parked or kept
out by a section, and would wait for the new holder, is the user's own; and where the user takes a
holder over from another, it has no request of its own held back. -/
def SettlesClear (multiDevice : Bool) (s : Actor) (token : ℕ) (dp : DpKey) : Prop :=
  (0 < (s.book.countsOf token).1 →
      ∀ r ∈ s.parked ++ s.hold.back, r.dispatch = .queued → r.token = some token) ∧
    (0 < (s.book.countsOf token).2 →
      ∀ r ∈ s.parked ++ s.hold.back, r.dispatch = .queued → DpKey.of multiDevice r.addr = dp →
        r.token = some token) ∧
    ((0 < (s.book.countsOf token).1 ∧ s.book.port ≠ none ∧ s.book.port ≠ some token) ∨
        (0 < (s.book.countsOf token).2 ∧ s.book.dpCommons.lookup dp ≠ none ∧
          s.book.dpCommons.lookup dp ≠ some token) →
      ∀ r ∈ s.pendingWhileBlocked, r.token ≠ some token)

instance (s : Actor) (token : ℕ) (dp : DpKey) : Decidable (SettlesClear multiDevice s token dp) :=
  inferInstanceAs (Decidable (_ ∧ _ ∧ _))

/-- The end of a request, if it is a callback of a user with a block identity, settles clear. -/
def EndsClear (multiDevice : Bool) (s : Actor) (r : Req) : Prop :=
  r.dispatch ≠ .direct → ∀ token ∈ r.token, SettlesClear multiDevice s token (DpKey.of multiDevice r.addr)

instance (s : Actor) (r : Req) : Decidable (EndsClear multiDevice s r) :=
  inferInstanceAs (Decidable (_ → ∀ token ∈ r.token, _))

def Place.request : Place → Option Req
  | .running r => some r
  | _ => none

def Clear (multiDevice : Bool) (s : Actor) : Action → Prop
  | .finish _ => ∀ r ∈ s.place.request, EndsClear multiDevice s r
  | .lentFinish r _ => EndsClear multiDevice s r
  | _ => True

instance decidableClear (s : Actor) : ∀ a, Decidable (Clear multiDevice s a)
  | .finish _ => inferInstanceAs (Decidable (∀ r ∈ s.place.request, _))
  | .lentFinish r _ => inferInstanceAs (Decidable (EndsClear multiDevice s r))
  | .submit _ | .block _ _ | .unblock _ _ _ | .release _ | .linkTo _ _ | .readmitReleased | .enqueue | .rescan
  | .dropLeft _ | .process _ | .sort | .giveBack => isTrue trivial

/-- A request that a holder may stall is admitted by both. -/
def Ok (multiDevice : Bool) (b : Book) (r : Req) : Prop :=
  r.dispatch = .queued → b.admits r.token (DpKey.of multiDevice r.addr) = true

/-- The actor runs a request or is lent: it has taken what it had dequeued. -/
def Place.away : Place → Bool
  | .home => false
  | .running _ | .lent => true
  | .sorting _ _ isLent => isLent

/-- **The gate is exact**: what can get to run is admitted, and what is held back is refused or about to
be tested again. -/
structure Inv (multiDevice : Bool) (s : Actor) : Prop where
  heap : ∀ r ∈ s.heap, Ok multiDevice s.book r
  dequeued : ∀ r ∈ s.dequeued, Ok multiDevice s.book r
  parked : ∀ r ∈ s.parked, Ok multiDevice s.book r
  back : ∀ r ∈ s.hold.back, Ok multiDevice s.book r
  pending : s.book.released = false → ∀ r ∈ s.pendingWhileBlocked, s.admits multiDevice r = false
  away : s.place.away = true → s.dequeued = none

lemma not_mem_none (p : Req → Prop) : ∀ r ∈ (none : Option Req), p r := fun _ h =>
  absurd h.symm (some_ne_none _)

lemma inv_init (link : Link) : Inv multiDevice (Actor.init link) :=
  ⟨forall_mem_nil _, not_mem_none _, forall_mem_nil _, forall_mem_nil _,
    fun _ => forall_mem_nil _, nofun⟩

variable {token : Option ℕ}

lemma Book.free_of_none_or {o o'} (h : o' = none ∨ o' = o) (hfree : Book.free token o = true)
    : Book.free token o' = true := by
  rcases h with rfl | rfl
  · rfl
  · exact hfree

variable {r : Req}

lemma Ok.releases {b b'} (h : Ok multiDevice b r) (hb : Releases b b') :
    Ok multiDevice b' r := by
  intro hqueued
  have hadmits := h hqueued
  simp only [Book.admits, Bool.and_eq_true] at hadmits ⊢
  exact ⟨Book.free_of_none_or hb.port hadmits.1, Book.free_of_none_or (hb.device _) hadmits.2⟩

variable {s : Actor}

lemma Inv.releases {b'} (h : Inv multiDevice s) (hb : Releases s.book b') :
    Inv multiDevice { s with book := b' } := by
  refine ⟨fun r hr => (h.heap r hr).releases hb, fun r hr => (h.dequeued r hr).releases hb,
    fun r hr => (h.parked r hr).releases hb, fun r hr => (h.back r hr).releases hb, ?_, h.away⟩
  intro htold r hr
  obtain ⟨hreleased, hport, hdevice⟩ := hb.told htold
  have hrefused : s.book.admits r.token (DpKey.of multiDevice r.addr) = false :=
    h.pending hreleased r hr
  show b'.admits r.token (DpKey.of multiDevice r.addr) = false
  simp only [Book.admits] at hrefused ⊢
  rw [hport, hdevice]
  exact hrefused

/-! ### A callback returns -/

/-- **What was set aside stays admitted** when the new holder is its own user. -/
theorem SettlesClear.ok {token dp} (h : SettlesClear multiDevice s token dp)
    (hr : r ∈ s.parked ++ s.hold.back) (hok : Ok multiDevice s.book r) :
    Ok multiDevice (s.book.settle token dp).2 r := by
  obtain ⟨hport, hdevice, -⟩ := h
  intro hqueued
  have hadmits := hok hqueued
  simp only [Book.admits, Bool.and_eq_true] at hadmits ⊢
  refine ⟨?_, ?_⟩
  · rw [Book.settle_port]
    split_ifs with hcount
    · rw [hport hcount r hr hqueued]
      exact beq_self_eq_true _
    · exact hadmits.1
  · rw [Book.settle_lookup]
    split_ifs with hcount
    · rw [hdevice hcount.1 r hr hqueued hcount.2]
      exact beq_self_eq_true _
    · exact hadmits.2

lemma Book.not_free {o} (h : Book.free token o = false) :
    o ≠ none ∧ token ≠ o := by
  cases o with
  | none => cases h
  | some owner =>
    refine ⟨nofun, fun htoken => ?_⟩
    rw [htoken, Book.free, beq_self_eq_true] at h
    cases h

lemma Book.free_eq_false {owner} (h : token ≠ some owner) :
    Book.free token (some owner) = false :=
  beq_eq_false_iff_ne.2 h

/-- **What is held back stays refused**, by the same holder or by the one that takes over. -/
theorem SettlesClear.refused {token dp} (h : SettlesClear multiDevice s token dp)
    (hr : r ∈ s.pendingWhileBlocked)
    (hrefused : s.book.admits r.token (DpKey.of multiDevice r.addr) = false) :
    (s.book.settle token dp).2.admits r.token (DpKey.of multiDevice r.addr) = false := by
  obtain ⟨-, -, htakes⟩ := h
  simp only [Book.admits, Bool.and_eq_false_iff] at hrefused ⊢
  rcases hrefused with hrefused | hrefused
  · left
    obtain ⟨hheld, hother⟩ := Book.not_free hrefused
    rw [Book.settle_port]
    split_ifs with hcount
    · -- a request of the new holder's own would have to be refused by another holder
      refine Book.free_eq_false fun hown => ?_
      exact htakes (.inl ⟨hcount, hheld, fun hport => hother (hown.trans hport.symm)⟩) r hr hown
    · exact hrefused
  · right
    obtain ⟨hheld, hother⟩ := Book.not_free hrefused
    rw [Book.settle_lookup]
    split_ifs with hcount
    · obtain ⟨hcount, hdp⟩ := hcount
      rw [hdp] at hheld hother
      refine Book.free_eq_false fun hown => ?_
      exact htakes (.inr ⟨hcount, hheld, fun hdevice => hother (hown.trans hdevice.symm)⟩) r hr hown
    · exact hrefused

lemma Inv.atPlace (h : Inv multiDevice s) (place : Place)
    (haway : place.away = true → s.dequeued = none) : Inv multiDevice { s with place := place } :=
  ⟨h.heap, h.dequeued, h.parked, h.back, h.pending, haway⟩

lemma settleBlock_inv {addr lent} (h : Inv multiDevice s) (haway : s.dequeued = none)
    (hclear : ∀ t ∈ token, SettlesClear multiDevice s t (DpKey.of multiDevice addr)) :
    Inv multiDevice (s.settleBlock multiDevice token addr lent) := by
  unfold Actor.settleBlock
  cases token with
  | none => exact h.atPlace _ fun _ => haway
  | some token =>
    simp only
    split_ifs with htaken
    · have hclear := hclear token rfl
      refine ⟨forall_mem_nil _, ?_, ?_, ?_, ?_, fun _ => haway⟩
      · show ∀ r ∈ s.dequeued, _
        rw [haway]
        exact not_mem_none _
      · intro r hr
        exact hclear.ok (mem_append_left _ hr) (h.parked r hr)
      · intro r hr
        exact hclear.ok (mem_append_right _ hr) (h.back r hr)
      · intro hreleased r hr
        exact hclear.refused hr (h.pending hreleased r hr)
    · exact h.atPlace _ fun _ => haway

/-! ### The other actions -/

lemma mem_of_popHeap {l others first} (h : popHeap l = some (first, others)) :
    first ∈ l ∧ ∀ r ∈ others, r ∈ l := by
  induction l generalizing first others with
  | nil => cases h
  | cons r rest ih =>
    unfold popHeap at h
    cases hrest : popHeap rest with
    | none =>
      rw [hrest] at h
      cases h
      exact ⟨mem_cons_self, forall_mem_nil _⟩
    | some pair =>
      obtain ⟨hfirst, hothers⟩ := ih hrest
      rw [hrest] at h
      simp only at h
      split_ifs at h
      · cases h
        refine ⟨mem_cons_self, fun x hx => mem_cons_of_mem _ ?_⟩
        rcases mem_cons.1 hx with rfl | hx
        · exact hfirst
        · exact hothers x hx
      · cases h
        refine ⟨mem_cons_of_mem _ hfirst, fun x hx => ?_⟩
        rcases mem_cons.1 hx with rfl | hx
        · exact mem_cons_self
        · exact mem_cons_of_mem _ (hothers x hx)

/-- **What `process_one` takes is admitted.** -/
theorem popNext_inv {s'} (h : Inv multiDevice s) (hpop : s.popNext = some (r, s')) :
    Ok multiDevice s.book r ∧ Inv multiDevice s' ∧ s'.book = s.book ∧ s'.dequeued = none := by
  unfold Actor.popNext at hpop
  cases hdequeued : s.dequeued with
  | some r' =>
    rw [hdequeued] at hpop
    cases hpop
    exact ⟨h.dequeued r hdequeued, ⟨h.heap, not_mem_none _, h.parked, h.back, h.pending,
      fun _ => rfl⟩, rfl, rfl⟩
  | none =>
    rw [hdequeued] at hpop
    obtain ⟨⟨first, others⟩, hheap, heq⟩ := map_eq_some_iff.1 hpop
    cases heq
    obtain ⟨hfirst, hothers⟩ := mem_of_popHeap hheap
    exact ⟨h.heap _ hfirst, ⟨fun x hx => h.heap x (hothers x hx), not_mem_none _,
      h.parked, h.back, h.pending, fun _ => rfl⟩, rfl, rfl⟩

lemma back_keep {hold : SectionHold} {x} (h : x ∈ (hold.keep r).back) :
    x ∈ hold.back ∨ x = r := by
  cases hold with
  | free => cases h
  | held scope holds back =>
    rcases mem_append.1 h with h | h
    · exact .inl h
    · exact .inr (mem_singleton.1 h)

lemma processOne_inv {fate : Fate} (h : Inv multiDevice s) :
    Inv multiDevice (s.processOne multiDevice fate) := by
  unfold Actor.processOne
  cases hpop : s.popNext with
  | none => exact h
  | some pair =>
    obtain ⟨r, s'⟩ := pair
    obtain ⟨hok, hinv, hbook, hnone⟩ := popNext_inv h hpop
    rw [← hbook] at hok
    simp only
    cases s'.disposal multiDevice r fate with
    | dropped => exact hinv
    | back =>
      refine ⟨hinv.heap, hinv.dequeued, hinv.parked, fun x hx => ?_, hinv.pending, hinv.away⟩
      rcases back_keep hx with hx | rfl
      · exact hinv.back x hx
      · exact hok
    | parked =>
      refine ⟨hinv.heap, hinv.dequeued, fun x hx => ?_, hinv.back, hinv.pending, hinv.away⟩
      rcases mem_append.1 hx with hx | hx
      · exact hinv.parked x hx
      · rw [mem_singleton.1 hx]
        exact hok
    | run =>
      exact ⟨hinv.heap, hinv.dequeued, hinv.parked, hinv.back, hinv.pending, fun _ => hnone⟩

lemma endHold_back {hold : SectionHold} (h : r ∈ hold.endHold.1.back ∨ r ∈ hold.endHold.2) :
    r ∈ hold.back := by
  cases hold with
  | free =>
    rcases h with h | h
    · cases h
    · cases h
  | held scope holds back =>
    simp only [SectionHold.endHold] at h
    split_ifs at h
    · rcases h with h | h
      · cases h
      · exact h
    · rcases h with h | h
      · exact h
      · cases h

lemma back_hold (scope : ℕ) (hold : SectionHold) : (hold.hold scope).back = hold.back := by
  cases hold <;> rfl

variable {holds : Option ℕ}

lemma body_inv (h : Inv multiDevice s) :
    Inv multiDevice (s.body multiDevice r holds) := by
  unfold Actor.body
  split
  · split_ifs
    · exact h
    · exact h.releases (Releases.of_counts _ _)
  · split_ifs
    · exact h
    · cases hbook : s.book.unblock _ (DpKey.of multiDevice r.addr) _ with
      | none => exact h
      | some book => exact h.releases (Book.unblock_releases hbook)
  · cases holds with
    | none => exact h
    | some scope =>
      refine ⟨h.heap, h.dequeued, h.parked, fun x hx => h.back x ?_, h.pending, h.away⟩
      rwa [← back_hold scope]
  · refine ⟨fun x hx => ?_, h.dequeued, h.parked, fun x hx => h.back x (endHold_back (.inl hx)),
      h.pending, h.away⟩
    rcases mem_append.1 hx with hx | hx
    · exact h.back x (endHold_back (.inr hx))
    · exact h.heap x hx
  · exact h

lemma body_dequeued :
    (s.body multiDevice r holds).dequeued = s.dequeued := by
  unfold Actor.body
  split
  · split_ifs <;> rfl
  · split_ifs
    · rfl
    · cases s.book.unblock _ (DpKey.of multiDevice r.addr) _ <;> rfl
  · cases holds <;> rfl
  · rfl
  · rfl

lemma body_of_callback (h : r.dispatch ≠ .direct) :
    s.body multiDevice r holds = s := by
  unfold Req.dispatch at h
  unfold Actor.body
  cases hop : r.op with
  | connect => rfl
  | io => rfl
  | _ => simp only [hop, ne_eq, not_true_eq_false] at h

lemma finish_inv {lent} (h : Inv multiDevice s) (haway : s.dequeued = none)
    (hclear : EndsClear multiDevice s r) :
    Inv multiDevice (s.finish multiDevice r holds lent) := by
  have hbody : Inv multiDevice { s.body multiDevice r holds with rescanParked := true } := by
    have hinv : Inv multiDevice (s.body multiDevice r holds) := body_inv h
    exact ⟨hinv.heap, hinv.dequeued, hinv.parked, hinv.back, hinv.pending, hinv.away⟩
  unfold Actor.finish
  simp only
  split_ifs with hdirect
  · refine hbody.atPlace _ fun _ => ?_
    show (s.body multiDevice r holds).dequeued = none
    rw [body_dequeued, haway]
  · rw [body_of_callback hdirect] at hbody ⊢
    exact settleBlock_inv hbody haway (hclear hdirect)

lemma enqueueMessage_inv (h : Inv multiDevice s) :
    Inv multiDevice (s.enqueueMessage multiDevice r) := by
  unfold Actor.enqueueMessage
  simp only
  split_ifs with hrefused
  · simp only [Bool.and_eq_true, Bool.not_eq_true'] at hrefused
    refine ⟨h.heap, h.dequeued, h.parked, h.back, fun hreleased x hx => ?_, h.away⟩
    rcases mem_append.1 hx with hx | hx
    · exact h.pending hreleased x hx
    · rw [mem_singleton.1 hx]
      exact hrefused.2
  · refine ⟨fun x hx => ?_, h.dequeued, h.parked, h.back, h.pending, h.away⟩
    rcases mem_cons.1 hx with rfl | hx
    · intro hqueued
      show s.admits multiDevice x = true
      simpa [Req.isLifecycle, hqueued] using hrefused
    · exact h.heap x hx

/-- **One request is tested again**, and goes where it belongs. -/
theorem sortOne_inv {rest exempt lent} (h : Inv multiDevice s)
    (haway : lent = true → s.dequeued = none) :
    Inv multiDevice (s.sortOne multiDevice r rest exempt lent) := by
  unfold Actor.sortOne
  simp only
  split_ifs with hpasses
  · refine ⟨fun x hx => ?_, h.dequeued, h.parked, h.back, h.pending, haway⟩
    rcases mem_cons.1 hx with rfl | hx
    · intro hqueued
      show s.admits multiDevice x = true
      simpa [Req.isLifecycle, hqueued] using hpasses
    · exact h.heap x hx
  · refine ⟨h.heap, h.dequeued, h.parked, h.back, fun hreleased x hx => ?_, haway⟩
    rcases mem_append.1 hx with hx | hx
    · exact h.pending hreleased x hx
    · rw [mem_singleton.1 hx]
      simp only [Bool.or_eq_true, not_or, Bool.not_eq_true] at hpasses
      exact hpasses.2

lemma rescan_inv (h : Inv multiDevice s) : Inv multiDevice s.rescan := by
  unfold Actor.rescan
  simp only
  split_ifs
  · exact ⟨h.heap, h.dequeued, h.parked, h.back, h.pending, h.away⟩
  · refine ⟨fun x hx => ?_, h.dequeued, forall_mem_nil _, h.back, h.pending, h.away⟩
    rcases mem_append.1 hx with hx | hx
    · exact h.parked x hx
    · exact h.heap x hx

lemma dropLeft_inv {gone} (h : Inv multiDevice s) :
    Inv multiDevice (s.dropLeft gone) := by
  refine ⟨fun x hx => h.heap x (mem_of_mem_filter hx), h.dequeued,
    fun x hx => h.parked x (mem_of_mem_filter hx), fun x hx => ?_,
    fun hreleased x hx => h.pending hreleased x (mem_of_mem_filter hx), h.away⟩
  have hback := h.back x
  unfold Actor.dropLeft at hx
  cases hhold : s.hold with
  | free => simp only [hhold] at hx; cases hx
  | held scope holds back =>
    simp only [hhold] at hx hback
    exact hback (mem_of_mem_filter hx)

lemma giveBack_inv (h : Inv multiDevice s) : Inv multiDevice s.giveBack := by
  unfold Actor.giveBack
  cases hpop : s.popNext with
  | none => exact h.atPlace _ nofun
  | some pair =>
    obtain ⟨r, s'⟩ := pair
    obtain ⟨hok, hinv, hbook, -⟩ := popNext_inv h hpop
    refine ⟨hinv.heap, fun x hx => ?_, hinv.parked, hinv.back, hinv.pending, nofun⟩
    rw [← some.inj hx]
    show Ok multiDevice s'.book r
    rw [hbook]
    exact hok

lemma readmitReleased_inv {lent} (h : Inv multiDevice s) (haway : lent = true → s.dequeued = none)
    : Inv multiDevice (s.readmitReleased lent) :=
  ⟨h.heap, h.dequeued, h.parked, h.back, fun _ => forall_mem_nil _, haway⟩

/-! ### Runs -/

/-- **Every action keeps the invariant**, if no holder is taken over requests set aside. -/
theorem step_inv {t a} (h : Inv multiDevice s) (hclear : Clear multiDevice s a)
    (hstep : s.step multiDevice a = some t) : Inv multiDevice t := by
  cases a with
  | submit r => cases hstep; exact ⟨h.heap, h.dequeued, h.parked, h.back, h.pending, h.away⟩
  | block token allDevices => cases hstep; exact h.releases (Releases.of_counts _ _)
  | unblock token addr allDevices =>
    obtain ⟨book, hbook, rfl⟩ := map_eq_some_iff.1 hstep
    exact h.releases (Book.unblock_releases hbook)
  | release token => cases hstep; exact h.releases (Book.release_releases _ _)
  | linkTo link exception =>
    cases hstep
    exact ⟨h.heap, h.dequeued, h.parked, h.back, h.pending, h.away⟩
  | readmitReleased =>
    unfold Actor.step at hstep
    split_ifs at hstep
    obtain ⟨lent, hdrains, rfl⟩ := map_eq_some_iff.1 hstep
    refine readmitReleased_inv h fun hlent => h.away ?_
    rw [hlent] at hdrains
    cases hplace : s.place <;> rw [hplace] at hdrains <;> cases hdrains
    rfl
  | enqueue =>
    unfold Actor.step at hstep
    cases hdrains : s.place.drains with
    | none => simp only [hdrains] at hstep; cases hstep
    | some lent =>
      cases hincoming : s.incoming with
      | nil => simp only [hdrains, hincoming] at hstep; cases hstep
      | cons r incoming =>
        simp only [hdrains, hincoming] at hstep
        cases hstep
        have hpopped : Inv multiDevice { s with incoming := incoming } :=
          ⟨h.heap, h.dequeued, h.parked, h.back, h.pending, h.away⟩
        exact enqueueMessage_inv hpopped
  | rescan =>
    unfold Actor.step at hstep
    cases hplace : s.place <;> simp only [hplace] at hstep <;> cases hstep
    exact rescan_inv h
  | dropLeft gone =>
    unfold Actor.step at hstep
    cases hplace : s.place <;> simp only [hplace] at hstep <;> cases hstep
    exact dropLeft_inv h
  | process fate =>
    unfold Actor.step at hstep
    cases hplace : s.place <;> simp only [hplace] at hstep <;> cases hstep
    exact processOne_inv h
  | finish holds =>
    unfold Actor.step at hstep
    unfold Clear at hclear
    have haway := h.away
    cases hplace : s.place <;> simp only [hplace] at hstep hclear haway <;> cases hstep
    exact finish_inv h (haway rfl) (hclear _ rfl)
  | sort =>
    unfold Actor.step at hstep
    have haway := h.away
    cases hplace : s.place with
    | sorting todo exempt lent =>
      rw [hplace] at haway
      cases todo with
      | nil =>
        simp only [hplace] at hstep
        cases hstep
        refine h.atPlace _ fun hafter => haway ?_
        cases lent with
        | true => rfl
        | false => cases hafter
      | cons r rest =>
        simp only [hplace] at hstep
        cases hstep
        exact sortOne_inv h haway
    | _ => simp only [hplace] at hstep; cases hstep
  | lentFinish r holds =>
    unfold Actor.step at hstep
    have haway := h.away
    cases hplace : s.place <;> simp only [hplace] at hstep haway <;> cases hstep
    exact finish_inv h (haway rfl) hclear
  | giveBack =>
    unfold Actor.step at hstep
    cases hplace : s.place <;> simp only [hplace] at hstep <;> cases hstep
    exact giveBack_inv h

lemma Inv.starts {a} (h : Inv multiDevice s) (hstarts : s.starts multiDevice a = some r)
    : Ok multiDevice s.book r := by
  cases a with
  | process fate =>
    unfold Actor.starts at hstarts
    cases hplace : s.place with
    | home =>
      cases hpop : s.popNext with
      | none => simp only [hplace, hpop] at hstarts; cases hstarts
      | some pair =>
        simp only [hplace, hpop] at hstarts
        split_ifs at hstarts
        cases hstarts
        exact (popNext_inv h hpop).1
    | _ => simp only [hplace] at hstarts; cases hstarts
  | _ => cases hstarts

/-- **Blocks are exact in every run whose callbacks settle clear**: a request that a holder may stall
runs only when the port's holder and its device's are nobody or its own user; and when the actor waits
with no release to look at, what is held back is refused by a holder in force. -/
theorem block_exact (multiDevice : Bool) (link : Link) (as : List Action) (s : Actor)
    (hclear : Along (Actor.step multiDevice) (Clear multiDevice) as (Actor.init link))
    (hrun : run (Actor.step multiDevice) as (Actor.init link) = some s) :
    (∀ a r, s.starts multiDevice a = some r → r.dispatch = .queued →
        s.book.admits r.token (DpKey.of multiDevice r.addr) = true) ∧
      (s.waits = true → s.book.released = false → ∀ r ∈ s.pendingWhileBlocked,
        s.book.admits r.token (DpKey.of multiDevice r.addr) = false) := by
  have hinv : Inv multiDevice s :=
    run_invariant (fun _ _ _ hs ha hstep => step_inv hs ha hstep) as _ _ (inv_init link) hclear hrun
  exact ⟨fun a r hstarts => hinv.starts hstarts, fun _ hreleased r hr => hinv.pending hreleased r hr⟩

end Runs

/-! ### Three runs -/

def upLink (deviceEnabled : ℤ → Bool) : Link := ⟨true, true, deviceEnabled, fun _ => true⟩

def request (op : ReqOp) (token : Option ℕ) (addr : ℤ) (seq : ℕ) : Req :=
  ⟨op, token, addr, .medium, false, seq, 0, false, true⟩

/-- User 42 blocks the whole port, and its next request makes it the holder. -/
def holdPort (seq : ℕ) : List Action :=
  [.submit (request (.block true) (some 42) 0 seq), .enqueue, .rescan, .process .run, .finish none,
   .submit (request .io (some 42) 0 (seq + 1)), .enqueue, .rescan, .process .run, .finish none, .sort]

/-- A request of another user is held back, and none that was set aside runs. -/
theorem block_exact_holdPort : ∃ s, run (Actor.step true)
      (holdPort 0 ++ [.submit (request .io none 1 2), .enqueue]) (Actor.init (upLink fun _ => true)) =
        some s ∧
    (∀ a r, s.starts true a = some r → r.dispatch = .queued →
        s.book.admits r.token (DpKey.of true r.addr) = true) ∧
      (s.waits = true → s.book.released = false → ∀ r ∈ s.pendingWhileBlocked,
        s.book.admits r.token (DpKey.of true r.addr) = false) :=
  ⟨_, rfl, block_exact true (upLink fun _ => true)
    (holdPort 0 ++ [.submit (request .io none 1 2), .enqueue]) _ (by decide) rfl⟩

/-- A request for a disabled device is parked; user 42 blocks the port and becomes its holder; the
device is enabled. -/
def parkedRun : List Action :=
  [.submit (request .io none 1 0), .enqueue, .rescan, .process .run,
   .submit (request (.block true) (some 42) 0 1), .enqueue, .rescan, .process .run, .finish none,
   .rescan, .process .run,
   .submit (request .io (some 42) 0 2), .enqueue, .rescan, .process .run, .process .run, .finish none,
   .sort,
   .submit (request .manager none 1 3), .enqueue, .rescan, .process .run,
   .linkTo (upLink fun _ => true) true, .finish none, .rescan]

/-- User 42 holds the port; user 7 counts a block, has a request held back, and becomes the holder by a
connect request, which no holder stalls. -/
def takenOverRun : List Action :=
  holdPort 0 ++
    [.submit (request (.block true) (some 7) 0 2), .enqueue, .rescan, .process .run, .finish none,
     .submit (request .io (some 7) 0 3), .enqueue,
     .submit (request .connect (some 7) 0 4), .enqueue, .rescan, .process .run, .finish none, .sort,
     .rescan]

/-- **A parked request runs while another user holds the port**, and the request of a user that took
over the port is held back by nobody. -/
theorem parked_request_overruns_holder :
    (∃ s r, run (Actor.step true) parkedRun (Actor.init (upLink fun addr => decide (addr ≠ 1))) = some s ∧
        s.starts true (.process .run) = some r ∧ r.dispatch = .queued ∧
        s.book.admits r.token (DpKey.of true r.addr) = false) ∧
      ∃ s, run (Actor.step true) takenOverRun (Actor.init (upLink fun _ => true)) = some s ∧
        s.waits = true ∧ s.book.released = false ∧
        ∃ r ∈ s.pendingWhileBlocked, s.book.admits r.token (DpKey.of true r.addr) = true :=
  ⟨⟨_, _, rfl, rfl, rfl, rfl⟩, _, rfl, rfl, rfl, _, mem_cons_self, rfl⟩

end AsynBlock
