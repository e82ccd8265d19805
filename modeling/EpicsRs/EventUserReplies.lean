/-
**Replies follow the updates they promise.**

A reply is queued with the counts at which the entries that its call found will have left.  It is
returned when these are reached, or when a whole pass has found nothing to deliver.  As long as a
reply is owed every poll returns something.

Main result: `EventQueue.replies_follow`.
-/

import EpicsRs.EventQueueStream
import EpicsRs.EventUser
import EpicsRs.EventUserEffects

set_option autoImplicit false

namespace EventQueue

open RingCells List Option QueInner

variable {η α κ ρ : Type} {u u' : User η α κ ρ}

/-! ### The invariant -/

/-- A reply was returned: what its call found queued had left, or every queue was looked at and had
nothing that could be delivered. -/
structure Answers (r : Returned ρ) (p : Posting ρ) : Prop where
  frame : r.frame = p.frame
  reason : (∀ (i n : ℕ), p.upTo[i]? = some n → ∃ t, r.taken[i]? = some t ∧ n ≤ t) ∨
    (∀ l ∈ r.looks, l.used = 0 ∨ l.mayDrain = false) ∧
      ∀ i, i < r.taken.length → ∃ l ∈ r.looks, l.que = i

/-- The first `n` entries of queue `i` have left, or a count of the reply waits for them. -/
def Covered (u : User η α κ ρ) (ahead : List (ℕ × ℕ)) (i n : ℕ) : Prop :=
  ∀ q, u.ques[i]? = some q → (∃ mark, (i, mark) ∈ ahead ∧ n ≤ mark) ∨ n ≤ q.taken

/-- An owed reply waits for what its call found queued. -/
structure Owes (u : User η α κ ρ) (reply : OwedReply ρ) (p : Posting ρ) : Prop where
  frame : reply.frame = p.frame
  places : ∀ m ∈ reply.ahead, m.1 < u.ques.length
  upTo_le : p.upTo.length ≤ u.ques.length
  covers : ∀ (i n : ℕ), p.upTo[i]? = some n → Covered u reply.ahead i n

/-- A queue holds what was appended to it and has not left. -/
def Tracks (u : User η α κ ρ) : Prop :=
  ∀ (i : ℕ) (q : QueInner η α κ), u.ques[i]? = some q →
    ∃ gone ids, Lists q ids ∧ u.hist.appendedTo i = gone ++ ids ∧ q.taken = gone.length

/-- The replies, in the order in which they were posted: `done` were returned, `owed` are owed, and
`dropped` were dropped by `close_replies`. -/
structure Sorted (u : User η α κ ρ) (done owed dropped : List (Posting ρ)) : Prop where
  posted_eq : u.hist.posted = done ++ owed ++ dropped
  answers : List.Forall₂ Answers u.hist.returned done
  owes : List.Forall₂ (Owes u) u.replies owed
  dropped_eq : u.closed = false → dropped = []
  /-- What is read uses up what there was to read. -/
  bound : ∀ (j : ℕ) (p : Posting ρ), owed[j]? = some p →
    u.hist.polls + j + u.work + p.added ≤ p.polls + p.before + p.work + u.added

/-- The invariant, but for who holds the chain lock. -/
structure Base (u : User η α κ ρ) : Prop where
  min_le : eventEntries ≤ u.eventsPerQue
  le_max : u.eventsPerQue ≤ maxEventsPerQue
  reading_lt : u.reading < u.ques.length
  tracks : Tracks u
  appended_lt : ∀ a ∈ u.hist.appended, a.1 < u.ques.length
  sorted : ∃ done owed dropped, Sorted u done owed dropped

/-- The queues of the first `n` turns were looked at, and nothing was found. -/
structure Looked (u : User η α κ ρ) (n : ℕ) : Prop where
  ques_eq : u.hist.looks.map Look.que = (List.range n).map u.turn
  nothing : ∀ l ∈ u.hist.looks, l.used = 0 ∨ l.mayDrain = false

/-- What the holder of the chain lock has found so far. -/
structure LockInv (u : User η α κ ρ) : Prop where
  due : ∀ rest, u.lock = .due rest → u.hist.looks = [] ∧
    ∃ reply replies checked, u.replies = reply :: replies ∧ reply.ahead = checked ++ rest ∧
      ∀ m ∈ checked, ∃ q, u.ques[m.1]? = some q ∧ m.2 ≤ q.taken
  look : ∀ s, u.lock = .look s → s ≤ u.ques.length ∧ Looked u s
  park : ∀ s, u.lock = .park s → s < u.ques.length ∧ Looked u (s + 1)
  reply : ∀ frame k ahead upTo, u.lock = .reply frame k ahead upTo → u.closed = false ∧
    upTo.length = u.ques.length ∧ (∀ m ∈ ahead, m.1 < u.ques.length) ∧
      ∀ (i n : ℕ) (q : QueInner η α κ), upTo[i]? = some n → u.ques[i]? = some q →
        n ≤ q.taken + q.used ∧ (i < k → Covered u ahead i n)

/-! ### Queues grow -/

/-- The queues of `u'` are those of `u`, later. -/
structure Grows (u u' : User η α κ ρ) : Prop where
  length_le : u.ques.length ≤ u'.ques.length
  later : ∀ (i : ℕ) (q : QueInner η α κ), u.ques[i]? = some q →
    ∃ q', u'.ques[i]? = some q' ∧ q.taken ≤ q'.taken ∧ q.taken + q.used ≤ q'.taken + q'.used

lemma Grows.of_eq (h : u'.ques = u.ques) : Grows u u' := by
  refine ⟨by rw [h], fun i q hq => ⟨q, by rw [h, hq], Nat.le_refl _, Nat.le_refl _⟩⟩

lemma Covered.mono {ahead i n} (h : Covered u ahead i n) (hgrows : Grows u u')
    (hi : i < u.ques.length) : Covered u' ahead i n := by
  intro q' hq'
  obtain ⟨q, hq⟩ : ∃ q, u.ques[i]? = some q := ⟨_, getElem?_eq_getElem hi⟩
  obtain ⟨q'', hq'', htaken, -⟩ := hgrows.later i q hq
  obtain rfl : q' = q'' := some.inj (hq'.symm.trans hq'')
  rcases h q hq with hmark | hleft
  · exact Or.inl hmark
  · exact Or.inr (hleft.trans htaken)

variable {reply : OwedReply ρ}

lemma Owes.mono {p : Posting ρ} (h : Owes u reply p) (hgrows : Grows u u') : Owes u' reply p where
  frame := h.frame
  places := fun m hm => (h.places m hm).trans_le hgrows.length_le
  upTo_le := h.upTo_le.trans hgrows.length_le
  covers := by
    intro i n hn
    have hi := (List.getElem?_eq_some_iff.1 hn).1
    exact (h.covers i n hn).mono hgrows (hi.trans_le h.upTo_le)

lemma Looked.congr {n : ℕ} (h : Looked u n) (hlooks : u'.hist.looks = u.hist.looks)
    (hreading : u'.reading = u.reading) (hlen : u'.ques.length = u.ques.length) : Looked u' n := by
  have hturn : u'.turn = u.turn := by
    funext s
    rw [User.turn, User.turn, hreading, hlen]
  exact ⟨by rw [hlooks, h.ques_eq, hturn], by rw [hlooks]; exact h.nothing⟩

lemma LockInv.mono (h : LockInv u) (hgrows : Grows u u') (hlen : u'.ques.length = u.ques.length)
    (hlock : u'.lock = u.lock) (hreplies : u'.replies = u.replies) (hclosed : u'.closed = u.closed)
    (hlooks : u'.hist.looks = u.hist.looks) (hreading : u'.reading = u.reading) : LockInv u' where
  due := by
    intro rest hrest
    obtain ⟨hnil, reply, replies, checked, heq, hahead, hchecked⟩ := h.due rest (hlock ▸ hrest)
    refine ⟨hlooks.trans hnil, reply, replies, checked, hreplies.trans heq, hahead, fun m hm => ?_⟩
    obtain ⟨q, hq, hmark⟩ := hchecked m hm
    obtain ⟨q', hq', htaken, -⟩ := hgrows.later _ q hq
    exact ⟨q', hq', hmark.trans htaken⟩
  look := by
    intro s hs
    obtain ⟨hle, hlooked⟩ := h.look s (hlock ▸ hs)
    exact ⟨hlen ▸ hle, hlooked.congr hlooks hreading hlen⟩
  park := by
    intro s hs
    obtain ⟨hlt, hlooked⟩ := h.park s (hlock ▸ hs)
    exact ⟨hlen ▸ hlt, hlooked.congr hlooks hreading hlen⟩
  reply := by
    intro frame k ahead upTo hreply
    obtain ⟨hopen, hupTo, hplaces, hcovers⟩ := h.reply frame k ahead upTo (hlock ▸ hreply)
    refine ⟨hclosed.trans hopen, hlen ▸ hupTo, hlen ▸ hplaces, fun i n q' hn hq' => ?_⟩
    have hi := (List.getElem?_eq_some_iff.1 hn).1
    obtain ⟨q, hq⟩ : ∃ q, u.ques[i]? = some q := ⟨_, getElem?_eq_getElem (hupTo ▸ hi)⟩
    obtain ⟨q'', hq'', -, hcount⟩ := hgrows.later i q hq
    obtain rfl : q' = q'' := some.inj (hq'.symm.trans hq'')
    obtain ⟨hle, hcovered⟩ := hcovers i n q hn hq
    exact ⟨hle.trans hcount, fun hk => (hcovered hk).mono hgrows (hupTo ▸ hi)⟩

/-! ### One queue changes -/

section

variable {i : ℕ} {q q' : QueInner η α κ} {new : List AttachId}

lemma Tracks.count (h : Tracks u) (hq : u.ques[i]? = some q) :
    (u.hist.appendedTo i).length = q.taken + q.used := by
  obtain ⟨gone, ids, hlists, heq, htaken⟩ := h i q hq
  rw [heq, length_append, htaken, hlists.used_eq]

lemma Base.lists (h : Base u) (hq : u.ques[i]? = some q) : ∃ ids, Lists q ids := by
  obtain ⟨gone, ids, hlists, -⟩ := h.tracks i q hq
  exact ⟨ids, hlists⟩

lemma work_set (hq : u.ques[i]? = some q) (q' : QueInner η α κ) :
    ((u.ques.set i q').map load).sum + load q = u.work + load q' := by
  have hwork : u.work = (u.ques.map load).sum := rfl
  rw [hwork]
  generalize u.ques = ques at hq
  induction ques generalizing i with
  | nil => exact absurd hq nofun
  | cons x ques ih =>
    cases i with
    | zero =>
      obtain rfl : x = q := some.inj hq
      simp only [set_cons_zero, map_cons, sum_cons]
      omega
    | succ i =>
      have hih := ih hq
      simp only [set_cons_succ, map_cons, sum_cons]
      omega

lemma appendedTo_of_append {h h' : History ρ}
    (happ : h'.appended = h.appended ++ new.map fun id => (i, id)) (j : ℕ) :
    h'.appendedTo j = h.appendedTo j ++ if j = i then new else [] := by
  have hnew : (new.map fun id => (i, id)).filterMap (fun p => if p.1 = j then some p.2 else none) =
      if j = i then new else [] := by
    split_ifs with hij
    · subst hij
      simp
    · simp [Ne.symm hij]
  rw [History.appendedTo, happ, filterMap_append, hnew]
  rfl

lemma Moves.grows (htracks : Tracks u) (hq : u.ques[i]? = some q) (hmoves : Moves q q' new)
    (hques : u'.ques = u.ques.set i q') : Grows u u' := by
  refine ⟨by rw [hques, length_set], fun j t ht => ?_⟩
  rw [hques, getElem?_set]
  by_cases hij : i = j
  · subst hij
    obtain rfl : q = t := some.inj (hq.symm.trans ht)
    obtain ⟨-, ids, hlists, -⟩ := htracks i q hq
    obtain ⟨gone, ids', hlists', heq, htaken⟩ := hmoves ids hlists
    have hlen := congrArg length heq
    rw [length_append, length_append, ← hlists.used_eq, ← hlists'.used_eq] at hlen
    rw [if_pos rfl, if_pos (List.getElem?_eq_some_iff.1 hq).1]
    exact ⟨q', rfl, by omega, by omega⟩
  · rw [if_neg hij]
    exact ⟨t, ht, Nat.le_refl _, Nat.le_refl _⟩

/-- **One queue moves on.**  What is read and what is added balance. -/
theorem Base.setQue (h : Base u) (hq : u.ques[i]? = some q) (hmoves : Moves q q' new)
    (hques : u'.ques = u.ques.set i q') (hn : u'.eventsPerQue = u.eventsPerQue)
    (hreading : u'.reading < u.ques.length) (hreplies : u'.replies = u.replies)
    (hclosed : u'.closed = u.closed) (hposted : u'.hist.posted = u.hist.posted)
    (hreturned : u'.hist.returned = u.hist.returned)
    (happ : u'.hist.appended = u.hist.appended ++ new.map fun id => (i, id))
    (hload : u'.hist.polls + load q' + u.added ≤ u.hist.polls + load q + u'.added) : Base u' := by
  have hgrows := hmoves.grows h.tracks hq hques
  have hi := (List.getElem?_eq_some_iff.1 hq).1
  have hlen : u'.ques.length = u.ques.length := by rw [hques, length_set]
  refine ⟨by rw [hn]; exact h.min_le, by rw [hn]; exact h.le_max, by rw [hlen]; exact hreading,
    ?_, ?_, ?_⟩
  · intro j t ht
    rw [appendedTo_of_append happ]
    rw [hques, getElem?_set] at ht
    by_cases hij : i = j
    · subst hij
      rw [if_pos rfl, if_pos hi] at ht
      obtain rfl := some.inj ht
      obtain ⟨gone, ids, hlists, heq, htaken⟩ := h.tracks i q hq
      obtain ⟨gone', ids', hlists', heq', htaken'⟩ := hmoves ids hlists
      refine ⟨gone ++ gone', ids', hlists', ?_, ?_⟩
      · rw [if_pos rfl, heq, append_assoc, heq', append_assoc]
      · rw [htaken', htaken, length_append]
    · rw [if_neg hij] at ht
      rw [if_neg (Ne.symm hij), append_nil]
      exact h.tracks j t ht
  · intro a ha
    rw [happ, mem_append] at ha
    rw [hlen]
    rcases ha with ha | ha
    · exact h.appended_lt a ha
    · obtain ⟨id, -, rfl⟩ := mem_map.1 ha
      exact hi
  · obtain ⟨done, owed, dropped, hsorted⟩ := h.sorted
    refine ⟨done, owed, dropped, ?_, ?_, ?_, ?_, ?_⟩
    · rw [hposted, hsorted.posted_eq]
    · rw [hreturned]
      exact hsorted.answers
    · rw [hreplies]
      exact hsorted.owes.imp fun _ _ ho => ho.mono hgrows
    · rw [hclosed]
      exact hsorted.dropped_eq
    · intro j p hp
      have hbound := hsorted.bound j p hp
      have hwork := work_set hq q'
      have hwork' : u'.work = ((u.ques.set i q').map load).sum := by rw [← hques]; rfl
      omega

end

lemma Base.congr (h : Base u)
    (hsame : (u'.ques, u'.eventsPerQue, u'.reading, u'.replies, u'.closed,
        { u'.hist with looks := [] }) =
      (u.ques, u.eventsPerQue, u.reading, u.replies, u.closed, { u.hist with looks := [] })) :
    Base u' := by
  simp only [Prod.mk.injEq, History.mk.injEq] at hsame
  obtain ⟨hques, hn, hreading, hreplies, hclosed, happ, hends, hposted, hreturned, hpolls, -⟩ := hsame
  have hlt := h.reading_lt
  have hq := getElem?_eq_getElem hlt
  have hmoves : Moves u.ques[u.reading] u.ques[u.reading] [] := Moves.of_inv (fun _ h => h) rfl
  refine h.setQue hq hmoves ?_ hn ?_ hreplies hclosed hposted hreturned ?_ ?_
  · rw [set_getElem_self, hques]
  · rw [hreading]
    exact h.reading_lt
  · rw [happ, map_nil, append_nil]
  · rw [hpolls, User.added, User.added, happ, hends]

/-! ### The chain lock changes hands -/

lemma LockInv.free (h : u.lock = .free) : LockInv u := by
  constructor <;> simp [h]

lemma LockInv.attach {k generation sid kind context}
    (h : u.lock = .attach k generation sid kind context) : LockInv u := by
  constructor <;> simp [h]

lemma LockInv.flowOff {k : ℕ} (h : u.lock = .flowOff k) : LockInv u := by
  constructor <;> simp [h]

lemma LockInv.ofLook {s : ℕ} (h : u.lock = .look s) (hle : s ≤ u.ques.length)
    (hlooked : Looked u s) : LockInv u := by
  constructor <;> simp only [h, reduceCtorEq, false_implies, implies_true, ChainLock.look.injEq]
  rintro _ rfl
  exact ⟨hle, hlooked⟩

lemma LockInv.ofPark {s : ℕ} (h : u.lock = .park s) (hlt : s < u.ques.length)
    (hlooked : Looked u (s + 1)) : LockInv u := by
  constructor <;> simp only [h, reduceCtorEq, false_implies, implies_true, ChainLock.park.injEq]
  rintro _ rfl
  exact ⟨hlt, hlooked⟩

lemma LockInv.ofDue (checked : List (ℕ × ℕ)) {rest replies} (h : u.lock = .due rest)
    (hlooks : u.hist.looks = []) (hreplies : u.replies = reply :: replies)
    (hahead : reply.ahead = checked ++ rest)
    (hchecked : ∀ m ∈ checked, ∃ q, u.ques[m.1]? = some q ∧ m.2 ≤ q.taken) : LockInv u := by
  constructor <;> simp only [h, reduceCtorEq, false_implies, implies_true, ChainLock.due.injEq]
  rintro _ rfl
  exact ⟨hlooks, reply, replies, checked, hreplies, hahead, hchecked⟩

lemma LockInv.ofReply {frame k ahead upTo} (h : u.lock = .reply frame k ahead upTo)
    (hclosed : u.closed = false) (hupTo : upTo.length = u.ques.length)
    (hplaces : ∀ m ∈ ahead, m.1 < u.ques.length)
    (hcovers : ∀ (i n : ℕ) (q : QueInner η α κ), upTo[i]? = some n → u.ques[i]? = some q →
      n ≤ q.taken + q.used ∧ (i < k → Covered u ahead i n)) : LockInv u := by
  constructor <;> simp only [h, reduceCtorEq, false_implies, implies_true, ChainLock.reply.injEq]
  rintro _ _ _ _ ⟨rfl, rfl, rfl, rfl⟩
  exact ⟨hclosed, hupTo, hplaces, hcovers⟩

lemma Looked.zero (h : u.hist.looks = []) : Looked u 0 := by
  constructor <;> simp [h]

/-! ### Every step keeps the invariant -/

lemma Base.unchanged (hbase : Base u) (hlock : LockInv u)
    (hsame : (u'.ques, u'.eventsPerQue, u'.reading, u'.replies, u'.closed, u'.lock, u'.hist) =
      (u.ques, u.eventsPerQue, u.reading, u.replies, u.closed, u.lock, u.hist)) :
    Base u' ∧ LockInv u' := by
  simp only [Prod.mk.injEq] at hsame
  obtain ⟨hques, hn, hreading, hreplies, hclosed, hlock', hhist⟩ := hsame
  exact ⟨hbase.congr (by rw [hques, hn, hreading, hreplies, hclosed, hhist]),
    hlock.mono (Grows.of_eq hques) (by rw [hques]) hlock' hreplies hclosed (by rw [hhist]) hreading⟩

lemma Base.wake (hbase : Base u) (hlock : LockInv u) : Base u.wake ∧ LockInv u.wake :=
  hbase.unchanged hlock (by simp)

lemma hist_post (b : ℕ) (burst : PostBurst) (i : ℕ) (q : QueInner η α κ) (id : AttachId)
    (log : PostLog η α) :
    (u.post b burst i q id log).hist = { u.hist with
      appended := u.hist.appended ++
        ((q.post u.flowOn id log).2.1.new id).map fun id => (i, id) } := by
  unfold User.post PostOutcome.new
  dsimp only
  cases (q.post u.flowOn id log).2.1 <;> simp

lemma LockInv.setQue (h : LockInv u) (hbase : Base u) {i q q' new} (hq : u.ques[i]? = some q) (hmoves : Moves q q' new)
    (hques : u'.ques = u.ques.set i q') (hlock : u'.lock = u.lock)
    (hreplies : u'.replies = u.replies) (hclosed : u'.closed = u.closed)
    (hlooks : u'.hist.looks = u.hist.looks) (hreading : u'.reading = u.reading) : LockInv u' :=
  h.mono (hmoves.grows hbase.tracks hq hques) (by rw [hques, length_set]) hlock hreplies hclosed
    hlooks hreading

lemma turn_lt (h : Base u) {s : ℕ} (hs : s < u.ques.length) : u.turn s < u.ques.length :=
  wrap_lt h.reading_lt (Nat.le_of_lt hs)

lemma Base.pollReply (h : Base u) {rest : List (OwedReply ρ)}
    (hreplies : u.replies = reply :: rest)
    (hanswers : ∀ p, Owes u reply p → Answers ⟨reply.frame, u.ques.map taken, u.hist.looks⟩ p) :
    Base (u.pollReply reply rest) := by
  refine ⟨h.min_le, h.le_max, h.reading_lt, h.tracks, h.appended_lt, ?_⟩
  obtain ⟨done, owed, dropped, hsorted⟩ := h.sorted
  have howes := hsorted.owes
  rw [hreplies] at howes
  cases howes with
  | @cons _ p _ owed hp howed =>
    refine ⟨done ++ [p], owed, dropped, ?_, ?_, ?_, hsorted.dropped_eq, ?_⟩
    · change u.hist.posted = _
      rw [hsorted.posted_eq]
      simp
    · exact rel_append hsorted.answers (.cons (hanswers p hp) .nil)
    · exact howed.imp fun _ _ ho => ho.mono (Grows.of_eq rfl)
    · intro j p' hp'
      have hbound := hsorted.bound (j + 1) p' hp'
      change u.hist.polls + 1 + j + u.work + p'.added ≤ p'.polls + p'.before + p'.work + u.added
      omega

lemma Base.attachNew (h : Base u) (generation : UInt64) (sid : UInt32) (kind : LogKind)
    (context : κ) :
    Base { u with
      ques := u.ques ++ [((new u.eventsPerQue).tryAttach generation sid kind context).1]
      lock := .free } := by
  set q : QueInner η α κ := ((new u.eventsPerQue).tryAttach generation sid kind context).1
    with hqdef
  set u' : User η α κ ρ := { u with ques := u.ques ++ [q], lock := .free }
  have hinv : Inv q [] := ((Inv.new h.min_le h.le_max).tryAttach generation sid kind context).1
  have hload : load q = 0 := load_tryAttach generation sid kind context
  have htaken : q.taken = 0 := by
    obtain ⟨subs, free, quota, heq⟩ :=
      tryAttach_frame (new u.eventsPerQue) generation sid kind context
    rw [hqdef, heq]
    rfl
  have hlen : u'.ques.length = u.ques.length + 1 := by simp [u']
  have hgrows : Grows u u' := by
    refine ⟨by omega, fun i t ht => ⟨t, ?_, Nat.le_refl _, Nat.le_refl _⟩⟩
    exact List.getElem?_append_left (List.getElem?_eq_some_iff.1 ht).1 ▸ ht
  have hwork : u'.work = u.work := by
    change ((u.ques ++ [q]).map load).sum = u.work
    rw [map_append, sum_append, map_singleton, sum_singleton, hload]
    rfl
  refine ⟨h.min_le, h.le_max, ?_, fun i t ht => ?_, fun a ha => ?_, ?_⟩
  · exact Nat.lt_of_lt_of_le h.reading_lt hgrows.length_le
  · change (u.ques ++ [q])[i]? = some t at ht
    rw [getElem?_append] at ht
    split_ifs at ht with hi
    · exact h.tracks i t ht
    · -- nothing was appended to the new queue
      have hnone : u.hist.appendedTo i = [] := by
        rw [History.appendedTo, filterMap_eq_nil_iff]
        intro a ha
        have hlt := h.appended_lt a ha
        rw [if_neg (by omega)]
      obtain ⟨hlt, rfl⟩ := List.getElem?_eq_some_iff.1 ht
      rw [List.getElem_singleton]
      exact ⟨[], [], ⟨[], hinv, rfl⟩, hnone, htaken⟩
  · exact (h.appended_lt a ha).trans_le hgrows.length_le
  · obtain ⟨done, owed, dropped, hsorted⟩ := h.sorted
    refine ⟨done, owed, dropped, hsorted.posted_eq, hsorted.answers,
      hsorted.owes.imp fun _ _ ho => ho.mono hgrows, hsorted.dropped_eq, fun j p hp => ?_⟩
    rw [hwork]
    exact hsorted.bound j p hp

theorem UserStep.inv (hstep : UserStep u u') (hbase : Base u) (hlock : LockInv u) :
    Base u' ∧ LockInv u' := by
  cases hstep with
  | newBurst => exact hbase.unchanged hlock rfl
  | @post b i burst q id log hburst hmarked hdropping hque hfree =>
    have hmoves := moves_post (q := q) u.flowOn id log
    have hload := load_post (hbase.lists hque) u.flowOn id log
    have hhist := hist_post (u := u) b burst i q id log
    refine ⟨hbase.setQue hque hmoves rfl rfl hbase.reading_lt rfl rfl ?_ ?_ ?_ ?_,
      hlock.setQue hbase hque hmoves rfl rfl rfl rfl ?_ rfl⟩
    · rw [hhist]
    · rw [hhist]
    · rw [hhist]
    · rw [User.added, User.added, hhist, hload, length_append, length_map]
      dsimp only
      omega
    · rw [hhist]
  | push hburst hmarked => exact hbase.unchanged hlock rfl
  | @unchain b i burst rest q hburst hmarked hoff hchain hque hfree =>
    have hmoves := moves_inBurst (q := q) false
    exact ⟨hbase.setQue hque hmoves rfl rfl hbase.reading_lt rfl rfl rfl rfl
        (append_nil _).symm (Nat.le_refl _),
      hlock.setQue hbase hque hmoves rfl rfl rfl rfl rfl rfl⟩
  | wakeBurst hburst hoff => exact hbase.unchanged hlock (by simp)
  | @closeProducer i q id hque hfree hsub =>
    have hmoves := moves_closeProducer (q := q) id
    have hload := load_closeProducer (q := q) id
    refine ⟨hbase.setQue hque hmoves rfl rfl hbase.reading_lt rfl rfl rfl rfl
        (append_nil _).symm ?_,
      hlock.setQue hbase hque hmoves rfl rfl rfl rfl rfl rfl⟩
    simp only [User.added]
    omega
  | @closeReader i q id hque hfree hsub =>
    have hmoves := moves_closeReader (q := q) id
    have hload := load_closeReader (q := q) id
    refine ⟨hbase.setQue hque hmoves rfl rfl hbase.reading_lt rfl rfl rfl rfl
        (append_nil _).symm ?_,
      hlock.setQue hbase hque hmoves rfl rfl rfl rfl rfl rfl⟩
    simp only [User.added]
    omega
  | wakeCall hwaking => exact hbase.unchanged hlock (by simp)
  | flowCtrlOn => exact hbase.unchanged hlock rfl
  | flowCtrlOff => exact hbase.unchanged hlock rfl
  | flowOffLock hfree hoffs =>
    exact ⟨hbase.congr rfl, LockInv.flowOff rfl⟩
  | @flowOffWake k hheld hk =>
    refine Base.wake (hbase.congr rfl) ?_
    split_ifs
    · exact LockInv.free rfl
    · exact LockInv.flowOff rfl
  | replyLock frame hfree hclosed =>
    refine ⟨hbase.congr rfl,
      LockInv.ofReply rfl hclosed (by simp) (by simp) fun i n q hn hq => ⟨?_, nofun⟩⟩
    rw [getElem?_map] at hn
    obtain ⟨j, hj, rfl⟩ := map_eq_some_iff.1 hn
    obtain ⟨hlt, rfl⟩ := List.getElem?_eq_some_iff.1 hj
    rw [List.getElem_range, hbase.tracks.count hq]
  | @replySample frame k ahead upTo q hheld hque =>
    obtain ⟨hclosed, hupTo, hplaces, hcovers⟩ := hlock.reply frame k ahead upTo hheld
    have hk := (List.getElem?_eq_some_iff.1 hque).1
    refine ⟨hbase.congr rfl,
      LockInv.ofReply rfl hclosed hupTo ?_ fun i n q' hn hq' => ?_⟩
    · split_ifs
      · intro m hm
        rcases mem_append.1 hm with hm | hm
        · exact hplaces m hm
        · rw [mem_singleton.1 hm]
          exact hk
      · exact hplaces
    · obtain ⟨hle, hcovered⟩ := hcovers i n q' hn hq'
      refine ⟨hle, fun hi q'' hq'' => ?_⟩
      obtain rfl : q' = q'' := some.inj (hq'.symm.trans hq'')
      rcases Nat.lt_succ_iff_lt_or_eq.1 hi with hi | rfl
      · rcases hcovered hi q' hq' with ⟨mark, hmem, hmark⟩ | hleft
        · refine Or.inl ⟨mark, ?_, hmark⟩
          split_ifs
          · exact mem_append_left _ hmem
          · exact hmem
        · exact Or.inr hleft
      · obtain rfl : q = q' := some.inj (hque.symm.trans hq')
        split_ifs with hused
        · exact Or.inl ⟨_, mem_append_right _ (mem_singleton_self _), hle⟩
        · exact Or.inr (by omega)
  | @replyPush frame k ahead upTo hheld hk =>
    obtain ⟨hclosed, hupTo, hplaces, hcovers⟩ := hlock.reply frame k ahead upTo hheld
    refine ⟨⟨hbase.min_le, hbase.le_max, hbase.reading_lt, hbase.tracks, hbase.appended_lt, ?_⟩,
      LockInv.free rfl⟩
    obtain ⟨done, owed, dropped, hsorted⟩ := hbase.sorted
    have hdropped := hsorted.dropped_eq hclosed
    have hlen := hsorted.owes.length_eq
    subst hdropped
    refine ⟨done, owed ++ [⟨frame, upTo, u.hist.polls, u.work, u.added, u.replies.length⟩], [],
      ?_, hsorted.answers, ?_, fun _ => rfl, ?_⟩
    · change u.hist.posted ++ _ = _
      rw [hsorted.posted_eq]
      simp
    · refine rel_append (hsorted.owes.imp fun _ _ ho => ho.mono (Grows.of_eq rfl))
        (.cons ⟨rfl, hplaces, Nat.le_of_eq hupTo, fun i n hn q hq => ?_⟩ .nil)
      have hi : i < upTo.length := (List.getElem?_eq_some_iff.1 hn).1
      exact (hcovers i n q hn hq).2 (by omega) q hq
    · intro j p hp
      rw [getElem?_append] at hp
      split_ifs at hp with hj
      · exact hsorted.bound j p hp
      · have hj' : j = owed.length := by
          have := (List.getElem?_eq_some_iff.1 hp).1
          rw [length_singleton] at this
          omega
        rw [hj', Nat.sub_self, getElem?_cons_zero] at hp
        obtain rfl := some.inj hp
        change u.hist.polls + j + u.work + u.added ≤
          u.hist.polls + u.replies.length + u.work + u.added
        omega
  | closeReplies hfree =>
    refine ⟨⟨hbase.min_le, hbase.le_max, hbase.reading_lt, hbase.tracks, hbase.appended_lt, ?_⟩,
      LockInv.free hfree⟩
    obtain ⟨done, owed, dropped, hsorted⟩ := hbase.sorted
    refine ⟨done, [], owed ++ dropped, ?_, hsorted.answers, .nil, nofun, nofun⟩
    rw [hsorted.posted_eq]
    simp
  | attachLock generation sid kind context hfree =>
    exact ⟨hbase.congr rfl, LockInv.attach rfl⟩
  | @attachTry k generation sid kind context q hheld hque =>
    have hmoves := moves_tryAttach (q := q) generation sid kind context
    have hload := load_tryAttach (q := q) generation sid kind context
    refine ⟨hbase.setQue hque hmoves rfl rfl hbase.reading_lt rfl rfl rfl rfl
        (append_nil _).symm ?_, ?_⟩
    · rw [hload]
      exact Nat.le_refl _
    · cases (q.tryAttach generation sid kind context).2 with
      | none => exact LockInv.attach rfl
      | some id => exact LockInv.free rfl
  | @attachNew k generation sid kind context hheld hk =>
    exact ⟨hbase.attachNew generation sid kind context, LockInv.free rfl⟩
  | pollBegin hfree =>
    refine ⟨hbase.congr rfl, ?_⟩
    unfold User.pollBegin
    cases hreplies : u.replies with
    | nil => exact LockInv.ofLook rfl (Nat.zero_le _) (Looked.zero rfl)
    | cons reply replies =>
      exact LockInv.ofDue [] rfl rfl rfl rfl fun m hm => absurd hm not_mem_nil
  | @pollDue i mark rest q hheld hque =>
    obtain ⟨hlooks, reply, replies, checked, hreplies, hahead, hchecked⟩ := hlock.due _ hheld
    refine ⟨hbase.congr rfl, ?_⟩
    split_ifs with hmark
    · refine LockInv.ofDue (checked ++ [(i, mark)]) rfl hlooks hreplies
        (by rw [hahead, append_assoc]; rfl) fun m hm => ?_
      rcases mem_append.1 hm with hm | hm
      · exact hchecked m hm
      · rw [mem_singleton.1 hm]
        exact ⟨q, hque, hmark⟩
    · exact LockInv.ofLook rfl (Nat.zero_le _) (Looked.zero hlooks)
  | @pollReply reply rest hheld hreplies =>
    refine ⟨hbase.pollReply hreplies fun p hp => ⟨hp.frame, Or.inl fun i n hn => ?_⟩,
      LockInv.free rfl⟩
    obtain ⟨-, reply', replies', checked, heq, hahead, hchecked⟩ := hlock.due _ hheld
    obtain rfl : reply = reply' := (cons.inj (hreplies.symm.trans heq)).1
    have hi := (List.getElem?_eq_some_iff.1 hn).1.trans_le hp.upTo_le
    have hq := getElem?_eq_getElem hi
    refine ⟨u.ques[i].taken, by rw [getElem?_map, hq, map_some], ?_⟩
    rcases hp.covers i n hn _ hq with ⟨mark, hmem, hle⟩ | hleft
    · rw [hahead, append_nil] at hmem
      obtain ⟨q, hq', hmark⟩ := hchecked _ hmem
      obtain rfl := some.inj (hq.symm.trans hq')
      exact hle.trans hmark
    · exact hleft
  | @pollEvent s q q' e hheld hs hque hpoll =>
    have hmoves := moves_pollOldest (q := q) u.flowOn
    have hload := (load_pollOldest (hbase.lists hque) u.flowOn).2
    rw [hpoll] at hmoves hload
    refine ⟨hbase.setQue hque hmoves rfl rfl (turn_lt hbase hs) rfl rfl rfl rfl
        (append_nil _).symm ?_, LockInv.free rfl⟩
    have hlt : load q' < load q := hload nofun
    change u.hist.polls + 1 + load q' + u.added ≤ u.hist.polls + load q + u.added
    omega
  | @pollNothing s q q' hheld hs hque hpoll =>
    have hmoves := moves_pollOldest (q := q) u.flowOn
    have hload := (load_pollOldest (hbase.lists hque) u.flowOn).1
    have hquiet := quiet_pollOldest (hbase.lists hque) u.flowOn (by rw [hpoll])
    rw [hpoll] at hmoves hload hquiet
    obtain ⟨-, hlooked⟩ := hlock.look s hheld
    refine ⟨hbase.setQue hque hmoves rfl rfl hbase.reading_lt rfl rfl rfl rfl
        (append_nil _).symm ?_, LockInv.ofPark rfl ?_ ⟨?_, ?_⟩⟩
    · exact Nat.add_le_add_right (Nat.add_le_add_left hload _) _
    · change s < (u.ques.set _ q').length
      rwa [length_set]
    · have hturn : (u.pollNothing s (u.turn s) q').turn = u.turn := by
        funext k
        simp only [User.turn, User.pollNothing, length_set]
      rw [hturn, range_succ, map_append, ← hlooked.ques_eq]
      exact map_append
    · intro l hl
      rcases mem_append.1 hl with hl | hl
      · exact hlooked.nothing l hl
      · rw [mem_singleton.1 hl]
        exact (Nat.eq_zero_or_pos q'.used).imp_right hquiet.gate
  | @pollPark s hheld =>
    obtain ⟨hlt, hlooked⟩ := hlock.park s hheld
    exact ⟨hbase.congr rfl,
      LockInv.ofLook rfl hlt (hlooked.congr rfl rfl rfl)⟩
  | @pollPassed s reply rest hheld hs hreplies =>
    obtain ⟨-, hlooked⟩ := hlock.look s hheld
    refine ⟨hbase.pollReply hreplies fun p hp =>
      ⟨hp.frame, Or.inr ⟨hlooked.nothing, fun i hi => ?_⟩⟩, LockInv.free rfl⟩
    rw [length_map] at hi
    obtain ⟨k, hk, hturn⟩ := exists_wrap hbase.reading_lt hi
    have hmem : i ∈ u.hist.looks.map Look.que := by
      rw [hlooked.ques_eq]
      exact mem_map.2 ⟨k, mem_range.2 (by omega), hturn⟩
    exact mem_map.1 hmem
  | @pollPending s hheld hs hreplies =>
    refine ⟨⟨hbase.min_le, hbase.le_max, Nat.lt_of_le_of_lt (Nat.zero_le _) hbase.reading_lt,
      hbase.tracks, hbase.appended_lt, ?_⟩, LockInv.free rfl⟩
    obtain ⟨done, owed, dropped, hsorted⟩ := hbase.sorted
    have howes := hsorted.owes
    rw [hreplies] at howes
    cases howes with
    | nil =>
      refine ⟨done, [], dropped, hsorted.posted_eq, hsorted.answers, ?_, hsorted.dropped_eq, nofun⟩
      change Forall₂ _ u.replies []
      rw [hreplies]
      exact .nil

lemma Base.start {n : ℕ} (hmin : 4 ≤ n) (hmax : n ≤ maxEventsPerQue) :
    Base (User.new n : User η α κ ρ) := by
  refine ⟨hmin, hmax, Nat.zero_lt_one, fun i q hq => ?_, fun a ha => absurd ha not_mem_nil,
    [], [], [], rfl, .nil, .nil, fun _ => rfl, nofun⟩
  obtain ⟨hlt, rfl⟩ := List.getElem?_eq_some_iff.1 hq
  have hq : (User.new n : User η α κ ρ).ques[i] = new n := List.getElem_singleton hlt
  rw [hq]
  exact ⟨[], [], ⟨[], Inv.new hmin hmax, rfl⟩, rfl, rfl⟩

theorem Reachable.inv {n : ℕ} (hmin : 4 ≤ n) (hmax : n ≤ maxEventsPerQue) (h : Reachable n u) :
    Base u ∧ LockInv u := by
  induction h with
  | refl => exact ⟨Base.start hmin hmax, LockInv.free rfl⟩
  | tail _ hstep ih => exact hstep.inv ih.1 ih.2

/-! ### A poll comes to its end -/

/-- The steps of one poll lead to its end. -/
def PollEnds (u : User η α κ ρ) : Prop :=
  ∃ u', Relation.ReflTransGen UserStep u u' ∧ u'.hist.polls = u.hist.polls + 1

lemma PollEnds.head (hstep : UserStep u u') (hpolls : u'.hist.polls = u.hist.polls)
    (h : PollEnds u') : PollEnds u := by
  obtain ⟨w, hrun, hw⟩ := h
  exact ⟨w, .head hstep hrun, by rw [hw, hpolls]⟩

lemma PollEnds.last (hstep : UserStep u u') (hpolls : u'.hist.polls = u.hist.polls + 1) :
    PollEnds u := ⟨u', .single hstep, hpolls⟩

lemma pollEnds_look (k : ℕ) : ∀ {u : User η α κ ρ} {s}, Base u → LockInv u →
    u.lock = .look s → s + k = u.ques.length → PollEnds u := by
  induction k with
  | zero =>
    intro u s hbase hlock hheld hs
    cases hreplies : u.replies with
    | nil => exact PollEnds.last (.pollPending hheld hs hreplies) rfl
    | cons reply rest => exact PollEnds.last (.pollPassed hheld hs hreplies) rfl
  | succ k ih =>
    intro u s hbase hlock hheld hs
    have hlt : s < u.ques.length := by omega
    obtain ⟨q, hque⟩ : ∃ q, u.ques[u.turn s]? = some q :=
      ⟨_, getElem?_eq_getElem (turn_lt hbase hlt)⟩
    rcases hpoll : q.pollOldest u.flowOn with ⟨q', _ | e⟩
    · have hnothing := UserStep.pollNothing hheld hlt hque hpoll
      obtain ⟨hbase₁, hlock₁⟩ := hnothing.inv hbase hlock
      have hpark : UserStep (u.pollNothing s (u.turn s) q') _ := UserStep.pollPark rfl
      obtain ⟨hbase₂, hlock₂⟩ := hpark.inv hbase₁ hlock₁
      have hlen : s + 1 + k = (u.ques.set (u.turn s) q').length := by
        rw [length_set]
        omega
      exact PollEnds.head hnothing rfl (PollEnds.head hpark rfl (ih hbase₂ hlock₂ rfl hlen))
    · exact PollEnds.last (.pollEvent hheld hlt hque hpoll) rfl

lemma pollEnds_due (rest : List (ℕ × ℕ)) : ∀ {u : User η α κ ρ}, Base u → LockInv u →
    u.lock = .due rest → PollEnds u := by
  induction rest with
  | nil =>
    intro u hbase hlock hheld
    obtain ⟨-, reply, replies, -, hreplies, -⟩ := hlock.due _ hheld
    exact PollEnds.last (.pollReply hheld hreplies) rfl
  | cons m rest ih =>
    intro u hbase hlock hheld
    obtain ⟨i, mark⟩ := m
    obtain ⟨-, reply, replies, checked, hreplies, hahead, -⟩ := hlock.due _ hheld
    have hi : i < u.ques.length := by
      obtain ⟨done, owed, dropped, hsorted⟩ := hbase.sorted
      have howes := hsorted.owes
      rw [hreplies] at howes
      cases howes with
      | cons hp _ => exact hp.places (i, mark) (by simp [hahead])
    obtain ⟨q, hque⟩ : ∃ q, u.ques[i]? = some q := ⟨_, getElem?_eq_getElem hi⟩
    have hstep := UserStep.pollDue hheld hque
    obtain ⟨hbase', hlock'⟩ := hstep.inv hbase hlock
    refine PollEnds.head hstep rfl ?_
    by_cases hmark : mark ≤ q.taken
    · exact ih hbase' hlock' (if_pos hmark)
    · exact pollEnds_look u.ques.length hbase' hlock' (if_neg hmark) (Nat.zero_add _)

/-- **A poll comes to its end**, whatever the queues hold. -/
theorem Base.pollEnds (hbase : Base u) (hlock : LockInv u) (hfree : u.lock = .free) :
    PollEnds u := by
  have hstep := UserStep.pollBegin hfree
  obtain ⟨hbase', hlock'⟩ := hstep.inv hbase hlock
  refine PollEnds.head hstep rfl ?_
  cases hreplies : u.replies with
  | nil =>
    refine pollEnds_look u.ques.length (s := 0) hbase' hlock' ?_ (Nat.zero_add _)
    simp only [User.pollBegin, hreplies]
  | cons reply replies =>
    refine pollEnds_due reply.ahead hbase' hlock' ?_
    simp only [User.pollBegin, hreplies]

/-! ### The replies of a circuit -/

lemma frames_eq {β γ δ : Type} {R : β → γ → Prop} {f} {g : γ → δ} {xs ys} (h : Forall₂ R xs ys) (hfg : ∀ x y, R x y → f x = g y) :
    ys.map g = xs.map f := by
  induction h with
  | nil => rfl
  | cons hxy _ ih => rw [map_cons, map_cons, ih, hfg _ _ hxy]

lemma forall₂_get {β γ : Type} {R : β → γ → Prop} {xs ys} (h : Forall₂ R xs ys)
    : ∀ {k : ℕ} {x y}, xs[k]? = some x → ys[k]? = some y →
      R x y := by
  induction h with
  | nil => exact fun hx => absurd hx nofun
  | @cons x' y' xs ys hxy _ ih =>
    intro k x y hx hy
    cases k with
    | zero =>
      obtain rfl := some.inj hx
      obtain rfl := some.inj hy
      exact hxy
    | succ k => exact ih hx hy

/-- **Replies follow the updates they promise.**  Entries leave a queue in the order in which they
were appended.  Replies are returned in the order in which they were posted, each when what its call
found queued has left, or when a whole pass found nothing to deliver.  A reply that is owed and not
dropped has waited for no more polls than there were replies ahead of it and things to read when it
was posted, and things that were added since; and every poll comes to its end. -/
theorem replies_follow {n : ℕ} (hmin : 4 ≤ n) (hmax : n ≤ maxEventsPerQue) (h : Reachable n u) :
    (∀ (i : ℕ) (q : QueInner η α κ), u.ques[i]? = some q →
      q.entries.map Entry.id = (u.hist.appendedTo i).drop q.taken) ∧
    (∃ rest, u.hist.posted.map Posting.frame = u.hist.returned.map Returned.frame ++ rest ∧
      (u.closed = false → rest = u.replies.map OwedReply.frame)) ∧
    (∀ (k : ℕ) (r : Returned ρ) (p : Posting ρ), u.hist.returned[k]? = some r →
      u.hist.posted[k]? = some p → Answers r p) ∧
    (u.closed = false → ∀ (k : ℕ) (p : Posting ρ), u.hist.returned.length ≤ k →
      u.hist.posted[k]? = some p →
      u.hist.polls + p.added ≤ p.polls + p.before + p.work + u.added) ∧
    (u.lock = .free → PollEnds u) := by
  obtain ⟨hbase, hlock⟩ := h.inv hmin hmax
  obtain ⟨done, owed, dropped, hsorted⟩ := hbase.sorted
  have hlen := hsorted.answers.length_eq
  refine ⟨fun i q hq => ?_, ?_, fun k r p hr hp => ?_, fun hclosed k p hk hp => ?_,
    hbase.pollEnds hlock⟩
  · obtain ⟨gone, ids, ⟨es, hinv, rfl⟩, heq, htaken⟩ := hbase.tracks i q hq
    rw [hinv.entries_eq, heq, htaken, drop_left]
    rfl
  · refine ⟨(owed ++ dropped).map Posting.frame, ?_, fun hclosed => ?_⟩
    · have hdone : done.map Posting.frame = u.hist.returned.map Returned.frame :=
        frames_eq hsorted.answers fun _ _ ha => ha.frame
      rw [hsorted.posted_eq, append_assoc, map_append, hdone]
    · rw [hsorted.dropped_eq hclosed, append_nil]
      exact frames_eq hsorted.owes fun _ _ ho => ho.frame
  · have hk : k < done.length := hlen ▸ (List.getElem?_eq_some_iff.1 hr).1
    rw [hsorted.posted_eq, append_assoc, getElem?_append_left hk] at hp
    exact forall₂_get hsorted.answers hr hp
  · rw [hsorted.posted_eq, hsorted.dropped_eq hclosed, append_nil,
      getElem?_append_right (by omega)] at hp
    have hbound := hsorted.bound _ p hp
    omega

/-! ### A queue that is never empty

The consumer stays on the queue that it reads for as long as it finds something there.  A producer
that posts one entry for each poll keeps it on the first queue, and a reply that waits for the second
is not returned. -/

/-- The queue at the head of the chain between two posts: the first of its three monitors is
posted to, and its entry is read. -/
def idle (k last taken : ℕ) : QueInner Unit Unit Unit where
  ring := List.replicate 16 none
  getix := k
  used := 0
  nDuplicates := 0
  draining := false
  inBurst := false
  subs := [some { SubQ.new (AttachId.new 0 0) 0 .val () with last },
    some (SubQ.new (AttachId.new 1 1) 0 .val ()), some (SubQ.new (AttachId.new 2 2) 0 .val ()), none]
  free := [3]
  quota := 12
  size := 16
  replaceThreshold := 4
  unreportedEnds := 0
  taken

lemma idle_cycle {k : ℕ} (hk : k < 16) (last taken : ℕ) :
    ∃ q, (idle k last taken).post false (AttachId.new 0 0) ⟨(), 1, .val ()⟩ =
        (q, .appended true, true) ∧
      { q with inBurst := false }.pollOldest false = (idle (wrap (k + 1) 16) k (taken + 1),
        some (.event (AttachId.new 0 0) 0 () ⟨(), 1, .val ()⟩ false)) := by
  interval_cases k <;> exact ⟨_, rfl, rfl⟩

def User.withBurst (u : User η α κ ρ) (ques : List (QueInner η α κ)) (burst : PostBurst)
    (new : List (ℕ × AttachId)) : User η α κ ρ :=
  { u with
    ques
    bursts := u.bursts ++ [burst]
    hist := { u.hist with appended := u.hist.appended ++ new } }

lemma burst_run {u : User η α κ ρ} {q q'} (i : ℕ) (id : AttachId) (log : PostLog η α)
    (hfree : u.lock = .free) (hque : u.ques[i]? = some q)
    (hpost : q.post u.flowOn id log = (q', .appended true, true)) :
    Relation.ReflTransGen UserStep u
      (u.withBurst (u.ques.set i { q' with inBurst := false }) ⟨[], none, none, true⟩
        [(i, id)]).wake := by
  have hnot : ∀ ques burst new j, ¬ (u.withBurst ques burst new).holds j :=
    fun _ _ _ => not_holds hfree
  have hget : ∀ ques burst new,
      (u.withBurst ques burst new).bursts[u.bursts.length]? = some burst := by
    intro ques burst new
    simp [User.withBurst]
  have hset : ∀ x y : PostBurst, (u.bursts ++ [x]).set u.bursts.length y = u.bursts ++ [y] := by
    simp
  have hque' : (u.ques.set i q')[i]? = some q' := by
    rw [List.getElem?_set_self (List.getElem?_eq_some_iff.1 hque).1]
  have hbegin : UserStep u (u.withBurst u.ques PostBurst.new []) := by
    have hstep := UserStep.newBurst u
    simp only [User.withBurst, append_nil]
    exact hstep
  have hposted : UserStep (u.withBurst u.ques PostBurst.new [])
      (u.withBurst (u.ques.set i q') ⟨[], some i, none, false⟩ [(i, id)]) := by
    have hstep := UserStep.post id log (hget u.ques .new []) rfl rfl hque (hnot _ _ _ i)
    simp only [User.withBurst, User.post, hpost, hset, if_true, append_nil] at hstep
    simp only [User.withBurst, append_nil]
    exact hstep
  have hpush : UserStep (u.withBurst (u.ques.set i q') ⟨[], some i, none, false⟩ [(i, id)])
      (u.withBurst (u.ques.set i q') ⟨[i], none, none, false⟩ [(i, id)]) := by
    have hstep := UserStep.push (hget (u.ques.set i q') ⟨[], some i, none, false⟩ [(i, id)]) rfl
    simp only [User.withBurst, hset] at hstep
    exact hstep
  have hunchain : UserStep (u.withBurst (u.ques.set i q') ⟨[i], none, none, false⟩ [(i, id)])
      (u.withBurst (u.ques.set i { q' with inBurst := false }) ⟨[], none, some i, true⟩
        [(i, id)]) := by
    have hstep := UserStep.unchain (hget (u.ques.set i q') ⟨[i], none, none, false⟩ [(i, id)])
      rfl rfl rfl hque' (hnot _ _ _ i)
    simp only [User.withBurst, hset, set_set] at hstep
    exact hstep
  have hwake := UserStep.wakeBurst
    (hget (u.ques.set i { q' with inBurst := false }) ⟨[], none, some i, true⟩ [(i, id)]) rfl
  simp only [User.withBurst, hset] at hwake
  exact ((((Relation.ReflTransGen.single hbegin).tail hposted).tail hpush).tail hunchain).tail hwake

def unread : QueInner Unit Unit Unit :=
  let q := ((QueInner.new 4).tryAttach 3 0 .val ()).1
  { (q.post false (AttachId.new 3 0) ⟨(), 1, .val ()⟩).1 with inBurst := false }

/-- A reply waits for the entry of the second queue, and the consumer is on the first one. -/
structure Starves (u : User Unit Unit Unit Unit) : Prop where
  ques_eq : ∃ k last taken, k < 16 ∧ u.ques = [idle k last taken, unread]
  free : u.lock = .free
  flowOn : u.flowOn = false
  reading : u.reading = 0
  replies : u.replies = [⟨(), [(1, 1)]⟩]
  waits : u.closed = false ∧ u.hist.posted.map Posting.frame = [()] ∧ u.hist.returned = []

lemma Starves.poll {u q q' e} (hfree : u.lock = .free) (hques : u.ques = [q, unread])
    (hreading : u.reading = 0) (hreplies : u.replies = [⟨(), [(1, 1)]⟩]) (hflow : u.flowOn = false)
    (hpoll : q.pollOldest false = (q', some e)) :
    Relation.ReflTransGen UserStep u
      ({ u.pollBegin with lock := .look 0 }.pollEvent 0 q') := by
  have hdue : u.pollBegin.lock = .due [(1, 1)] := by
    simp only [User.pollBegin, hreplies]
  have hunread : u.pollBegin.ques[1]? = some unread := by
    change u.ques[1]? = _
    rw [hques]
    rfl
  have hlook := UserStep.pollDue hdue hunread
  have hturn : ({ u.pollBegin with lock := .look 0 } : User _ _ _ _).turn 0 = 0 := by
    change wrap (u.reading + 0) u.ques.length = 0
    rw [hreading, hques]
    rfl
  have hhead : ({ u.pollBegin with lock := .look 0 } : User _ _ _ _).ques[0]? = some q := by
    change u.ques[0]? = _
    rw [hques]
    rfl
  have hpos : 0 < u.ques.length := by
    rw [hques]
    exact Nat.zero_lt_two
  have hevent := UserStep.pollEvent (u := { u.pollBegin with lock := .look 0 }) rfl hpos
    (hturn.symm ▸ hhead) (hflow.symm ▸ hpoll)
  rw [hturn] at hevent
  exact ((Relation.ReflTransGen.single (.pollBegin hfree)).tail hlook).tail hevent

lemma Starves.next {u : User Unit Unit Unit Unit} (h : Starves u) :
    ∃ u', Relation.ReflTransGen UserStep u u' ∧ Starves u' ∧
      u'.hist.polls = u.hist.polls + 1 := by
  obtain ⟨⟨k, last, taken, hk, hques⟩, hfree, hflow, hreading, hreplies, hclosed, hposted,
    hreturned⟩ := h
  obtain ⟨q, hpost, hpoll⟩ := idle_cycle hk last taken
  have hhead : u.ques[0]? = some (idle k last taken) := by
    rw [hques]
    rfl
  have hburst := burst_run 0 _ _ hfree hhead (hflow.symm ▸ hpost)
  have hset : u.ques.set 0 { q with inBurst := false } =
      [{ q with inBurst := false }, unread] := by
    rw [hques]
    rfl
  rw [hset] at hburst
  have hread := hburst.trans (Starves.poll ((wake_lock _).trans hfree) (wake_ques _)
    ((wake_reading _).trans hreading) ((wake_replies _).trans hreplies)
    ((wake_flowOn _).trans hflow) hpoll)
  refine ⟨_, hread, ⟨⟨wrap (k + 1) 16, k, taken + 1, wrap_lt hk (by omega), ?_⟩, rfl,
    (wake_flowOn _).trans hflow, rfl, (wake_replies _).trans hreplies,
    (wake_closed _).trans hclosed, ?_, ?_⟩, ?_⟩
  · simp [User.pollEvent, User.pollBegin, User.withBurst]
  · simp [User.pollEvent, User.pollBegin, User.withBurst, hposted]
  · simp [User.pollEvent, User.pollBegin, User.withBurst, hreturned]
  · simp [User.pollEvent, User.pollBegin, User.withBurst]

lemma starves_reachable : ∃ u : User Unit Unit Unit Unit, Reachable 4 u ∧ Starves u := by
  have hnew : Reachable 4 (User.new 4 : User Unit Unit Unit Unit) := .refl
  have hone := (hnew.tail (.attachLock 0 0 .val () rfl)).tail (.attachTry rfl rfl)
  have htwo := (hone.tail (.attachLock 1 0 .val () rfl)).tail (.attachTry rfl rfl)
  have hthree := (htwo.tail (.attachLock 2 0 .val () rfl)).tail (.attachTry rfl rfl)
  -- the first queue has no room for a fourth monitor
  have hchained := ((hthree.tail (.attachLock 3 0 .val () rfl)).tail (.attachTry rfl rfl)).tail
    (.attachNew rfl rfl)
  have hposted := hchained.trans (burst_run 1 (AttachId.new 3 0) ⟨(), 1, .val ()⟩ rfl rfl rfl)
  have hreply := (((hposted.tail (.replyLock () rfl rfl)).tail (.replySample rfl rfl)).tail
    (.replySample rfl rfl)).tail (.replyPush rfl rfl)
  exact ⟨_, hreply.tail (.wakeCall Nat.zero_lt_one),
    ⟨⟨0, 0, 0, by omega, rfl⟩, rfl, rfl, rfl, rfl, rfl, rfl, rfl⟩⟩

/-- A reply that is owed, and for how many polls it can still be. -/
theorem replies_follow_owed : ∃ u : User Unit Unit Unit Unit, Reachable 4 u ∧
    u.replies ≠ [] ∧ ∃ p, u.hist.posted[0]? = some p ∧
      u.hist.polls + p.added ≤ p.polls + p.before + p.work + u.added := by
  obtain ⟨u, hreach, hstarves⟩ := starves_reachable
  obtain ⟨hclosed, hposted, hreturned⟩ := hstarves.waits
  obtain ⟨p, hp, -⟩ := map_eq_singleton_iff.1 hposted
  have hget : u.hist.posted[0]? = some p := by
    rw [hp]
    rfl
  refine ⟨u, hreach, by simp [hstarves.replies], p, hget, ?_⟩
  exact (replies_follow (Nat.le_refl 4) (by decide) hreach).2.2.2.1 hclosed 0 p
    (by simp [hreturned]) hget

/-- **A reply can wait for ever while the consumer keeps polling.**  In this run every burst comes to
its end, every wake is fired and every poll returns an event. -/
theorem reply_waits_forever : ∃ run : ℕ → User Unit Unit Unit Unit, Reachable 4 (run 0) ∧
    ∀ m, Relation.ReflTransGen UserStep (run m) (run (m + 1)) ∧
      (run (m + 1)).hist.polls = (run m).hist.polls + 1 ∧
      (run m).closed = false ∧ (run m).hist.posted.map Posting.frame = [()] ∧
      (run m).hist.returned = [] := by
  obtain ⟨start, hreach, hstart⟩ := starves_reachable
  choose next hsteps hstarves hpolls using @Starves.next
  let run : ℕ → { u // Starves u } := Nat.rec ⟨start, hstart⟩ fun _ u => ⟨next u.2, hstarves u.2⟩
  exact ⟨fun m => (run m).1, hreach, fun m => ⟨hsteps (run m).2, hpolls (run m).2, (run m).2.waits⟩⟩

end EventQueue
