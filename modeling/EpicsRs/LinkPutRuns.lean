/-
**No put is lost and no completion is resolved twice.**

What holds of the queue of puts after any sequence of calls, of links that are removed and of parses
that are dropped.  Every call is a sequence of moves, each of them about one link — or about all the
links of a field, when they are removed — and everything is shown for one move.

Main result: `LinkPut.put_queue_correct`.
-/

import EpicsRs.LinkPutQueue

set_option autoImplicit false

namespace LinkPut

open List Option KeyTable World
open RecordLock (FieldName)
open Relation (ReflTransGen)

variable {V : Type}

/-! ### Moves -/

/-- What a call does to the link that it is about.  What it does to the counters is left open. -/
inductive Move : Action V → World V → World V → Prop
  | stage {w} (key : LinkKey) (value : V) (waiter : PutWaiter)
      {unsent coalesced completed} (staged : StagedPut V) (hstaged : staged = waiter.staged w.staged.length value) :
      Move (.stagePut key value waiter) w
        { w with
          inner := ⟨KeyTable.put w.inner.links key (stageOn (w.state key) staged),
            if (w.state key).isNone then w.inner.ready ++ [key] else w.inner.ready,
            unsent, coalesced, completed⟩
          staged := w.staged ++ [(key, staged.put, staged.value)]
          awaited := w.awaited ++ staged.puts
          resolved := w.resolved ++ resolveAll (pendingCompletion (w.state key)) .superseded }
  | discard {w} (key : LinkKey) (ready : List LinkKey) (staged : StagedPut V)
      (hready : w.inner.ready = key :: ready) (hstate : w.state key = some (.queued staged))
      (hremoved : key.link.install.removed w.dropped = true) :
      Move .takeReady w
        { w with
          inner := { w.inner with links := w.inner.links.erase key, ready := ready }
          resolved := w.resolved ++ staged.removed }
  | handOut {w} (key : LinkKey) (ready : List LinkKey) (staged : StagedPut V)
      (hready : w.inner.ready = key :: ready) (hstate : w.state key = some (.queued staged)) :
      Move .takeReady w
        { w with
          inner := { w.inner with
            links := KeyTable.put w.inner.links key (.inFlight staged.completion), ready := ready }
          out := w.out ++ [key]
          handed := w.handed ++ [(key, staged.put, staged.value)] }
  | finishEnds {w} (key : LinkKey) (written : Written) (sent : Option PutCompletion)
      {unsent coalesced completed} (hflight : flightOf (w.state key) = some sent)
      (hend : (pendingOf (w.state key)).isSome → key.link.install.removed w.dropped = true) :
      Move (.finish key written) w
        { w with
          inner := ⟨w.inner.links.erase key, w.inner.ready, unsent, coalesced, completed⟩
          out := w.out.erase key
          inHand := w.inHand ++ sent.toList.map fun c => (c, .wire written)
          resolved := w.resolved ++ resolveAll (pendingCompletion (w.state key)) .removedUnsent }
  | finishRequeues {w} (key : LinkKey) (written : Written)
      (sent : Option PutCompletion) (staged : StagedPut V)
      {unsent coalesced completed} (hstate : w.state key = some (.inFlightRestaged sent staged)) :
      Move (.finish key written) w
        { w with
          inner := ⟨KeyTable.put w.inner.links key (.queued staged), w.inner.ready ++ [key],
            unsent, coalesced, completed⟩
          out := w.out.erase key
          inHand := w.inHand ++ sent.toList.map fun c => (c, .wire written) }
  | remove {w} (record : Option ℕ) (field : FieldName) (current : LinkInstall) :
      Move (.removeLink record field current) w (w.removeLink record field current)
  | dropParse {w} (parse : ℕ) :
      Move (.dropParse parse) w { w with dropped := insert parse w.dropped }
  | settle {w} (n : ℕ) (c : PutCompletion × Cause) (hc : w.inHand[n]? = some c) :
      Move (.settle n) w
        { w with inHand := w.inHand.eraseIdx n, resolved := w.resolved ++ c.1.resolve c.2 }

lemma World.state_removeLink (w : World V) (record : Option ℕ) (field : FieldName)
    (current : LinkInstall) (key : LinkKey) :
    (w.removeLink record field current).state key =
      (w.state key).map fun state =>
        if removes record field current key then state.cleared else state :=
  lookup_mapValues _ _ _

variable {w w' : World V} {a : Action V}

/-! ### The deque -/

/-- The deque holds the links that wait for the owner, each of them once. -/
def World.Deque (w : World V) : Prop :=
  w.inner.ready.Nodup ∧ ∀ key, key ∈ w.inner.ready ↔ isQueued (w.state key) = true

lemma isQueued_cleared (state : Option (LinkState V)) (b : Bool) :
    isQueued (state.map fun s => if b then s.cleared else s) = isQueued state := by
  cases b <;> rcases state with _ | (_ | _ | _) <;> rfl

variable (links : Table LinkKey (LinkState V)) {inHand : List (PutCompletion × Cause)}
  (key : LinkKey)

lemma deque_push {ready} {queued queued' : LinkKey → Bool}
    (h : ready.Nodup ∧ ∀ key, key ∈ ready ↔ queued key = true) (hkey : queued key = false)
    (hq : ∀ key', queued' key' = if key' = key then true else queued key') :
    (ready ++ [key]).Nodup ∧ ∀ key', key' ∈ ready ++ [key] ↔ queued' key' = true := by
  have hnot : key ∉ ready := fun hmem => by rw [(h.2 key).1 hmem] at hkey; cases hkey
  refine ⟨nodup_append.2 ⟨h.1, nodup_singleton _, ?_⟩, fun key' => ?_⟩
  · rintro x hx y hy rfl
    exact hnot (mem_singleton.1 hy ▸ hx)
  · rw [mem_append, mem_singleton, hq, h.2]
    by_cases hk : key' = key
    · simp [hk]
    · simp [hk]

lemma deque_pop {ready} {queued queued' : LinkKey → Bool} {key}
    (h : (key :: ready).Nodup ∧ ∀ key', key' ∈ key :: ready ↔ queued key' = true)
    (hq : ∀ key', queued' key' = if key' = key then false else queued key') :
    ready.Nodup ∧ ∀ key', key' ∈ ready ↔ queued' key' = true := by
  obtain ⟨hnot, hnodup⟩ := nodup_cons.1 h.1
  refine ⟨hnodup, fun key' => ?_⟩
  rw [hq, ← Bool.not_eq_false]
  by_cases hk : key' = key
  · subst hk
    simp [hnot]
  · rw [if_neg hk, Bool.not_eq_false, ← h.2 key', mem_cons, or_iff_right hk]

lemma Move.deque (h : Move a w w') (hw : w.Deque) : w'.Deque := by
  cases h with
  | stage key value waiter staged hstaged =>
    cases hnone : (w.state key).isNone with
    | true =>
      have hkey : isQueued (w.state key) = false := by
        rw [isNone_iff_eq_none.1 hnone]
        rfl
      refine deque_push key hw hkey fun key' => ?_
      rw [state, lookup_put]
      split_ifs with hk
      · rw [isQueued_stageOn, hnone, Bool.true_or]
      · rfl
    | false =>
      refine ⟨hw.1, fun key' => ?_⟩
      simp only [Bool.false_eq_true, if_false]
      rw [hw.2, state, state, lookup_put]
      split_ifs with hk
      · rw [isQueued_stageOn, hnone, Bool.false_or, hk]
        rfl
      · rfl
  | discard key ready staged hready hstate hremoved =>
    rw [Deque, hready] at hw
    refine deque_pop hw fun key' => ?_
    rw [state, lookup_erase]
    split_ifs <;> rfl
  | handOut key ready staged hready hstate =>
    rw [Deque, hready] at hw
    refine deque_pop hw fun key' => ?_
    rw [state, lookup_put]
    split_ifs <;> rfl
  | finishEnds key written sent hflight hend =>
    refine ⟨hw.1, fun key' => ?_⟩
    show key' ∈ w.inner.ready ↔ isQueued ((w.inner.links.erase key).lookup key') = true
    rw [lookup_erase, hw.2]
    split_ifs with hk
    · rw [hk, not_isQueued_of_flight hflight]
      rfl
    · rfl
  | finishRequeues key written sent staged hstate =>
    refine deque_push key hw (by rw [hstate]; rfl) fun key' => ?_
    rw [state, lookup_put]
    split_ifs <;> rfl
  | remove record field current =>
    refine ⟨hw.1, fun key => ?_⟩
    rw [state_removeLink, isQueued_cleared]
    exact hw.2 key
  | dropParse parse => exact hw
  | settle n c hc => exact hw

/-! ### The writes that are out -/

/-- The links whose write is out are those that are in flight, each of them once. -/
def World.Outgoing (w : World V) : Prop :=
  w.out.Nodup ∧ ∀ key, key ∈ w.out ↔ (flightOf (w.state key)).isSome = true

lemma flightOf_cleared (state : Option (LinkState V)) (b : Bool) :
    (flightOf (state.map fun s => if b then s.cleared else s)).isSome = (flightOf state).isSome := by
  cases b <;> rcases state with _ | (_ | _ | _) <;> rfl

lemma outgoing_erase {out : List LinkKey} {flies flies' : LinkKey → Bool} {key}
    (h : out.Nodup ∧ ∀ key, key ∈ out ↔ flies key = true)
    (hf : ∀ key', flies' key' = if key' = key then false else flies key') :
    (out.erase key).Nodup ∧ ∀ key', key' ∈ out.erase key ↔ flies' key' = true := by
  refine ⟨h.1.erase _, fun key' => ?_⟩
  rw [h.1.mem_erase_iff, hf, h.2]
  by_cases hk : key' = key
  · simp [hk]
  · simp [hk]

lemma Move.outgoing (h : Move a w w') (hw : w.Outgoing) : w'.Outgoing := by
  cases h with
  | stage key value waiter staged hstaged =>
    refine ⟨hw.1, fun key' => ?_⟩
    show key' ∈ w.out ↔ (flightOf ((put w.inner.links key _).lookup key')).isSome = true
    rw [lookup_put]
    split_ifs with hk
    · rw [flightOf_stageOn, hk]
      exact hw.2 key
    · exact hw.2 key'
  | discard key ready staged hready hstate hremoved =>
    refine ⟨hw.1, fun key' => ?_⟩
    rw [state, lookup_erase]
    split_ifs with hk
    · rw [hk]
      exact (hw.2 key).trans (by rw [hstate]; rfl)
    · exact hw.2 key'
  | handOut key ready staged hready hstate =>
    refine deque_push key hw (by rw [hstate]; rfl) fun key' => ?_
    rw [state, lookup_put]
    split_ifs <;> rfl
  | finishEnds key written sent hflight hend =>
    refine outgoing_erase hw fun key' => ?_
    show (flightOf ((w.inner.links.erase key).lookup key')).isSome = _
    rw [lookup_erase]
    split_ifs <;> rfl
  | finishRequeues key written sent staged hstate =>
    refine outgoing_erase hw fun key' => ?_
    rw [state, lookup_put]
    split_ifs <;> rfl
  | remove record field current =>
    refine ⟨hw.1, fun key => ?_⟩
    rw [state_removeLink, flightOf_cleared]
    exact hw.2 key
  | dropParse parse => exact hw
  | settle n c hc => exact hw

/-! ### A call is a sequence of moves -/

lemma Move.of_takeReady (ready : List LinkKey) :
    ∀ w : World V, w.inner.ready = ready → w.Deque →
      ReflTransGen (Move .takeReady) w (w.taken (takeReadyLoop w.dropped ready w.inner.links)) := by
  induction ready with
  | nil =>
    intro w hready hw
    have hsame : w.taken (takeReadyLoop w.dropped [] w.inner.links) = w := by
      simp only [taken, takeReadyLoop, map_none, toList_none, append_nil]
      rw [← hready]
    rw [hsame]
  | cons key ready ih =>
    intro w hready hw
    obtain ⟨staged, hstate⟩ : ∃ staged, w.state key = some (.queued staged) :=
      isQueued_iff.1 ((hw.2 key).1 (hready ▸ mem_cons_self ..))
    have hlookup : w.inner.links.lookup key = some (.queued staged) := hstate
    cases hremoved : key.link.install.removed w.dropped with
    | true =>
      have hmove := Move.discard key ready staged hready hstate hremoved
      have hrest := ih _ rfl (hmove.deque hw)
      refine (ReflTransGen.head hmove hrest).trans (Eq.subst ?_ .refl)
      simp only [taken, takeReadyLoop, hlookup, hremoved, if_true, append_assoc]
    | false =>
      refine ReflTransGen.single (Eq.subst ?_ (Move.handOut key ready staged hready hstate))
      simp only [taken, takeReadyLoop, hlookup, hremoved, Bool.false_eq_true, if_false,
        map_some, toList_some, append_nil]

theorem Move.of_step (hdeque : w.Deque) (hout : w.Outgoing) (h : w.step a = some w') :
    ReflTransGen (Move a) w w' := by
  cases a with
  | stagePut key value waiter =>
    obtain rfl := some.inj h
    obtain ⟨unsent, coalesced, completed, heq⟩ :=
      w.inner.stagePut_eq key (waiter.staged w.staged.length value)
    rw [stagePut]
    simp only [heq]
    exact ReflTransGen.single (.stage key value waiter _ rfl)
  | takeReady =>
    obtain rfl := some.inj h
    exact Move.of_takeReady w.inner.ready w rfl hdeque
  | finish key written =>
    rw [step] at h
    split_ifs at h with hmem
    obtain rfl := some.inj h
    obtain ⟨sent, hflight⟩ := isSome_iff_exists.1 ((hout.2 key).1 hmem)
    refine ReflTransGen.single ?_
    by_cases hend : (pendingOf (w.state key)).isSome → key.link.install.removed w.dropped = true
    · obtain ⟨unsent, coalesced, completed, heq⟩ :=
        w.inner.finish_ends key written hflight hend
      rw [finish]
      simp only [heq]
      exact .finishEnds key written sent hflight hend
    · obtain ⟨hpending, hkept⟩ := Classical.not_imp.1 hend
      obtain ⟨staged, hstate⟩ : ∃ staged, w.state key = some (.inFlightRestaged sent staged) := by
        rcases hstate : w.state key with _ | (_ | _ | ⟨sent', staged⟩)
        all_goals rw [hstate] at hflight hpending
        · cases hflight
        · cases hflight
        · cases hpending
        · exact ⟨staged, by rw [some.inj hflight]⟩
      obtain ⟨unsent, coalesced, completed, heq⟩ :=
        w.inner.finish_requeues key written hstate (Bool.eq_false_iff.2 hkept)
      rw [finish]
      simp only [heq, append_nil]
      exact .finishRequeues key written sent staged hstate
  | removeLink record field current =>
    obtain rfl := some.inj h
    exact ReflTransGen.single (.remove record field current)
  | dropParse parse =>
    obtain rfl := some.inj h
    exact ReflTransGen.single (.dropParse parse)
  | settle n =>
    obtain ⟨c, hc, rfl⟩ := map_eq_some_iff.1 h
    exact ReflTransGen.single (.settle n c hc)

/-! ### What was handed out -/

def onKey (key : LinkKey) (log : List (LinkKey × ℕ × V)) : List (ℕ × V) :=
  (log.filter fun e => e.1 = key).map Prod.snd

lemma onKey_concat (key key' : LinkKey) (log : List (LinkKey × ℕ × V)) (e : ℕ × V) :
    onKey key' (log ++ [(key, e)]) = onKey key' log ++ if key' = key then [e] else [] := by
  by_cases hk : key = key'
  · simp [onKey, hk]
  · simp [onKey, hk, Ne.symm hk]

def waiting (state : Option (LinkState V)) : List (ℕ × V) :=
  ((pendingOf state).map fun staged => (staged.put, staged.value)).toList

/-- What was handed out on a link, and what waits, is part of what was staged on it, in order. -/
def World.History (w : World V) : Prop :=
  ∀ key, (onKey key w.handed ++ waiting (w.state key)).Sublist (onKey key w.staged)

lemma World.History.handed (hw : w.History) (key : LinkKey) :
    (onKey key w.handed).Sublist (onKey key w.staged) :=
  (sublist_append_left _ _).trans (hw key)

lemma waiting_cleared (state : Option (LinkState V)) (b : Bool) :
    waiting (state.map fun s => if b then s.cleared else s) = waiting state ∨
      b = true ∧ waiting (state.map fun s => if b then s.cleared else s) = [] := by
  cases b <;> rcases state with _ | (_ | _ | _) <;> simp [waiting, pendingOf, LinkState.cleared]

/-- What was handed out on a link, and what waits. -/
def World.line (w : World V) (key : LinkKey) : List (ℕ × V) :=
  onKey key w.handed ++ waiting (w.state key)

/-- **What a move does to the line of a link**: nothing, a put that is staged becomes its last, or
what waits leaves it, since there was nothing or the link was removed. -/
theorem Move.line (h : Move a w w') (key' : LinkKey) :
    (w'.line key' = w.line key' ∧ onKey key' w'.staged = onKey key' w.staged) ∨
    (∃ e, w'.line key' = onKey key' w.handed ++ [e] ∧
      onKey key' w'.staged = onKey key' w.staged ++ [e]) ∨
    (w'.line key' = onKey key' w.handed ∧ onKey key' w'.staged = onKey key' w.staged ∧
      (waiting (w.state key') = [] ∨ a.Removes key' ∨
        key'.link.install.removed w.dropped = true)) := by
  cases h with
  | stage key value waiter staged hstaged =>
    simp only [line, state, lookup_put, onKey_concat]
    by_cases hk : key' = key
    · refine Or.inr (Or.inl ⟨(staged.put, staged.value), ?_, ?_⟩)
      · rw [if_pos hk, waiting, pendingOf_stageOn]
        rfl
      · rw [if_pos hk]
    · rw [if_neg hk, if_neg hk, append_nil]
      exact Or.inl ⟨rfl, rfl⟩
  | discard key ready staged hready hstate hremoved =>
    simp only [line, state, lookup_erase]
    split_ifs with hk
    · exact Or.inr (Or.inr ⟨append_nil _, trivial, Or.inr (Or.inr (hk ▸ hremoved))⟩)
    · exact Or.inl ⟨rfl, trivial⟩
  | handOut key ready staged hready hstate =>
    left
    simp only [line, state, lookup_put, onKey_concat]
    split_ifs with hk
    · rw [hk, show w.inner.links.lookup key = some (.queued staged) from hstate]
      exact ⟨append_nil _, trivial⟩
    · exact ⟨by rw [append_nil], trivial⟩
  | finishEnds key written sent hflight hend =>
    simp only [line, state, lookup_erase]
    split_ifs with hk
    · refine Or.inr (Or.inr ⟨append_nil _, trivial, ?_⟩)
      subst hk
      cases hpending : pendingOf (w.inner.links.lookup key') with
      | none => exact Or.inl (by rw [waiting, hpending]; rfl)
      | some staged => exact Or.inr (Or.inr (hend (congrArg isSome hpending)))
    · exact Or.inl ⟨rfl, trivial⟩
  | finishRequeues key written sent staged hstate =>
    left
    simp only [line, state, lookup_put]
    split_ifs with hk
    · rw [hk, show w.inner.links.lookup key = some (.inFlightRestaged sent staged) from hstate]
      exact ⟨rfl, trivial⟩
    · exact ⟨rfl, trivial⟩
  | remove record field current =>
    rw [line, state_removeLink]
    rcases waiting_cleared (w.state key') (removes record field current key') with hsame | ⟨hr, hnil⟩
    · rw [hsame]
      exact Or.inl ⟨rfl, rfl⟩
    · rw [hnil]
      exact Or.inr (Or.inr ⟨append_nil _, rfl, Or.inr (Or.inl hr)⟩)
  | dropParse parse => exact Or.inl ⟨rfl, rfl⟩
  | settle n c hc => exact Or.inl ⟨rfl, rfl⟩

lemma Move.history (h : Move a w w') (hw : w.History) : w'.History := by
  intro key
  change (w'.line key).Sublist _
  obtain ⟨hline, hstaged⟩ | ⟨e, hline, hstaged⟩ | ⟨hline, hstaged, -⟩ := h.line key
  · rw [hline, hstaged]
    exact hw key
  · rw [hline, hstaged]
    exact (hw.handed key).append (Sublist.refl _)
  · rw [hline, hstaged]
    exact hw.handed key

/-- The link was not removed, and the last of what was handed out on it and what waits is the last of
what was staged on it. -/
def World.UpToDate (key : LinkKey) (w : World V) : Prop :=
  key.link.install.removed w.dropped = false ∧
    (onKey key w.handed ++ waiting (w.state key)).getLast? = (onKey key w.staged).getLast?

lemma Move.kept {key} (h : Move a w w') (ha : ¬ a.Removes key)
    (hkept : key.link.install.removed w.dropped = false) :
    key.link.install.removed w'.dropped = false := by
  cases h with
  | dropParse parse =>
    rcases hinstall : key.link.install with other | _
    · have hne : other ≠ parse := fun h => ha (hinstall.trans (h ▸ rfl))
      rw [hinstall] at hkept
      simpa [LinkInstall.removed, hne] using hkept
    · rfl
  | _ => exact hkept

lemma Move.upToDate {key'} (h : Move a w w') (ha : ¬ a.Removes key') (hw : w.UpToDate key')
    : w'.UpToDate key' := by
  obtain ⟨hkept, hlast⟩ := hw
  refine ⟨h.kept ha hkept, ?_⟩
  change (w'.line key').getLast? = _
  obtain ⟨hline, hstaged⟩ | ⟨e, hline, hstaged⟩ | ⟨hline, hstaged, hwhy⟩ := h.line key'
  · rw [hline, hstaged]
    exact hlast
  · rw [hline, hstaged, getLast?_concat, getLast?_concat]
  · rw [hline, hstaged]
    rcases hwhy with hnil | hremoves | hremoved
    · rwa [hnil, append_nil] at hlast
    · exact absurd hremoves ha
    · rw [hremoved] at hkept
      cases hkept

/-! ### Where the completions are -/

def awaitedBy (completion : Option PutCompletion) : List ℕ := completion.elim [] PutCompletion.puts

def statePuts (state : Option (LinkState V)) : List ℕ :=
  (flightOf state).elim [] awaitedBy ++ awaitedBy (pendingCompletion state)

lemma put_resolveAll (completion : Option PutCompletion) (cause : Cause) :
    (resolveAll completion cause).map Resolved.put = awaitedBy completion := by
  cases completion with
  | none => rfl
  | some c => exact c.put_resolve cause

lemma statePuts_stageOn (state : Option (LinkState V)) (staged : StagedPut V) :
    statePuts (some (stageOn state staged)) = (flightOf state).elim [] awaitedBy ++ staged.puts := by
  rw [statePuts, flightOf_stageOn, pendingCompletion, pendingOf_stageOn]
  rfl

lemma puts_staged (put : ℕ) (value : V) (waiter : PutWaiter) :
    (waiter.staged put value).puts = [] ∨ (waiter.staged put value).puts = [put] := by
  cases waiter with
  | none => exact Or.inl rfl
  | notify => exact Or.inr rfl
  | record band => exact Or.inr rfl

namespace World

def inHandPuts (w : World V) : List ℕ := w.inHand.flatMap fun c => c.1.puts

def held (w : World V) (p : ℕ) : ℕ :=
  KeyTable.total (fun state => (statePuts (some state)).count p) w.inner.links

def resolutions (w : World V) (p : ℕ) : ℕ := (w.resolved.map Resolved.put).count p

/-- **The completion of every put that has a waiter is with its link, with a thread, or was
resolved.** -/
structure Balanced (w : World V) : Prop where
  nodup : w.awaited.Nodup
  lt : ∀ p ∈ w.awaited, p < w.staged.length
  balance : ∀ p, w.held p + w.inHandPuts.count p + w.resolutions p = w.awaited.count p

end World

lemma elim_statePuts (state : Option (LinkState V)) (p : ℕ) :
    (state.elim 0 fun state => (statePuts (some state)).count p) = (statePuts state).count p := by
  cases state with
  | none => rfl
  | some state => rfl

lemma held_put (state : LinkState V) (p : ℕ) :
    total (fun state => (statePuts (some state)).count p) (put links key state) +
        (statePuts (links.lookup key)).count p =
      total (fun state => (statePuts (some state)).count p) links +
        (statePuts (some state)).count p := by
  rw [← elim_statePuts, total_put]

lemma held_erase (p : ℕ) : total (fun state => (statePuts (some state)).count p) (links.erase key) +
        (statePuts (links.lookup key)).count p =
      total (fun state => (statePuts (some state)).count p) links := by
  rw [← elim_statePuts, total_erase]

lemma count_cleared (state : LinkState V) (p : ℕ) :
    (statePuts (some state.cleared)).count p +
      (state.taken.flatMap fun c => c.1.puts).count p = (statePuts (some state)).count p := by
  cases state with
  | queued staged => rfl
  | inFlight sent =>
    cases sent <;> simp [LinkState.cleared, LinkState.taken, statePuts, flightOf, pendingOf,
      pendingCompletion, awaitedBy]
  | inFlightRestaged sent staged =>
    cases sent <;> cases hc : staged.completion <;>
      simp [LinkState.cleared, LinkState.taken, statePuts, flightOf, pendingOf,
        pendingCompletion, awaitedBy, hc]

/-- **The completions that `remove_link` takes out are those that the links no longer have.** -/
theorem held_removeLink (record : Option ℕ) (field : FieldName) (current : LinkInstall) (p : ℕ) :
    total (fun state => (statePuts (some state)).count p)
        (removeLink record field current links).1 +
        ((removeLink record field current links).2.flatMap fun c => c.1.puts).count p =
      total (fun state => (statePuts (some state)).count p) links := by
  have hlost := total_mapValues
    (fun state : LinkState V => (statePuts (some state)).count p)
    (fun key state => if removes record field current key then state.cleared else state)
    (fun key state => if removes record field current key then
      (state.taken.flatMap fun c => c.1.puts).count p else 0)
    (fun key state => by split_ifs with hr; exacts [count_cleared state p, Nat.add_zero _]) links
  have hcount : ((removeLink record field current links).2.flatMap fun c => c.1.puts).count p =
      (links.entries.map fun e => if removes record field current e.1 then
        (e.2.taken.flatMap fun c => c.1.puts).count p else 0).sum := by
    rw [removeLink, flatMap_assoc, count_flatMap]
    congr 1
    refine map_congr_left fun e _ => ?_
    simp only [Function.comp_apply]
    split_ifs <;> rfl
  rw [hcount]
  exact hlost

lemma flatMap_wire (sent : Option PutCompletion) (cause : Cause) :
    ((sent.toList.map fun c => (c, cause)).flatMap fun c => c.1.puts) = awaitedBy sent := by
  cases sent with
  | none => rfl
  | some c => exact append_nil _

lemma flatMap_eraseIdx {n c} (hc : inHand[n]? = some c) :
    (inHand.flatMap fun c => c.1.puts).Perm
      (c.1.puts ++ (inHand.eraseIdx n).flatMap fun c => c.1.puts) := by
  obtain ⟨hn, rfl⟩ := List.getElem?_eq_some_iff.1 hc
  exact ((List.getElem_cons_eraseIdx_perm hn).flatMap_right _).symm

lemma Move.balanced (h : Move a w w') (hw : w.Balanced) : w'.Balanced := by
  cases h with
  | stage key value waiter staged hstaged =>
    have hputs := puts_staged w.staged.length value waiter
    rw [← hstaged] at hputs
    have hfresh : ∀ p ∈ staged.puts, p = w.staged.length := by
      intro p hp
      rcases hputs with hnil | hone
      · rw [hnil] at hp
        cases hp
      · rw [hone] at hp
        exact mem_singleton.1 hp
    refine ⟨nodup_append.2 ⟨hw.nodup, ?_, ?_⟩, ?_, fun p => ?_⟩
    · rcases hputs with hnil | hone
      · exact hnil ▸ nodup_nil
      · exact hone ▸ nodup_singleton _
    · rintro p hp q hq rfl
      exact absurd (hw.lt p hp) (by rw [hfresh p hq]; exact Nat.lt_irrefl _)
    · intro p hp
      rw [length_append, length_singleton]
      rcases mem_append.1 hp with hold | hnew
      · exact Nat.lt_succ_of_lt (hw.lt p hold)
      · exact hfresh p hnew ▸ Nat.lt_succ_self _
    · have hlinks := held_put w.inner.links key (stageOn (w.state key) staged) p
      have hold : (statePuts (w.inner.links.lookup key)).count p = _ := count_append
      rw [statePuts_stageOn, count_append] at hlinks
      have hbalance := hw.balance p
      simp only [held, resolutions, inHandPuts, map_append,
        put_resolveAll, count_append, state] at hlinks hbalance ⊢
      omega
  | discard key ready staged hready hstate hremoved =>
    refine ⟨hw.nodup, hw.lt, fun p => ?_⟩
    have hlinks := held_erase w.inner.links key p
    have hold : statePuts (w.inner.links.lookup key) = awaitedBy staged.completion := by
      rw [show w.inner.links.lookup key = some (.queued staged) from hstate]
      rfl
    have hbalance := hw.balance p
    simp only [held, resolutions, inHandPuts, map_append,
      StagedPut.removed, put_resolveAll, count_append, hold] at hlinks hbalance ⊢
    omega
  | handOut key ready staged hready hstate =>
    refine ⟨hw.nodup, hw.lt, fun p => ?_⟩
    have hlinks := held_put w.inner.links key (.inFlight staged.completion) p
    have hsame : statePuts (w.inner.links.lookup key) =
        statePuts (some (.inFlight staged.completion : LinkState V)) := by
      rw [show w.inner.links.lookup key = some (.queued staged) from hstate]
      exact (append_nil _).symm
    have hbalance := hw.balance p
    rw [hsame] at hlinks
    simp only [held, resolutions, inHandPuts] at hlinks hbalance ⊢
    omega
  | finishEnds key written sent hflight hend =>
    refine ⟨hw.nodup, hw.lt, fun p => ?_⟩
    have hlinks := held_erase w.inner.links key p
    have hold : statePuts (w.inner.links.lookup key) =
        awaitedBy sent ++ awaitedBy (pendingCompletion (w.state key)) := by
      rw [statePuts, show flightOf (w.inner.links.lookup key) = some sent from hflight]
      rfl
    have hbalance := hw.balance p
    simp only [held, resolutions, inHandPuts, map_append,
      put_resolveAll, count_append, hold, flatMap_append, flatMap_wire] at hlinks hbalance ⊢
    omega
  | finishRequeues key written sent staged hstate =>
    refine ⟨hw.nodup, hw.lt, fun p => ?_⟩
    have hlinks := held_put w.inner.links key (.queued staged) p
    have hold : statePuts (w.inner.links.lookup key) =
        awaitedBy sent ++ statePuts (some (.queued staged)) := by
      rw [show w.inner.links.lookup key = some (.inFlightRestaged sent staged) from hstate]
      rfl
    have hbalance := hw.balance p
    simp only [held, resolutions, inHandPuts, count_append, hold,
      flatMap_append, flatMap_wire] at hlinks hbalance ⊢
    omega
  | remove record field current =>
    refine ⟨hw.nodup, hw.lt, fun p => ?_⟩
    have hlinks := held_removeLink w.inner.links record field current p
    have hbalance := hw.balance p
    simp only [World.held, World.resolutions, World.inHandPuts, World.removeLink,
      flatMap_append, count_append] at hlinks hbalance ⊢
    omega
  | dropParse parse => exact ⟨hw.nodup, hw.lt, hw.balance⟩
  | settle n c hc =>
    refine ⟨hw.nodup, hw.lt, fun p => ?_⟩
    have hbalance := hw.balance p
    have htaken := (flatMap_eraseIdx hc).count_eq p
    simp only [held, resolutions, inHandPuts, map_append,
      count_append, PutCompletion.put_resolve] at hbalance htaken ⊢
    omega

/-! ### Whose result a waiter gets -/

def World.Handed (w : World V) (p : ℕ) : Prop := ∃ key value, (key, p, value) ∈ w.handed

/-- **Only the puts whose value was handed out get the result of a write.** -/
structure World.Attributed (w : World V) : Prop where
  pending : ∀ key staged, pendingOf (w.state key) = some staged → ∀ p ∈ staged.puts, p = staged.put
  flight : ∀ key sent, flightOf (w.state key) = some sent → ∀ p ∈ awaitedBy sent, w.Handed p
  inHand : ∀ c ∈ w.inHand, ∀ written, c.2 = .wire written → ∀ p ∈ c.1.puts, w.Handed p
  resolved : ∀ r ∈ w.resolved, ∀ written, r.cause = .wire written → w.Handed r.put

lemma attributed_resolveAll {resolved} {P : ℕ → Prop}
    (h : ∀ r ∈ resolved, ∀ written, r.cause = .wire written → P r.put)
    (completion : Option PutCompletion) {cause} (hcause : ∀ written, cause ≠ .wire written) :
    ∀ r ∈ resolved ++ resolveAll completion cause, ∀ written, r.cause = .wire written → P r.put := by
  intro r hr written hwire
  rcases mem_append.1 hr with hold | hnew
  · exact h r hold written hwire
  · cases completion with
    | none => cases hnew
    | some c => exact absurd ((PutCompletion.cause_resolve hnew).symm.trans hwire) (hcause written)

/-- What `remove_link` leaves of a link was there. -/
lemma flightOf_of_cleared {state : Option (LinkState V)} {b : Bool} {sent}
    (h : flightOf (state.map fun s => if b then s.cleared else s) = some sent) :
    sent = none ∨ flightOf state = some sent := by
  cases b
  · right
    rcases state with _ | (_ | _ | _) <;> exact h
  · rcases state with _ | (_ | _ | _)
    · cases h
    · cases h
    · exact Or.inl (some.inj h).symm
    · exact Or.inl (some.inj h).symm

lemma pendingOf_of_cleared {state} {b : Bool} {staged : StagedPut V}
    (h : pendingOf (state.map fun s => if b then s.cleared else s) = some staged) :
    pendingOf state = some staged := by
  cases b
  · rcases state with _ | (_ | _ | _) <;> exact h
  · rcases state with _ | (_ | _ | _)
    · cases h
    · exact h
    · cases h
    · cases h

/-- The completions that `remove_link` takes out do not get the result of a write. -/
lemma not_wire_of_mem_taken {state : LinkState V} {c} (hc : c ∈ state.taken) (written : Written)
    : c.2 ≠ .wire written := by
  cases state with
  | queued staged => cases hc
  | inFlight sent =>
    obtain ⟨_, _, rfl⟩ := mem_map.1 hc
    exact Cause.noConfusion
  | inFlightRestaged sent staged =>
    rcases mem_append.1 hc with hsent | hbehind
    · obtain ⟨_, _, rfl⟩ := mem_map.1 hsent
      exact Cause.noConfusion
    · obtain ⟨_, _, rfl⟩ := mem_map.1 hbehind
      exact Cause.noConfusion

lemma inHand_wire {P : ℕ → Prop}
    (h : ∀ c ∈ inHand, ∀ written, c.2 = .wire written → ∀ p ∈ c.1.puts, P p) {sent}
    (hsent : ∀ p ∈ awaitedBy sent, P p) (cause : Cause) :
    ∀ c ∈ inHand ++ sent.toList.map fun c => (c, cause), ∀ written, c.2 = .wire written →
      ∀ p ∈ c.1.puts, P p := by
  intro c hc written hwire p hp
  rcases mem_append.1 hc with hold | hnew
  · exact h c hold written hwire p hp
  · obtain ⟨c, hmem, rfl⟩ := mem_map.1 hnew
    obtain rfl := mem_toList.1 hmem
    exact hsent p hp

lemma World.Attributed.setState {key state} (hw : w.Attributed)
    (hstate : ∀ key', w'.state key' = if key' = key then state else w.state key')
    (hpending : ∀ staged, pendingOf state = some staged → ∀ p ∈ staged.puts, p = staged.put)
    (hflight : ∀ sent, flightOf state = some sent → ∀ p ∈ awaitedBy sent, w'.Handed p)
    (hhanded : ∀ p, w.Handed p → w'.Handed p)
    (hinHand : ∀ c ∈ w'.inHand, ∀ written, c.2 = .wire written → ∀ p ∈ c.1.puts, w'.Handed p)
    (hresolved : ∀ r ∈ w'.resolved, ∀ written, r.cause = .wire written → w'.Handed r.put) :
    w'.Attributed := by
  refine ⟨fun key' staged h => ?_, fun key' sent h => ?_, hinHand, hresolved⟩
  · rw [hstate] at h
    split_ifs at h
    · exact hpending staged h
    · exact hw.pending key' staged h
  · rw [hstate] at h
    split_ifs at h
    · exact hflight sent h
    · exact fun p hp => hhanded p (hw.flight key' sent h p hp)

lemma Move.attributed (h : Move a w w') (hw : w.Attributed) : w'.Attributed := by
  cases h with
  | stage key value waiter staged hstaged =>
    refine hw.setState (lookup_put _ _ _) ?_ ?_ (fun _ hp => hp) hw.inHand
      (attributed_resolveAll hw.resolved _ fun _ => Cause.noConfusion)
    · rw [pendingOf_stageOn]
      rintro _ ⟨⟩ p hp
      subst hstaged
      cases waiter with
      | none => cases hp
      | notify => exact mem_singleton.1 hp
      | record band => exact mem_singleton.1 hp
    · rw [flightOf_stageOn]
      exact hw.flight key
  | discard key ready staged hready hstate hremoved =>
    exact hw.setState (lookup_erase _ _) nofun nofun (fun _ hp => hp) hw.inHand
      (attributed_resolveAll hw.resolved _ fun _ => Cause.noConfusion)
  | handOut key ready staged hready hstate =>
    have hgrow : ∀ p, w.Handed p → ∃ key' value,
        (key', p, value) ∈ w.handed ++ [(key, staged.put, staged.value)] :=
      fun p ⟨key', value, hmem⟩ => ⟨key', value, mem_append_left _ hmem⟩
    refine hw.setState (lookup_put _ _ _) nofun ?_ hgrow
      (fun c hc written hwire p hp => hgrow p (hw.inHand c hc written hwire p hp))
      (fun r hr written hwire => hgrow _ (hw.resolved r hr written hwire))
    rintro _ ⟨⟩ p hp
    obtain rfl := hw.pending key staged (by rw [hstate]; rfl) p hp
    exact ⟨key, staged.value, mem_append_right _ (mem_singleton_self _)⟩
  | finishEnds key written sent hflight hend =>
    exact hw.setState (lookup_erase _ _) nofun nofun (fun _ hp => hp)
      (inHand_wire hw.inHand (hw.flight key sent hflight) _)
      (attributed_resolveAll hw.resolved _ fun _ => Cause.noConfusion)
  | finishRequeues key written sent staged hstate =>
    refine hw.setState (lookup_put _ _ _) ?_ nofun (fun _ hp => hp)
      (inHand_wire hw.inHand (hw.flight key sent (by rw [hstate]; rfl)) _) hw.resolved
    rintro _ ⟨⟩
    exact hw.pending key staged (by rw [hstate]; rfl)
  | remove record field current =>
    refine ⟨fun key staged hpending => ?_, fun key sent hflight => ?_, fun c hc written hwire => ?_,
      hw.resolved⟩
    · rw [state_removeLink] at hpending
      exact hw.pending key staged (pendingOf_of_cleared hpending)
    · rw [state_removeLink] at hflight
      rcases flightOf_of_cleared hflight with rfl | hold
      · exact nofun
      · exact hw.flight key sent hold
    · rcases mem_append.1 hc with hold | hnew
      · exact hw.inHand c hold written hwire
      · obtain ⟨e, _, he⟩ := mem_flatMap.1 hnew
        split_ifs at he
        · exact absurd hwire (not_wire_of_mem_taken he written)
        · cases he
  | dropParse parse => exact ⟨hw.pending, hw.flight, hw.inHand, hw.resolved⟩
  | settle n c hc =>
    refine ⟨hw.pending, hw.flight, fun c' hc' => hw.inHand c' (mem_of_mem_eraseIdx hc'),
      fun r hr written hwire => ?_⟩
    rcases mem_append.1 hr with hold | hnew
    · exact hw.resolved r hold written hwire
    · have hput : r.put ∈ c.1.puts := by
        rw [← c.1.put_resolve c.2]
        exact mem_map_of_mem hnew
      exact hw.inHand c (mem_of_getElem? hc) written
        ((PutCompletion.cause_resolve hnew).symm.trans hwire) _ hput

/-! ### Runs -/

structure World.Sound (w : World V) : Prop where
  deque : w.Deque
  outgoing : w.Outgoing
  history : w.History
  balanced : w.Balanced
  attributed : w.Attributed

lemma World.sound_start : (start : World V).Sound where
  deque := ⟨nodup_nil, fun _ => ⟨nofun, nofun⟩⟩
  outgoing := ⟨nodup_nil, fun _ => ⟨nofun, nofun⟩⟩
  history := fun _ => Sublist.refl _
  balanced := ⟨nodup_nil, nofun, fun _ => rfl⟩
  attributed := ⟨nofun, nofun, nofun, nofun⟩

lemma Move.sound (h : Move a w w') (hw : w.Sound) : w'.Sound :=
  ⟨h.deque hw.deque, h.outgoing hw.outgoing, h.history hw.history, h.balanced hw.balanced,
    h.attributed hw.attributed⟩

lemma World.Sound.step (hw : w.Sound) (h : w.step a = some w') : w'.Sound := by
  have hmoves := Move.of_step hw.deque hw.outgoing h
  clear h
  induction hmoves with
  | refl => exact hw
  | tail _ hmove ih => exact hmove.sound ih

lemma World.UpToDate.step {key} (hsound : w.Sound) (hw : w.UpToDate key) (ha : ¬ a.Removes key)
    (h : w.step a = some w') : w'.UpToDate key := by
  have hmoves := Move.of_step hsound.deque hsound.outgoing h
  clear h
  induction hmoves with
  | refl => exact hw
  | tail _ hmove ih => exact hmove.upToDate ha ih

theorem World.sound_of_run {as} (h : StepRuns.run step as .start = some w) :
    w.Sound :=
  StepRuns.run_invariant (fun _ _ _ hw _ hstep => hw.step hstep) as _ _ sound_start
    (StepRuns.along_true as _) h

lemma World.upToDate_of_run {as key} (hkept : ∀ a ∈ as, ¬ a.Removes key)
    (h : StepRuns.run step as .start = some w) :
    w.UpToDate key := by
  refine (StepRuns.run_invariant (I := fun w : World V => w.Sound ∧ w.UpToDate key)
    (fun w a w' hw ha hstep => ⟨hw.1.step hstep, UpToDate.step hw.1 hw.2 ha hstep⟩) as _ _
    ⟨sound_start, ?_⟩ (StepRuns.along_of_forall hkept _) h).2
  refine ⟨?_, rfl⟩
  cases key.link.install <;> rfl

/-- The owner has nothing left to take, and no write is out. -/
def World.Drained (w : World V) : Prop := w.inner.ready = [] ∧ w.out = []

lemma World.Sound.state_eq_none (hw : w.Sound) (hdrained : w.Drained) (key : LinkKey) :
    w.state key = none := by
  have hqueued : isQueued (w.state key) ≠ true := fun h => by
    have hmem := (hw.deque.2 key).2 h
    rw [hdrained.1] at hmem
    cases hmem
  have hflight : ¬ (flightOf (w.state key)).isSome = true := fun h => by
    have hmem := (hw.outgoing.2 key).2 h
    rw [hdrained.2] at hmem
    cases hmem
  rcases hstate : w.state key with _ | (_ | _ | _)
  all_goals rw [hstate] at hqueued hflight
  · exact absurd rfl hqueued
  · exact absurd rfl hflight
  · exact absurd rfl hflight

lemma World.Sound.held_eq_zero (hw : w.Sound) (hdrained : w.Drained) (p : ℕ) : w.held p = 0 := by
  have hempty : w.inner.links.entries = [] := by
    rw [eq_nil_iff_forall_not_mem]
    intro e he
    have hlookup : w.inner.links.lookup e.1 = some e.2 := AList.mem_lookup_iff.2 he
    cases hlookup.symm.trans (hw.state_eq_none hdrained e.1)
  rw [held, total, hempty]
  rfl

/-- **The four laws of the queue, after any run.**  A link is in the deque, once, exactly if it is
queued.  A link has at most one write out.  What was handed out on a link is part of what was staged
on it, in order, and the last of it when the queue has been drained and the link was not removed.  The
completion of a put is resolved at most once, and once when everything has come to rest; with the
result of a write only if the value of the put was handed out. -/
theorem put_queue_correct (as : List (Action V)) (w : World V)
    (hrun : StepRuns.run World.step as .start = some w) :
    (w.inner.ready.Nodup ∧
      ∀ key, key ∈ w.inner.ready ↔ ∃ staged, w.state key = some (.queued staged)) ∧
    w.out.Nodup ∧
    (∀ key, (onKey key w.handed).Sublist (onKey key w.staged) ∧
      (w.Drained → (∀ a ∈ as, ¬ a.Removes key) →
        (onKey key w.handed).getLast? = (onKey key w.staged).getLast?)) ∧
    (∀ p ∈ w.awaited, w.resolutions p ≤ 1 ∧
      (w.Drained → w.inHand = [] → w.resolutions p = 1)) ∧
    ∀ r ∈ w.resolved, ∀ written, r.cause = .wire written →
      ∃ key value, (key, r.put, value) ∈ w.handed := by
  have hw := sound_of_run hrun
  refine ⟨⟨hw.deque.1, fun key => (hw.deque.2 key).trans isQueued_iff⟩, hw.outgoing.1,
    fun key => ⟨hw.history.handed key, fun hdrained hkept => ?_⟩,
    fun p hp => ⟨?_, fun hdrained hrest => ?_⟩, hw.attributed.resolved⟩
  · have hlast := (upToDate_of_run hkept hrun).2
    rw [hw.state_eq_none hdrained] at hlast
    exact (append_nil (onKey key w.handed)) ▸ hlast
  · have hbalance := hw.balanced.balance p
    rw [count_eq_one_of_mem hw.balanced.nodup hp] at hbalance
    omega
  · have hbalance := hw.balanced.balance p
    rw [count_eq_one_of_mem hw.balanced.nodup hp, hw.held_eq_zero hdrained,
      inHandPuts, hrest] at hbalance
    simpa using hbalance

/-- A link of the field `OUT` of a record. -/
def outLink : LinkKey := ⟨⟨some 0, [79, 85, 84], .installed 0⟩, ⟨0⟩⟩

def restagedRun : List (Action ℕ) :=
  let written : Written := ⟨false, .ok (), false⟩
  [.stagePut outLink 10 .notify, .takeReady, .stagePut outLink 20 (.record .low),
    .finish outLink written, .settle 0, .takeReady, .finish outLink written, .settle 0]

theorem put_queue_correct_restaged : ∃ w, StepRuns.run World.step restagedRun .start = some w ∧
    w.Drained ∧ w.inHand = [] ∧ onKey outLink w.handed = [(0, 10), (1, 20)] ∧
    (onKey outLink w.handed).getLast? = (onKey outLink w.staged).getLast? ∧
    ∀ p ∈ w.awaited, w.resolutions p = 1 := by
  refine ⟨_, rfl, ⟨rfl, rfl⟩, rfl, rfl, ?_, fun p hp => ?_⟩
  · exact ((put_queue_correct restagedRun _ rfl).2.2.1 outLink).2 ⟨rfl, rfl⟩
      (by simp [restagedRun, Action.Removes])
  · exact ((put_queue_correct restagedRun _ rfl).2.2.2.1 p hp).2 ⟨rfl, rfl⟩ rfl

end LinkPut
