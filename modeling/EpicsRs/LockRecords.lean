/-
**When `lock_records` returns.**

`lock_records` looks up the cell of each name once, and then takes the sets of these cells until
they are those of the names.  A name that is removed in the meantime has no set, and one that is
registered in the meantime may have another cell.  Runs have no end here; threads are fair, and a
set that is waited for is free again and again.

Main result: `RecordLock.lock_records_returns_iff`.
-/

import EpicsRs.LockHeld

set_option autoImplicit false

namespace RecordLock

open Registry Function List World

variable {ν : Type} [LinearOrder ν]

/-! ### A call -/

inductive InCall (names : List ν) : Task ν → Prop
  | cells (todo : List ν) (cells : List ℕ) : InCall names (.lockCells names todo cells)
  | loop (cells : List ℕ) : InCall names (.lockLoop names cells)
  | hold (cells sets todo : List ℕ) : InCall names (.lockHold names cells sets todo)

/-- A call has one cell and one set for each name, and has taken the sets or will take them. -/
def LockInv (th : Thread ν) : Prop :=
  match th.task with
  | .lockCells names todo cells => th.taken = [] ∧ cells.length + todo.length = names.length
  | .lockLoop names cells => th.taken = [] ∧ cells.length = names.length
  | .lockHold names cells sets todo =>
      cells.length = names.length ∧ sets.length = names.length ∧
        ∀ id, id ∈ sets ↔ id ∈ th.taken ∨ id ∈ todo
  | .locked names sets => sets.length = names.length ∧ ∀ id, id ∈ sets ↔ id ∈ th.taken
  | _ => True

variable {r r' : Registry ν} {th th' : Thread ν}

lemma Act.lockInv {free : ℕ → Prop} {db db'} (h : Act free db r th db' r' th') (hinv : LockInv th)
    : LockInv th' := by
  cases h with
  | lockCall names => exact ⟨rfl, Nat.zero_add _⟩
  | lockCell =>
    refine ⟨rfl, ?_⟩
    have hlen := hinv.2
    rw [length_cons] at hlen
    rw [length_append, length_singleton]
    omega
  | lockStart => exact ⟨rfl, hinv.2⟩
  | lockRead =>
    refine ⟨hinv.2, (length_map _).trans hinv.2, fun id => ?_⟩
    rw [mem_holdOrder]
    exact ⟨Or.inr, fun h => h.resolve_left not_mem_nil⟩
  | lockTake _ =>
    obtain ⟨hcells, hsets, hmem⟩ := hinv
    refine ⟨hcells, hsets, fun id => ?_⟩
    rw [hmem, mem_cons, mem_cons]
    tauto
  | lockRetry _ => exact ⟨rfl, hinv.1⟩
  | lockReturn _ =>
    refine ⟨hinv.2.1, fun id => (hinv.2.2 id).trans ⟨fun h => ?_, Or.inl⟩⟩
    exact h.resolve_right not_mem_nil
  | _ => trivial

lemma Reaches.lockInv {P : World ν → ℕ → Prop} {w} (h : Reaches P w) (t : ℕ) :
    LockInv (w.threads t) := by
  induction h with
  | start _ _ _ => trivial
  | @step w w' u _ _ hstep ih =>
    obtain ⟨hact⟩ := hstep
    by_cases ht : t = u
    · subst ht
      simp only [update_self]
      exact hact.lockInv ih
    · simp only [update_of_ne ht]
      exact ih

lemma Step.of_act {w t db' r'} (hth : w.threads t = th)
    (hact : Act (w.Free t) w.db w.reg th db' r' th') :
    Step t w ⟨db', r', update w.threads t th'⟩ :=
  .mk (hth ▸ hact)

variable {names : List ν}

lemma InCall.waits {th} (h : InCall names th.task) (hinv : LockInv th) (t : ℕ) :
    ∃ id, ∀ w : World ν, w.threads t = th → w.Free t id → ∃ w', Step t w w' := by
  obtain ⟨task, own, taken⟩ := th
  cases h with
  | cells todo cells =>
    obtain rfl : taken = [] := hinv.1
    refine ⟨0, fun w hw _ => ?_⟩
    cases todo with
    | nil => exact ⟨_, .of_act hw .lockStart⟩
    | cons name todo => exact ⟨_, .of_act hw .lockCell⟩
  | loop cells =>
    obtain rfl : taken = [] := hinv.1
    exact ⟨0, fun w hw _ => ⟨_, .of_act hw .lockRead⟩⟩
  | hold cells sets todo =>
    cases todo with
    | nil =>
      refine ⟨0, fun w hw _ => ?_⟩
      by_cases hmatch : Matches w.reg names sets
      · exact ⟨_, .of_act hw (.lockReturn hmatch)⟩
      · exact ⟨_, .of_act hw (.lockRetry hmatch)⟩
    | cons id todo => exact ⟨id, fun w hw hfree => ⟨_, .of_act hw (.lockTake hfree)⟩⟩

section Inversion

variable {free : ℕ → Prop} {db db' : Database ν} {r r' : Registry ν} {th' : Thread ν}
  {names : List ν} {cells sets own taken : List ℕ}

lemma Act.of_lockCells_cons {name todo}
    (h : Act free db r ⟨.lockCells names (name :: todo) cells, own, taken⟩ db' r' th') :
    r' = (r.ensureSet name).1 ∧
      th' = ⟨.lockCells names todo (cells ++ [(r.ensureSet name).2]), own, []⟩ := by
  cases h
  exact ⟨rfl, rfl⟩

lemma Act.of_lockCells_nil
    (h : Act free db r ⟨.lockCells names [] cells, own, taken⟩ db' r' th') :
    th' = ⟨.lockLoop names cells, own, []⟩ := by
  cases h
  rfl

lemma Act.of_lockLoop (h : Act free db r ⟨.lockLoop names cells, own, taken⟩ db' r' th') :
    r' = r ∧
      th' = ⟨.lockHold names cells (cells.map r.cells) (holdOrder (cells.map r.cells)), own, []⟩ := by
  cases h
  exact ⟨rfl, rfl⟩

lemma Act.of_lockHold_cons {id todo}
    (h : Act free db r ⟨.lockHold names cells sets (id :: todo), own, taken⟩ db' r' th') :
    r' = r ∧ th' = ⟨.lockHold names cells sets todo, own, id :: taken⟩ := by
  cases h
  exact ⟨rfl, rfl⟩

lemma Act.of_lockHold_nil
    (h : Act free db r ⟨.lockHold names cells sets [], own, taken⟩ db' r' th') :
    r' = r ∧ (Matches r names sets ∧ th' = ⟨.locked names sets, own, taken⟩ ∨
      ¬ Matches r names sets ∧ th' = ⟨.lockLoop names cells, own, []⟩) := by
  cases h with
  | lockRetry hne => exact ⟨rfl, Or.inr ⟨hne, rfl⟩⟩
  | lockReturn hmatch => exact ⟨rfl, Or.inl ⟨hmatch, rfl⟩⟩

lemma Act.inCall {th} (h : Act free db r th db' r' th') (hcall : InCall names th.task) :
    InCall names th'.task ∨ ∃ sets, th'.task = .locked names sets ∧ Matches r' names sets := by
  obtain ⟨task, own, taken⟩ := th
  cases hcall with
  | cells todo cells =>
    cases todo with
    | nil =>
      rw [h.of_lockCells_nil]
      exact Or.inl (.loop cells)
    | cons name todo =>
      rw [h.of_lockCells_cons.2]
      exact Or.inl (.cells todo _)
  | loop cells =>
    rw [h.of_lockLoop.2]
    exact Or.inl (.hold cells _ _)
  | hold cells sets todo =>
    cases todo with
    | nil =>
      obtain ⟨rfl, ⟨hmatch, rfl⟩ | ⟨-, rfl⟩⟩ := h.of_lockHold_nil
      · exact Or.inr ⟨sets, rfl, hmatch⟩
      · exact Or.inl (.loop cells)
    | cons id todo =>
      rw [h.of_lockHold_cons.2]
      exact Or.inl (.hold cells sets todo)

end Inversion

lemma Step.act {w w' : World ν} {t} (h : Step t w w') :
    Act (w.Free t) w.db w.reg (w.threads t) w'.db w'.reg (w'.threads t) := by
  obtain ⟨hact⟩ := h
  simp only [update_self]
  exact hact

/-! ### Runs without end -/

/-- A run without end, from a reachable world.  In each moment one thread takes a step, or none does. -/
structure Run (ν : Type) [LinearOrder ν] where
  world : ℕ → World ν
  acting : ℕ → Option ℕ
  start : Reaches (fun _ _ => True) (world 0)
  step : ∀ n t, acting n = some t → Step t (world n) (world (n + 1))
  pause : ∀ n, acting n = none → world (n + 1) = world n

namespace Run

variable (run : Run ν) (t : ℕ)

def thread (n : ℕ) : Thread ν := (run.world n).threads t

/-- A thread that is in an operation, and can act again and again, does act. -/
def Fair : Prop :=
  ∀ n, (∀ m, n ≤ m → (run.thread t m).task ≠ .idle) →
    (∀ m, n ≤ m → ∃ k, m ≤ k ∧ ∃ w, Step t (run.world k) w) → ∃ m, n ≤ m ∧ run.acting m = some t

/-- Who else holds a set releases it, again and again. -/
def Released : Prop := ∀ id n, ∃ m, n ≤ m ∧ (run.world m).Free t id

def Stable (n : ℕ) : Prop := ∀ m, n ≤ m → (run.world m).reg = (run.world n).reg

structure Calls (names : List ν) (n m : ℕ) : Prop where
  le : n ≤ m
  inCall : ∀ k, n ≤ k → k ≤ m → InCall names (run.thread t k).task

/-- The call returns, with the sets that its names have then, and no others. -/
def Returns (names : List ν) (n : ℕ) : Prop :=
  ∃ m sets own taken, run.Calls t names n m ∧
    run.thread t (m + 1) = ⟨.locked names sets, own, taken⟩ ∧ sets.length = names.length ∧
    Matches (run.world (m + 1)).reg names sets ∧ ∀ id, id ∈ sets ↔ id ∈ taken

variable {run} {t} {names : List ν} {cells sets : List ℕ} {own taken : List ℕ} {n m : ℕ}

lemma reaches : ∀ n, Reaches (fun _ _ => True) (run.world n)
  | 0 => run.start
  | n + 1 => by
      cases hact : run.acting n with
      | none =>
          rw [run.pause n hact]
          exact reaches n
      | some u => exact .step (reaches n) trivial (run.step n u hact)

lemma lockInv (run : Run ν) (t n : ℕ) : LockInv (run.thread t n) := (reaches n).lockInv t

lemma thread_succ (h : run.acting n ≠ some t) : run.thread t (n + 1) = run.thread t n := by
  unfold thread
  cases hact : run.acting n with
  | none => rw [run.pause n hact]
  | some u =>
    have hne : t ≠ u := by
      rintro rfl
      exact h hact
    have hstep := run.step n u hact
    generalize run.world (n + 1) = w' at hstep
    obtain ⟨-⟩ := hstep
    exact update_of_ne hne _ _

lemma thread_eq (hidle : ∀ k, n ≤ k → k < m → run.acting k ≠ some t) :
    ∀ k, n ≤ k → k ≤ m → run.thread t k = run.thread t n := by
  intro k hk
  induction k, hk using Nat.le_induction with
  | base => exact fun _ => rfl
  | succ k hk ih =>
    intro hkm
    rw [thread_succ (hidle k hk hkm)]
    exact ih (Nat.le_of_succ_le hkm)

lemma acts (hfair : run.Fair t) (hreleased : run.Released t)
    (hcall : InCall names (run.thread t n).task) : ∃ m, n ≤ m ∧ run.acting m = some t := by
  by_contra hnever
  have hsame : ∀ k, n ≤ k → run.thread t k = run.thread t n := fun k hk =>
    thread_eq (m := k) (fun j hj _ hact => hnever ⟨j, hj, hact⟩) k hk (Nat.le_refl k)
  refine hnever (hfair n (fun k hk => ?_) fun k hk => ?_)
  · rw [hsame k hk]
    intro hidle
    rw [hidle] at hcall
    cases hcall
  · -- the set that the thread waits for is free again
    obtain ⟨id, hid⟩ := hcall.waits (run.lockInv t n) t
    obtain ⟨j, hj, hfree⟩ := hreleased id k
    exact ⟨j, hj, hid _ (hsame j (hk.trans hj)) hfree⟩

/-- **A thread in a call takes its next step**, from the place where it is. -/
theorem next (hfair : run.Fair t) (hreleased : run.Released t)
    (hcall : InCall names (run.thread t n).task) :
    ∃ m, run.Calls t names n m ∧
      Act ((run.world m).Free t) (run.world m).db (run.world m).reg (run.thread t n)
        (run.world (m + 1)).db (run.world (m + 1)).reg (run.thread t (m + 1)) := by
  classical
  have hacts := acts hfair hreleased hcall
  obtain ⟨hle, hact⟩ := Nat.find_spec hacts
  have hsame := thread_eq (m := Nat.find hacts) fun k hk hlt hk' =>
    Nat.find_min hacts hlt ⟨hk, hk'⟩
  refine ⟨Nat.find hacts, ⟨hle, fun k hk hkm => ?_⟩, ?_⟩
  · rw [hsame k hk hkm]
    exact hcall
  · rw [← hsame _ hle (Nat.le_refl _)]
    exact (run.step _ t hact).act

lemma Calls.trans {k} (h : run.Calls t names n m) (h' : run.Calls t names m k) :
    run.Calls t names n k := by
  refine ⟨h.le.trans h'.le, fun j hj hjk => ?_⟩
  rcases Nat.le_total j m with hjm | hjm
  · exact h.inCall j hj hjm
  · exact h'.inCall j hjm hjk

lemma Calls.succ (h : run.Calls t names n m) (hcall : InCall names (run.thread t (m + 1)).task) :
    run.Calls t names n (m + 1) := by
  refine ⟨Nat.le_succ_of_le h.le, fun j hj hjm => ?_⟩
  rcases Nat.le_succ_iff.1 hjm with hle | rfl
  · exact h.inCall j hj hle
  · exact hcall

lemma Calls.returns_or (h : run.Calls t names n m) :
    run.Returns t names n ∨ run.Calls t names n (m + 1) := by
  have hcall := h.inCall m h.le (Nat.le_refl m)
  by_cases hact : run.acting m = some t
  · rcases (run.step m t hact).act.inCall hcall with hin | ⟨sets, htask, hmatch⟩
    · exact Or.inr (h.succ hin)
    · have hinv := run.lockInv t (m + 1)
      unfold LockInv at hinv
      rw [show (run.thread t (m + 1)).task = .locked names sets from htask] at hinv
      exact Or.inl ⟨m, sets, (run.thread t (m + 1)).own, (run.thread t (m + 1)).taken, h,
        by rw [← htask]; rfl, hinv.1, hmatch, hinv.2⟩
  · refine Or.inr (h.succ ?_)
    rw [thread_succ hact]
    exact hcall

lemma takes (hfair : run.Fair t) (hreleased : run.Released t) (todo : List ℕ)
    (h : run.thread t n = ⟨.lockHold names cells sets todo, own, taken⟩) :
    ∃ m taken', run.Calls t names n m ∧
      run.thread t m = ⟨.lockHold names cells sets [], own, taken'⟩ := by
  induction todo generalizing n taken with
  | nil =>
    refine ⟨n, taken, ⟨Nat.le_refl n, fun k hk hkn => ?_⟩, h⟩
    rw [Nat.le_antisymm hkn hk, h]
    exact .hold cells sets []
  | cons id todo ih =>
    have hcall : InCall names (run.thread t n).task := by
      rw [h]
      exact .hold cells sets _
    obtain ⟨k, hcalls, hact⟩ := next hfair hreleased hcall
    rw [h] at hact
    have hnext := hact.of_lockHold_cons.2
    obtain ⟨m, taken', hrest, hm⟩ := ih hnext
    refine ⟨m, taken', (hcalls.succ ?_).trans hrest, hm⟩
    rw [hnext]
    exact .hold cells sets todo

lemma resolves (hfair : run.Fair t) (hreleased : run.Released t) (todo : List ν)
    (h : run.thread t n = ⟨.lockCells names todo cells, own, taken⟩) :
    ∃ m cells', run.Calls t names n m ∧ run.thread t m = ⟨.lockLoop names cells', own, []⟩ := by
  induction todo generalizing n cells taken with
  | nil =>
    have hcall : InCall names (run.thread t n).task := by
      rw [h]
      exact .cells [] cells
    obtain ⟨k, hcalls, hact⟩ := next hfair hreleased hcall
    rw [h] at hact
    have hnext := hact.of_lockCells_nil
    refine ⟨k + 1, cells, hcalls.succ ?_, hnext⟩
    rw [hnext]
    exact .loop cells
  | cons name todo ih =>
    have hcall : InCall names (run.thread t n).task := by
      rw [h]
      exact .cells (name :: todo) cells
    obtain ⟨k, hcalls, hact⟩ := next hfair hreleased hcall
    rw [h] at hact
    obtain ⟨-, hnext⟩ := hact.of_lockCells_cons
    obtain ⟨m, cells', hrest, hm⟩ := ih hnext
    refine ⟨m, cells', (hcalls.succ ?_).trans hrest, hm⟩
    rw [hnext]
    exact .cells todo _

lemma loops (hfair : run.Fair t) (hreleased : run.Released t)
    (hcall : InCall names (run.thread t n).task) :
    run.Returns t names n ∨
      ∃ m cells own, run.Calls t names n m ∧ run.thread t m = ⟨.lockLoop names cells, own, []⟩ := by
  obtain ⟨own, taken, hth⟩ : ∃ own taken,
      run.thread t n = ⟨(run.thread t n).task, own, taken⟩ := ⟨_, _, rfl⟩
  generalize (run.thread t n).task = task at hcall hth
  cases hcall with
  | cells todo cells =>
    obtain ⟨m, cells', hcalls, hm⟩ := resolves hfair hreleased todo hth
    exact Or.inr ⟨m, cells', own, hcalls, hm⟩
  | loop cells =>
    have htaken := run.lockInv t n
    rw [hth] at htaken
    refine Or.inr ⟨n, cells, own, ⟨Nat.le_refl n, fun k hk hkn => ?_⟩, ?_⟩
    · rw [Nat.le_antisymm hkn hk, hth]
      exact .loop cells
    · rw [hth, show taken = [] from htaken.1]
  | hold cells sets todo =>
    obtain ⟨k, taken', hcalls, hk⟩ := takes hfair hreleased todo hth
    obtain ⟨m, hwait, hact⟩ := next hfair hreleased (hcalls.inCall k hcalls.le (Nat.le_refl k))
    rcases (hcalls.trans hwait).returns_or with hret | hgoes
    · exact Or.inl hret
    · rw [hk] at hact
      rcases hact.of_lockHold_nil.2 with ⟨-, hlocked⟩ | ⟨-, hloop⟩
      · have hin := hgoes.inCall (m + 1) hgoes.le (Nat.le_refl _)
        rw [hlocked] at hin
        cases hin
      · exact Or.inr ⟨m + 1, cells, own, hgoes, hloop⟩

lemma returns_of_agrees (hfair : run.Fair t) (hreleased : run.Released t)
    (hfinite : ∃ m, run.Stable m) (hcall : InCall names (run.thread t n).task)
    (hagrees : ∀ m cells, run.Calls t names n m → (run.thread t m).task = .lockLoop names cells →
      run.Stable m → Matches (run.world m).reg names (cells.map (run.world m).reg.cells)) :
    run.Returns t names n := by
  by_contra hnot
  have hcalls : ∀ k, n ≤ k → run.Calls t names n k := by
    intro k hk
    induction k, hk using Nat.le_induction with
    | base =>
      refine ⟨Nat.le_refl n, fun j hj hjn => ?_⟩
      rw [Nat.le_antisymm hjn hj]
      exact hcall
    | succ k _ ih => exact ih.returns_or.resolve_left hnot
  have hnone : ∀ k, n ≤ k → ¬ run.Returns t names k := by
    rintro k hk ⟨m, sets, own, taken, hlate, hret⟩
    exact hnot ⟨m, sets, own, taken, (hcalls k hk).trans hlate, hret⟩
  obtain ⟨N, hN⟩ := hfinite
  have hlate := (hcalls (max n N) (Nat.le_max_left n N)).inCall _ (Nat.le_max_left n N) (Nat.le_refl _)
  obtain ⟨m, cells, own, hloop, hm⟩ :=
    (loops hfair hreleased hlate).resolve_left (hnone _ (Nat.le_max_left n N))
  have hNm : N ≤ m := (Nat.le_max_right n N).trans hloop.le
  have hnm : n ≤ m := (Nat.le_max_left n N).trans hloop.le
  have hstable : run.Stable m := fun k hk => (hN k (hNm.trans hk)).trans (hN m hNm).symm
  have hmatch := hagrees m cells (hcalls m hnm) (by rw [hm]) hstable
  -- one turn of the loop: read, take, compare
  obtain ⟨i, hread, hact⟩ := next hfair hreleased (hloop.inCall m hloop.le (Nat.le_refl m))
  rw [hm] at hact
  obtain ⟨-, hi⟩ := hact.of_lockLoop
  rw [hstable i hread.le] at hi
  obtain ⟨j, taken, htakes, hj⟩ := takes hfair hreleased _ hi
  obtain ⟨k, hwait, hact'⟩ := next hfair hreleased (htakes.inCall j htakes.le (Nat.le_refl j))
  have hmi : m ≤ i + 1 := Nat.le_succ_of_le hread.le
  have hk : m ≤ k := (hmi.trans htakes.le).trans hwait.le
  rw [hj, hstable k hk] at hact'
  rcases hact'.of_lockHold_nil.2 with ⟨-, hlocked⟩ | ⟨hne, -⟩
  · have hin := (hcalls (k + 1) (Nat.le_succ_of_le (hnm.trans hk))).inCall (k + 1)
      (Nat.le_succ_of_le (hnm.trans hk)) (Nat.le_refl _)
    rw [hlocked] at hin
    cases hin
  · exact hne hmatch

lemma spins (hstable : run.Stable m) (hm : run.thread t m = ⟨.lockLoop names cells, own, taken⟩)
    (hne : ¬ Matches (run.world m).reg names (cells.map (run.world m).reg.cells)) :
    ∀ k, m ≤ k → InCall names (run.thread t k).task := by
  -- between the turns, or in a turn with the sets of the cells
  have hspin : ∀ k, m ≤ k → (run.thread t k).task = .lockLoop names cells ∨
      ∃ todo, (run.thread t k).task =
        .lockHold names cells (cells.map (run.world m).reg.cells) todo := by
    intro k hk
    induction k, hk using Nat.le_induction with
    | base => exact Or.inl (by rw [hm])
    | succ k hk ih =>
      by_cases hact : run.acting k = some t
      · have hstep := (run.step k t hact).act
        have hth : (run.world k).threads t = ⟨(run.thread t k).task, (run.thread t k).own,
          (run.thread t k).taken⟩ := rfl
        rcases ih with htask | ⟨todo, htask⟩
        · rw [hth, htask] at hstep
          obtain ⟨-, hnext⟩ := hstep.of_lockLoop
          rw [hstable k hk] at hnext
          exact Or.inr ⟨_, congrArg Thread.task hnext⟩
        · rw [hth, htask] at hstep
          cases todo with
          | nil =>
            rw [hstable k hk] at hstep
            rcases hstep.of_lockHold_nil.2 with ⟨hmatch, -⟩ | ⟨-, hnext⟩
            · exact absurd hmatch hne
            · exact Or.inl (congrArg Thread.task hnext)
          | cons id todo => exact Or.inr ⟨todo, congrArg Thread.task hstep.of_lockHold_cons.2⟩
      · rw [thread_succ hact]
        exact ih
  intro k hk
  rcases hspin k hk with htask | ⟨todo, htask⟩
  · rw [htask]
    exact .loop cells
  · rw [htask]
    exact .hold cells _ todo

end Run

omit [LinearOrder ν] in
lemma World.free_solo (db : Database ν) (r : Registry ν) (t : ℕ) (th : Thread ν) (id : ℕ) :
    Free ⟨db, r, update (fun _ => ⟨.idle, [], []⟩) t th⟩ t id :=
  free_of_idle (fun _ hu => by simp only [update_of_ne hu]) id

/-- One thread runs, the others do nothing, and neither the database nor the registry changes. -/
def Run.solo (db : Database ν) (r : Registry ν) (t : ℕ) (th : ℕ → Thread ν)
    (hstart : Reaches (fun _ _ => True) ⟨db, r, Function.update (fun _ => ⟨.idle, [], []⟩) t (th 0)⟩)
    (hact : ∀ n, Act (fun _ => True) db r (th n) db r (th (n + 1))) : Run ν where
  world n := ⟨db, r, Function.update (fun _ => ⟨.idle, [], []⟩) t (th n)⟩
  acting _ := some t
  start := hstart
  step := by
    rintro n u hu
    obtain rfl : t = u := Option.some.inj hu
    have hfree : World.Free ⟨db, r, Function.update (fun _ => ⟨.idle, [], []⟩) t (th n)⟩ t =
        fun _ => True :=
      funext fun id => eq_true (World.free_solo db r t (th n) id)
    have hstep := Step.of_act (w := ⟨db, r, Function.update (fun _ => ⟨.idle, [], []⟩) t (th n)⟩)
      (t := t) (by simp only [Function.update_self]) (hfree ▸ hact n)
    rwa [Function.update_idem] at hstep
  pause := nofun

/-- The steps of a call for record 0 of `linkedPair`, which is in set 2. -/
def lockingThread : ℕ → Thread ℕ
  | 0 => ⟨.lockCells [0] [0] [], [], []⟩
  | 1 => ⟨.lockCells [0] [] [0], [], []⟩
  | 2 => ⟨.lockLoop [0] [0], [], []⟩
  | 3 => ⟨.lockHold [0] [0] [2] [2], [], []⟩
  | 4 => ⟨.lockHold [0] [0] [2] [], [], [2]⟩
  | 5 => ⟨.locked [0] [2], [], [2]⟩
  | _ => ⟨.idle, [], []⟩

lemma lockingThread_act : ∀ n, Act (fun _ => True) linkedPair
    ((load [0, 1, 2]).build linkedPair [0, 1, 2] []) (lockingThread n) linkedPair
    ((load [0, 1, 2]).build linkedPair [0, 1, 2] []) (lockingThread (n + 1))
  | 0 => @Act.lockCell ℕ _ _ _ _ _ _ _ 0 _
  | 1 => .lockStart
  | 2 => .lockRead
  | 3 => .lockTake trivial
  | 4 => .lockReturn (by
      intro p hp
      obtain rfl : p = (0, 2) := mem_singleton.1 hp
      rfl)
  | 5 => .unlock
  | _ + 6 => .drop 0

lemma lockingThread_start : Reaches (fun _ _ => True) ⟨linkedPair,
    (load [0, 1, 2]).build linkedPair [0, 1, 2] [],
    update (fun _ => ⟨.idle, [], []⟩) 1 (lockingThread 0)⟩ := by
  have hnames : ∀ x, x ∈ [0, 1, 2] ↔ x ∈ linkedPair.records := by simp [linkedPair]
  have hstart : Reaches (fun _ _ => True) ⟨linkedPair, (load [0, 1, 2]).build linkedPair [0, 1, 2] [],
      fun _ => ⟨.idle, [], []⟩⟩ := .start hnames hnames (by simp)
  exact hstart.act 1 _ trivial rfl (.lockCall [0])

/-- The cells that a call has looked up are those of its names. -/
def Tracked (r : Registry ν) (task : Task ν) : Prop :=
  match task with
  | .lockCells names todo cells =>
      ∃ done, names = done ++ todo ∧ done.length = cells.length ∧
        ∀ p ∈ done.zip cells, r.ofRecord p.1 = some p.2
  | .lockLoop names cells => ∀ p ∈ names.zip cells, r.ofRecord p.1 = some p.2
  | .lockHold names cells _ _ => ∀ p ∈ names.zip cells, r.ofRecord p.1 = some p.2
  | _ => True

omit [LinearOrder ν] in
lemma Tracked.kept {task} (h : Tracked r task) (hcall : InCall names task)
    (hkept : ∀ x ∈ names, ∀ c, r.ofRecord x = some c → r'.ofRecord x = some c) :
    Tracked r' task := by
  cases hcall with
  | cells todo cells =>
    obtain ⟨done, rfl, hlen, hzip⟩ := h
    refine ⟨done, rfl, hlen, fun p hp => hkept p.1 ?_ p.2 (hzip p hp)⟩
    exact mem_append_left todo (of_mem_zip hp).1
  | loop cells => exact fun p hp => hkept p.1 (of_mem_zip hp).1 p.2 (h p hp)
  | hold cells sets todo => exact fun p hp => hkept p.1 (of_mem_zip hp).1 p.2 (h p hp)

lemma Act.tracked {free : ℕ → Prop} {db db'} (h : Act free db r th db' r' th') (hr : Running r)
    (hcall : InCall names th.task)
    (hkept : ∀ x ∈ names, ∀ c, r.ofRecord x = some c → r'.ofRecord x = some c)
    (htracked : Tracked r th.task) : Tracked r' th'.task := by
  obtain ⟨task, own, taken⟩ := th
  have hthere := htracked.kept hcall hkept
  cases hcall with
  | cells todo cells =>
    obtain ⟨done, hnames, hlen, hzip⟩ := hthere
    cases todo with
    | nil =>
      rw [h.of_lockCells_nil]
      rw [append_nil] at hnames
      subst hnames
      exact hzip
    | cons name todo =>
      obtain ⟨rfl, rfl⟩ := h.of_lockCells_cons
      refine ⟨done ++ [name], ?_, ?_, fun p hp => ?_⟩
      · rw [hnames, append_assoc, singleton_append]
      · rw [length_append, length_append, hlen]
        rfl
      · rw [zip_append hlen] at hp
        rcases mem_append.1 hp with hold | hnew
        · exact hzip p hold
        · obtain rfl : p = (name, (r.ensureSet name).2) := mem_singleton.1 hnew
          exact (hr.ensureSet name).2.2.2
  | loop cells =>
    obtain ⟨rfl, rfl⟩ := h.of_lockLoop
    exact hthere
  | hold cells sets todo =>
    cases todo with
    | nil =>
      obtain ⟨rfl, ⟨-, rfl⟩ | ⟨-, rfl⟩⟩ := h.of_lockHold_nil
      · trivial
      · exact hthere
    | cons id todo =>
      obtain ⟨rfl, rfl⟩ := h.of_lockHold_cons
      exact hthere

/-- **A call whose names keep their cells returns**: none of them is removed, or registered again, while
the call lasts. -/
theorem lock_records_returns_of_kept (run : Run ν) {t n : ℕ} (hfair : run.Fair t)
    (hreleased : run.Released t) (hfinite : ∃ m, run.Stable m)
    (hsettled : ∀ m, Reaches Settled (run.world m))
    (hcall : (run.thread t n).task = .lockCells names names [])
    (hkept : ∀ m, run.Calls t names n m → ∀ x ∈ names, ∀ c,
      (run.world m).reg.ofRecord x = some c → (run.world (m + 1)).reg.ofRecord x = some c) :
    run.Returns t names n := by
  have htracked : ∀ m, n ≤ m → run.Calls t names n m →
      Tracked (run.world m).reg (run.thread t m).task := by
    intro m hm
    induction m, hm using Nat.le_induction with
    | base =>
      intro _
      rw [hcall]
      exact ⟨[], rfl, rfl, nofun⟩
    | succ m hm ih =>
      intro hcalls
      have hbefore : run.Calls t names n m :=
        ⟨hm, fun k hk hkm => hcalls.inCall k hk (Nat.le_succ_of_le hkm)⟩
      have hin := hbefore.inCall m hm (Nat.le_refl m)
      by_cases hact : run.acting m = some t
      · exact (run.step m t hact).act.tracked (hsettled m).guarded.running hin
          (hkept m hbefore) (ih hbefore)
      · rw [Run.thread_succ hact]
        exact (ih hbefore).kept hin (hkept m hbefore)
  refine Run.returns_of_agrees hfair hreleased hfinite (hcall ▸ .cells names []) ?_
  intro m cells hcalls htask _ p hp
  have hcells := htracked m hcalls.le hcalls
  rw [htask] at hcells
  -- a name with a cell has the set of the cell
  rw [zip_map_right] at hp
  obtain ⟨q, hq, rfl⟩ := mem_map.1 hp
  have hof := hcells q hq
  obtain ⟨s, hs⟩ := Option.isSome_iff_exists.1
    ((hsettled m).guarded.running.real q.1 (by rw [hof]; rfl))
  obtain ⟨c, hc, heq, -⟩ := realSetOf_eq_some.1 hs
  obtain rfl : c = q.2 := Option.some.inj (hc.symm.trans hof)
  exact hs.trans (congrArg some heq.symm)

/-! ### A record that is removed -/

def singleDb : Database ℕ where
  records := {0}
  fields := fun _ => []
  partners := fun _ => []
  distinct := fun _ => List.nodup_nil

/-- The turns of a call for record 0, whose cell stays behind set `s`. -/
def spinningThread (s n : ℕ) : Thread ℕ :=
  match n % 3 with
  | 0 => ⟨.lockLoop [0] [0], [], []⟩
  | 1 => ⟨.lockHold [0] [0] [s] [s], [], []⟩
  | _ => ⟨.lockHold [0] [0] [s] [], [], [s]⟩

lemma spinningThread_act {db r} (h : r.realSetOf 0 = none) (n : ℕ) :
    Act (fun _ => True) db r (spinningThread (r.cells 0) n) db r (spinningThread (r.cells 0) (n + 1)) := by
  have hmod : n % 3 = 0 ∨ n % 3 = 1 ∨ n % 3 = 2 := by omega
  unfold spinningThread
  rcases hmod with hn | hn | hn
  · rw [hn, show (n + 1) % 3 = 1 by omega]
    exact .lockRead
  · rw [hn, show (n + 1) % 3 = 2 by omega]
    exact .lockTake trivial
  · rw [hn, show (n + 1) % 3 = 0 by omega]
    refine .lockRetry fun hmatch => ?_
    have h0 := hmatch (0, r.cells 0) mem_cons_self
    rw [h] at h0
    cases h0

/-- The threads of the removal: thread 1 is at the head of its loop, thread 2 is where `th` says. -/
def removalThreads (th : Thread ℕ) : ℕ → Thread ℕ :=
  Function.update (Function.update (fun _ => ⟨.idle, [], []⟩) 1 ⟨.lockLoop [0] [0], [], []⟩) 2 th

lemma removalThreads_idle : removalThreads ⟨.idle, [], []⟩ =
    update (fun _ => ⟨.idle, [], []⟩) 1 ⟨.lockLoop [0] [0], [], []⟩ := by
  unfold removalThreads
  rw [update_eq_self_iff]
  rfl

lemma Reaches.removal {db db' r r' th th'}
    (h : Reaches (fun _ _ => True) ⟨db, r, removalThreads th⟩)
    (hact : Act (fun _ => True) db r th db' r' th') :
    Reaches (fun _ _ => True) ⟨db', r', removalThreads th'⟩ := by
  have hfree : Free ⟨db, r, removalThreads th⟩ 2 = fun _ => True := by
    refine funext fun id => eq_true fun u hu hheld => ?_
    simp only [removalThreads, update_of_ne hu] at hheld
    by_cases hu1 : u = 1
    · subst hu1
      simp [Thread.Holds] at hheld
    · simp [update_of_ne hu1, Thread.Holds] at hheld
  have hstep := h.act 2 th trivial (by simp only [removalThreads, update_self]) (hfree ▸ hact)
  unfold removalThreads at hstep
  rwa [update_idem] at hstep

def removedReg : Registry ℕ := ((load [0]).build singleDb [0] []).repartition 0 (.ofNames [])

lemma removedReg_realSetOf : removedReg.realSetOf 0 = none := by
  have hnames : ∀ x, x ∈ [0] ↔ x ∈ singleDb.records := by simp [singleDb]
  have P := partitions_build singleDb hnames hnames (forall_mem_nil _)
  have hseed : ((load [0]).build singleDb [0] []).realSetOf 0 = some 2 := rfl
  have R := P.toInv.repartition (Adjacency.ofNames_symmetric []).2 hseed
  have hgone : removedReg.ofRecord 0 = none := by
    refine (R.ofRecord_eq 0).trans (if_pos ⟨P.toSets.seed_mem _ 0, ?_⟩)
    exact Finset.notMem_empty 0
  cases hreal : removedReg.realSetOf 0 with
  | none => rfl
  | some id =>
    obtain ⟨c, hc, -⟩ := realSetOf_eq_some.1 hreal
    rw [hgone] at hc
    cases hc

lemma reaches_removed : Reaches (fun _ _ => True) ⟨singleDb.removeRecord 0, removedReg,
    removalThreads ⟨.idle, [], []⟩⟩ := by
  have hnames : ∀ x, x ∈ [0] ↔ x ∈ singleDb.records := by simp [singleDb]
  have hstart : Reaches (fun _ _ => True) ⟨singleDb, (load [0]).build singleDb [0] [],
      fun _ => ⟨.idle, [], []⟩⟩ := .start hnames hnames (by simp)
  -- thread 1 calls, and looks up the cell
  have hcalled := hstart.act 1 _ trivial rfl (.lockCall [0])
  have hcell := hcalled.act 1 _ trivial rfl .lockCell
  have hloop : Reaches (fun _ _ => True) ⟨singleDb, (load [0]).build singleDb [0] [],
      removalThreads ⟨.idle, [], []⟩⟩ := by
    rw [removalThreads_idle]
    have hloop := hcell.act 1 _ trivial rfl .lockStart
    rwa [update_idem, update_idem] at hloop
  -- thread 2 removes the record
  have hgone := (hloop.removal (.take 2 trivial)).removal
    (.unpublish 0 (by simp [singleDb]) rfl (mem_cons_self : 2 ∈ [2]))
  have hpass := (hgone.removal (.dropRemoving 2)).removal .removed
  have hheld : Reaches (fun _ _ => True) ⟨singleDb.removeRecord 0, (load [0]).build singleDb [0] [],
      removalThreads ⟨.relinkMembers ⟨0, .membership, [2], 1⟩, [], [2]⟩⟩ :=
    ((hpass.removal .readAll).removal (.hold trivial)).removal .held
  have hlinks := hheld.removal (.readNames [] rfl (by simp [singleDb, Database.removeRecord]))
  exact (hlinks.removal .readTarget).removal (.apply rfl rfl)

end RecordLock
