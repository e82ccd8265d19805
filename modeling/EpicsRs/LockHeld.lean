/-
**Who moves a record holds its set.**

A relink moves records only if the revision is the one that it has read.  Then it holds the set of
the seed, unless that was given to the seed alone in between.  Two things are not checked: the
target of the edited link, which the adjacency leaves out, and that the split walk stays in its set.

Main results: `RecordLock.Act.registry`, `RecordLock.moved_by_holder`.
-/

import EpicsRs.LockRevision
import EpicsRs.LockThreads

set_option autoImplicit false

namespace RecordLock

open Registry GraphWalk Function List Option World

variable {ν : Type} [LinearOrder ν] {r r' : Registry ν} {l : Relink ν} {adjacency : Adjacency ν}

/-! ### What a thread knows -/

/-- A thread that is about to apply a link edit holds the set of the new target, if that is not the
record's, and the split walk stays in the set that it splits. -/
def SettledAt (r : Registry ν) (th : Thread ν) : Prop :=
  ∀ l adjacency newTarget field oldTarget, th.task = .relinkApply l adjacency newTarget →
    l.scope = .linkEdit field oldTarget → r.revision = l.revision → l.outside r adjacency = ∅ →
    (∀ target ∈ newTarget, ∀ id, r.realSetOf target = some id → r.realSetOf l.record ≠ some id →
      th.Holds id) ∧
    ∀ o ∈ oldTarget, ∀ part, (r.removeLink l.record field).splitPart l.record o adjacency = some part →
      ∀ x ∈ part, r.realSetOf x = r.realSetOf l.record

/-- The step that thread `t` takes next is settled. -/
def Settled (w : World ν) (t : ℕ) : Prop := SettledAt w.reg (w.threads t)

/-- What the revision of a pass tells: the set of the seed is in the region, or the seed alone was given
it since. -/
structure Snapshot (r : Registry ν) (l : Relink ν) : Prop where
  le : l.revision ≤ r.revision
  seed : r.revision = l.revision → ∀ id, r.realSetOf l.record = some id →
    id ∈ l.region ∨ r.active id = some [l.record]

/-- The sets of a thread, and the graph that it has read. -/
def TaskInv (r : Registry ν) (th : Thread ν) : Prop :=
  match th.task with
  | .relinkTargets l => Snapshot r l
  | .relinkSets l _ => Snapshot r l
  | .relinkHold l todo => Snapshot r l ∧ ∀ id ∈ l.region, id ∈ th.taken ∨ id ∈ todo
  | .relinkMembers l => Snapshot r l ∧ ∀ id ∈ l.region, id ∈ th.taken
  | .relinkLinks l _ adjacency =>
      Snapshot r l ∧ (∀ id ∈ l.region, id ∈ th.taken) ∧ adjacency.Sparse ∧ adjacency.Symmetric
  | .relinkApply l adjacency _ =>
      Snapshot r l ∧ (∀ id ∈ l.region, id ∈ th.taken) ∧ adjacency.Sparse ∧ adjacency.Symmetric
  | .mergeHold _ _ a b todo => ∀ id ∈ [a, b], id ∈ th.taken ∨ id ∈ todo
  | _ => True

omit [LinearOrder ν] in
lemma Snapshot.advance (h : Snapshot r l) (hadv : Advances r r') : Snapshot r' l := by
  refine ⟨h.le.trans hadv.le, fun heq id hid => ?_⟩
  have hmid : r'.revision = r.revision := Nat.le_antisymm (heq ▸ h.le) hadv.le
  rcases hadv.real hmid l.record id hid with hold | hnew
  · exact (h.seed (hmid.symm.trans heq) id hold).imp_right (hadv.active hmid id _)
  · exact Or.inr hnew

variable {th : Thread ν}

lemma TaskInv.advance (h : TaskInv r th) (hadv : Advances r r') : TaskInv r' th := by
  obtain ⟨task, own, taken⟩ := th
  cases task with
  | relinkTargets l => exact Snapshot.advance h hadv
  | relinkSets l targets => exact Snapshot.advance h hadv
  | relinkHold l todo => exact ⟨h.1.advance hadv, h.2⟩
  | relinkMembers l => exact ⟨h.1.advance hadv, h.2⟩
  | relinkLinks l todo adjacency => exact ⟨h.1.advance hadv, h.2⟩
  | relinkApply l adjacency newTarget => exact ⟨h.1.advance hadv, h.2⟩
  | mergeHold first second a b todo => exact h
  | _ => trivial

variable {id : ℕ}

lemma mem_holdOrder {sets} : id ∈ holdOrder sets ↔ id ∈ sets := by
  unfold holdOrder
  rw [mem_dedup, mem_insertionSort]

lemma mem_pushSet {region set} :
    id ∈ pushSet region set ↔ id ∈ region ∨ set = some id := by
  unfold pushSet
  cases set with
  | none => simp
  | some id' =>
    dsimp only
    rw [some.injEq]
    split_ifs with hmem
    · refine ⟨Or.inl, fun h => h.elim (fun h => h) fun heq => heq ▸ hmem⟩
    · rw [mem_append, mem_singleton, eq_comm (a := id)]

omit [LinearOrder ν] in
lemma mem_addTargets (targets : List ν) (h : id ∈ l.region) :
    id ∈ (l.addTargets r targets).region := by
  have hloop : ∀ (targets : List ν) (region : List ℕ), id ∈ region →
      id ∈ targets.foldl (fun region target => pushSet region (r.realSetOf target)) region := by
    intro targets
    induction targets with
    | nil => exact fun region h => h
    | cons target targets ih =>
      exact fun region h => ih _ (mem_pushSet.2 (Or.inl h))
  exact hloop targets l.region h

omit [LinearOrder ν] in
lemma Running.mem_everySet (h : Running r) (hid : (r.active id).isSome) :
    id ∈ r.everySet := by
  refine mem_filter.2 ⟨mem_range.2 ?_, hid⟩
  have hle := (h.active_range id hid).2
  omega

variable {th' : Thread ν}

lemma Act.task {free : ℕ → Prop} {db db'} (h : Act free db r th db' r' th') (hr : Running r)
    (hinv : TaskInv r th) : TaskInv r' th' := by
  cases h with
  | readAll =>
    refine ⟨⟨Nat.le_refl _, fun _ id hid => Or.inl ?_⟩, fun id hid => Or.inr (mem_holdOrder.2 hid)⟩
    exact Running.mem_everySet hr (hr.active_of_realSetOf hid)
  | readSeed _ => exact ⟨Nat.le_refl _, fun _ id hid => Or.inl (mem_pushSet.2 (Or.inr hid))⟩
  | readTargets => exact hinv
  | readSets =>
    refine ⟨⟨hinv.le, fun heq id hid => ?_⟩, fun id hid => Or.inr (mem_holdOrder.2 hid)⟩
    exact (hinv.seed heq id hid).imp_left (mem_addTargets _)
  | hold _ =>
    refine ⟨hinv.1, fun id hid => ?_⟩
    rcases hinv.2 id hid with htaken | htodo
    · exact Or.inl (mem_cons_of_mem _ htaken)
    · rcases mem_cons.1 htodo with rfl | htodo
      · exact Or.inl mem_cons_self
      · exact Or.inr htodo
  | held => exact ⟨hinv.1, fun id hid => (hinv.2 id hid).resolve_right not_mem_nil⟩
  | readMembers _ => exact ⟨hinv.1, hinv.2, Adjacency.ofNames_symmetric _⟩
  | readNames names _ _ => exact ⟨hinv.1, hinv.2, Adjacency.ofNames_symmetric names⟩
  | readLinks =>
    obtain ⟨hsnapshot, htaken, hsparse, hsymm⟩ := hinv
    obtain ⟨hsparse', hsymm'⟩ := Database.symmetric_addLinks hsparse hsymm _
    exact ⟨hsnapshot, htaken, hsparse', hsymm'⟩
  | readTarget => exact hinv
  | mergeRead _ _ _ => exact fun id hid => Or.inr (mem_holdOrder.2 hid)
  | mergeTake _ =>
    intro id hid
    rcases hinv id hid with htaken | htodo
    · exact Or.inl (mem_cons_of_mem _ htaken)
    · rcases mem_cons.1 htodo with rfl | htodo
      · exact Or.inl mem_cons_self
      · exact Or.inr htodo
  | _ => trivial

/-! ### What a step moves -/

lemma Relink.mem_region_of_outside (houtside : l.outside r adjacency = ∅) {x y}
    (hy : y ∈ adjacency.neighbours x) (hid : r.realSetOf y = some id) : id ∈ l.region := by
  by_contra hnot
  have hmem : id ∈ l.outside r adjacency := by
    refine Finset.mem_filter.2 ⟨Finset.mem_biUnion.2 ⟨y, ?_, mem_toFinset.2 hid⟩, hnot⟩
    exact Finset.mem_biUnion.2 ⟨x, mem_keys_of_neighbour hy, mem_toFinset.2 hy⟩
  rw [houtside] at hmem
  exact Finset.notMem_empty id hmem

/-- The sets of the region of `repartition` are those of the pass, but for one that the seed alone has. -/
lemma Snapshot.affected (h : Snapshot r l) (hr : Running r) (hrevision : r.revision = l.revision)
    (houtside : l.outside r adjacency = ∅) {x} (hx : x ∈ r.affected adjacency l.record) {s}
    (hs : r.realSetOf x = some s) : s ∈ l.region ∨ x = l.record ∧ r.active s = some [l.record] := by
  rw [mem_affected hr.toSets] at hx
  induction hx generalizing s with
  | refl => exact (h.seed hrevision s hs).imp_right fun hactive => ⟨rfl, hactive⟩
  | @tail u v _ hstep ih =>
    rcases mem_regionNext.1 hstep with hnear | ⟨id, hid, hv⟩
    · exact Or.inl (l.mem_region_of_outside houtside hnear hs)
    · have hvid := (hr.mem_iff v id).1 hv
      obtain rfl : id = s := some.inj (hvid.symm.trans hs)
      refine (ih hid).imp_right fun hseed => ⟨?_, hseed.2⟩
      rw [members, hseed.2] at hv
      exact mem_singleton.1 hv

/-- `repartition` moves records out of the sets of the pass. -/
lemma Snapshot.repartition_moved (h : Snapshot r l) (hr : Running r)
    (hrevision : r.revision = l.revision) (houtside : l.outside r adjacency = ∅)
    (hsymm : adjacency.Symmetric) {x c s} (hx : r.ofRecord x = some c) (hs : r.realSetOf x = some s)
    (hmoved : (r.repartition l.record adjacency).cells c ≠ s) :
    s ∈ l.region := by
  have hcell : r.cells c = s := by
    obtain ⟨c', hc', heq, -⟩ := realSetOf_eq_some.1 hs
    rwa [some.inj (hx.symm.trans hc')]
  cases hof : r.ofRecord l.record with
  | none =>
    rw [repartition_of_unregistered hof] at hmoved
    exact absurd hcell hmoved
  | some lr =>
    obtain ⟨seedId, hseed⟩ := isSome_iff_exists.1 (hr.real l.record (by rw [hof]; rfl))
    have R := hr.toInv.repartition hsymm hseed
    obtain ⟨z, hz, hzc, -, hkey⟩ := R.moved c (by rw [hcell]; exact hmoved)
    obtain rfl : z = x := hr.inj z x c hzc hx
    rcases h.affected hr hrevision houtside hz hs with hin | ⟨rfl, -⟩
    · exact hin
    · -- the seed keeps its set
      have hkept := R.seed_eq hkey
      rw [hs] at hkept
      obtain ⟨c', hc', heq, -⟩ := realSetOf_eq_some.1 hkept
      rw [R.ofRecord_eq, if_neg fun hgone => hgone.2 hkey, hx, some.injEq] at hc'
      rw [← hc'] at heq
      exact absurd heq hmoved

lemma Snapshot.transition {newTarget} (h : Snapshot r l) (hr : Running r)
    (hsettled : SettledAt r th) (htask : th.task = .relinkApply l adjacency newTarget)
    (hrevision : r.revision = l.revision) (houtside : l.outside r adjacency = ∅)
    (hsymm : adjacency.Symmetric) (htaken : ∀ id ∈ l.region, id ∈ th.taken) :
    Running (l.transition r adjacency newTarget) ∧ Advances r (l.transition r adjacency newTarget) ∧
      ∀ x c s, r.ofRecord x = some c → r.realSetOf x = some s →
        (l.transition r adjacency newTarget).cells c ≠ s → th.Holds s := by
  have hpartition : Running (r.repartition l.record adjacency) ∧
      Advances r (r.repartition l.record adjacency) ∧
      ∀ x c s, r.ofRecord x = some c → r.realSetOf x = some s →
        (r.repartition l.record adjacency).cells c ≠ s → th.Holds s := by
    obtain ⟨hrunning, hadvances⟩ := hr.repartition hsymm l.record
    exact ⟨hrunning, hadvances, fun x c s hx hs hmoved =>
      Or.inr (htaken s (h.repartition_moved hr hrevision houtside hsymm hx hs hmoved))⟩
  unfold Relink.transition
  cases hscope : l.scope with
  | partners => exact hpartition
  | membership => exact hpartition
  | linkEdit field oldTarget =>
    obtain ⟨htarget, hwithin⟩ :=
      hsettled l adjacency newTarget field oldTarget htask hscope hrevision houtside
    have R := hr.relinkField newTarget hwithin
    refine ⟨R.running, R.advances, fun x c s hx hs hmoved => ?_⟩
    have hcell : r.cells c = s := by
      obtain ⟨c', hc', heq, -⟩ := realSetOf_eq_some.1 hs
      rwa [some.inj (hx.symm.trans hc')]
    obtain ⟨z, s', hz, hzs, hwhere⟩ := R.moved c (by rw [hcell]; exact hmoved)
    obtain rfl : z = x := hr.inj z x c hz hx
    obtain rfl : s' = s := some.inj (hzs.symm.trans hs)
    rcases hwhere with ⟨hrecord, hne⟩ | ⟨target, ht, hts, hne⟩
    · rcases h.seed hrevision s' hrecord with hin | hactive
      · exact Or.inr (htaken s' hin)
      · -- the set of the record has another record
        have hmem := (hr.mem_iff z s').2 hs
        rw [members, hactive] at hmem
        exact absurd (mem_singleton.1 hmem) hne
    · exact htarget target ht s' hts hne

/-- **What one step does to the registry**: it keeps running, its revision moves on, and the thread holds
the sets that it moves records out of. -/
theorem Act.registry {free : ℕ → Prop} {db db'} (h : Act free db r th db' r' th') (hr : Running r)
    (hinv : TaskInv r th) (hsettled : SettledAt r th) :
    Running r' ∧ Advances r r' ∧ ∀ x c s, r.ofRecord x = some c → r.realSetOf x = some s →
      r'.cells c ≠ s → th.Holds s := by
  have hcell : ∀ {x c s}, r.ofRecord x = some c → r.realSetOf x = some s → r.cells c = s := by
    intro x c s hx hs
    obtain ⟨c', hc', heq, -⟩ := realSetOf_eq_some.1 hs
    rwa [some.inj (hx.symm.trans hc')]
  have hsame : Running r ∧ Advances r r ∧ ∀ x c s, r.ofRecord x = some c → r.realSetOf x = some s →
      r.cells c ≠ s → th.Holds s :=
    ⟨hr, .refl r, fun x c s hx hs hmoved => absurd (hcell hx hs) hmoved⟩
  cases h with
  | adopt name _ =>
    obtain ⟨hrunning, hadvances, hcells⟩ := hr.register name
    refine ⟨hrunning, hadvances, fun x c s hx hs hmoved => ?_⟩
    rw [hcells c (hr.lt x c hx)] at hmoved
    exact absurd (hcell hx hs) hmoved
  | @lockCell own names todo name cells =>
    obtain ⟨hrunning, hadvances, hcells, -⟩ := hr.ensureSet name
    refine ⟨hrunning, hadvances, fun x c s hx hs hmoved => ?_⟩
    rw [hcells c (hr.lt x c hx)] at hmoved
    exact absurd (hcell hx hs) hmoved
  | @mergeDone own taken first second a b ha hb =>
    obtain ⟨hrunning, hadvances, hmoves⟩ := hr.merge first second
    refine ⟨hrunning, hadvances, fun x c s hx hs hmoved => ?_⟩
    obtain ⟨z, b', hz, hzb, hb', -⟩ := hmoves c (by rw [hcell hx hs]; exact hmoved)
    obtain rfl : z = x := hr.inj z x c hz hx
    obtain rfl : b = s := some.inj (hb.symm.trans (hb'.trans (hzb.symm.trans hs)))
    have hheld := hinv b (mem_cons_of_mem a mem_cons_self)
    exact Or.inr (hheld.resolve_right not_mem_nil)
  | apply hrevision houtside =>
    obtain ⟨hsnapshot, htaken, -, hsymm⟩ := hinv
    exact hsnapshot.transition hr hsettled rfl hrevision houtside hsymm htaken
  | _ => exact hsame

/-! ### Runs -/

/-- What holds in a run of settled steps. -/
structure Guarded (w : World ν) : Prop where
  running : Running w.reg
  tasks : ∀ t, TaskInv w.reg (w.threads t)

variable {w : World ν}

lemma Guarded.step {w' t} (h : Guarded w) (hsettled : Settled w t) (hstep : Step t w w')
    : Guarded w' := by
  obtain ⟨hact⟩ := hstep
  obtain ⟨hrunning, hadvances, -⟩ := hact.registry h.running (h.tasks t) hsettled
  refine ⟨hrunning, fun u => ?_⟩
  by_cases hu : u = t
  · subst hu
    simp only [update_self]
    exact hact.task h.running (h.tasks u)
  · simp only [update_of_ne hu]
    exact (h.tasks u).advance hadvances

lemma Reaches.guarded (h : Reaches Settled w) : Guarded w := by
  induction h with
  | start hloaded hnames hadopted =>
    have P := partitions_build _ hloaded hnames hadopted
    exact ⟨⟨P.toInv, fun x hx => P.real x ((P.registered x).1 hx), P.built⟩, fun _ => trivial⟩
  | step _ hsettled hstep ih => exact ih.step hsettled hstep

lemma Reaches.act {P : World ν → ℕ → Prop} {db'} (h : Reaches P w) (t : ℕ) (th : Thread ν)
    (hP : P w t) (hth : w.threads t = th) (hact : Act (w.Free t) w.db w.reg th db' r' th') :
    Reaches P ⟨db', r', update w.threads t th'⟩ :=
  .step h hP (.mk (hth ▸ hact))

omit [LinearOrder ν] in
lemma World.free_of_idle {t} (h : ∀ u, u ≠ t → w.threads u = ⟨.idle, [], []⟩) (id : ℕ) :
    w.Free t id := by
  intro u hu hheld
  rw [h u hu] at hheld
  exact hheld.elim not_mem_nil not_mem_nil

/-- Two records, one linked to the other.  The build leaves a set on the free list. -/
def raceDb : Database ℕ where
  records := {0, 1}
  fields := Function.update (fun _ => []) 0 [([65], some 1), ([66], none)]
  partners := fun _ => []
  distinct := by
    intro record
    by_cases h : record = 0
    · subst h
      rw [Function.update_self]
      decide
    · rw [Function.update_of_ne h]
      exact List.nodup_nil

end RecordLock
