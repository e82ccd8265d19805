/-
**The threads of an IOC at its lock sets.**

Any number of threads in `relink_lock_sets`, `merge_sets`, `lock_records` or the operation around
them: the edit of a link field, a registration, a removal, a declaration of partners.  A step is
what a thread does under the registry lock, one read of the record map and the link texts, or one
set that it takes, which no other thread holds.

Names are canonical; aliases are not resolved here.  A caller takes and drops the sets of its
records at any time, but not while its operation runs.  The registration gate is left out, which
only allows more runs.
-/

import EpicsRs.LockComponents

set_option autoImplicit false

namespace RecordLock

open Registry

/-! ### Threads -/

/-- `RelinkScope`. -/
inductive Scope (ν : Type)
  | linkEdit (field : FieldName) (oldTarget : Option ν)
  | partners
  | membership

/-- The locals of a pass of `relink_lock_sets`. -/
structure Relink (ν : Type) where
  record : ν
  scope : Scope ν
  region : List ℕ
  revision : ℕ

inductive Task (ν : Type)
  | idle
  | editing (record : ν) (field : FieldName) (oldTarget : Option ν)
  | registering (name : ν)
  | removing (name : ν)
  | relinkLoop (record : ν) (scope : Scope ν) (region : List ℕ)
  | relinkTargets (l : Relink ν)
  | relinkSets (l : Relink ν) (targets : List ν)
  | relinkHold (l : Relink ν) (todo : List ℕ)
  | relinkMembers (l : Relink ν)
  | relinkLinks (l : Relink ν) (todo : List ν) (adjacency : Adjacency ν)
  | relinkApply (l : Relink ν) (adjacency : Adjacency ν) (newTarget : Option ν)
  | mergeLoop (first second : ν)
  | mergeHold (first second : ν) (a b : ℕ) (todo : List ℕ)
  | lockCells (names todo : List ν) (cells : List ℕ)
  | lockLoop (names : List ν) (cells : List ℕ)
  | lockHold (names : List ν) (cells sets todo : List ℕ)
  | locked (names : List ν) (sets : List ℕ)

/-- A thread: where it is, the sets that its callers hold, and those that its task has taken. -/
structure Thread (ν : Type) where
  task : Task ν
  own : List ℕ
  taken : List ℕ

def Thread.Holds {ν : Type} (th : Thread ν) (id : ℕ) : Prop := id ∈ th.own ∨ id ∈ th.taken

structure World (ν : Type) where
  db : Database ν
  reg : Registry ν
  threads : ℕ → Thread ν

def World.Free {ν : Type} (w : World ν) (t id : ℕ) : Prop := ∀ u, u ≠ t → ¬ (w.threads u).Holds id

variable {ν : Type} [LinearOrder ν]

/-! ### What is read -/

/-- The order in which `hold_sorted` takes sets, each once. -/
def holdOrder (sets : List ℕ) : List ℕ := (sets.insertionSort (· ≤ ·)).dedup

def pushSet (region : List ℕ) (set : Option ℕ) : List ℕ :=
  match set with
  | some id => if id ∈ region then region else region ++ [id]
  | none => region

def Registry.everySet (r : Registry ν) : List ℕ :=
  (List.range (r.nextId + 1)).filter fun id => (r.active id).isSome

def Relink.addTargets (l : Relink ν) (r : Registry ν) (targets : List ν) : Relink ν :=
  { l with region := targets.foldl (fun region target => pushSet region (r.realSetOf target)) l.region }

def Relink.without (l : Relink ν) : Option (ν × FieldName) :=
  match l.scope with
  | .linkEdit field _ => some (l.record, field)
  | .partners => none
  | .membership => none

def Relink.newTarget (l : Relink ν) (db : Database ν) : Option ν :=
  match l.scope with
  | .linkEdit field _ => db.dbLinkOf l.record field
  | .partners => none
  | .membership => none

def Relink.outside (l : Relink ν) (r : Registry ν) (adjacency : Adjacency ν) : Finset ℕ :=
  ((adjacency.keys.biUnion fun name => (adjacency.neighbours name).toFinset).biUnion
    fun name => (r.realSetOf name).toFinset).filter fun id => id ∉ l.region

def Relink.transition (l : Relink ν) (r : Registry ν) (adjacency : Adjacency ν) (newTarget : Option ν) :
    Registry ν :=
  match l.scope with
  | .linkEdit field oldTarget => r.relinkField l.record field oldTarget newTarget adjacency
  | .partners => r.repartition l.record adjacency
  | .membership => r.repartition l.record adjacency

/-- Each name is behind the set that was taken for it. -/
def Matches (r : Registry ν) (names : List ν) (sets : List ℕ) : Prop :=
  ∀ p ∈ names.zip sets, r.realSetOf p.1 = some p.2

def Database.insertRecord (db : Database ν) (name : ν) (links : List (FieldName × Option ν))
    (h : (links.map fun l => toAsciiUppercase l.1).Nodup) : Database ν where
  records := insert name db.records
  fields := Function.update db.fields name links
  partners := db.partners
  distinct := by
    intro x
    by_cases hx : x = name
    · subst hx
      rw [Function.update_self]
      exact h
    · rw [Function.update_of_ne hx]
      exact db.distinct x

def Database.removeRecord (db : Database ν) (name : ν) : Database ν :=
  { db with records := db.records.erase name }

/-! ### Steps -/

/-- What a thread can do, with the sets that are free for it. -/
inductive Act (free : ℕ → Prop) :
    Database ν → Registry ν → Thread ν → Database ν → Registry ν → Thread ν → Prop
  -- callers
  | take {db r own} (id : ℕ) (hfree : free id) :
      Act free db r ⟨.idle, own, []⟩ db r ⟨.idle, id :: own, []⟩
  | drop {db r own} (id : ℕ) :
      Act free db r ⟨.idle, own, []⟩ db r ⟨.idle, own.erase id, []⟩
  -- a put to a link field, which holds the record's set
  | openEdit {db r own} (record : ν) (field : FieldName) {id}
      (hset : r.realSetOf record = some id) (hheld : id ∈ own) :
      Act free db r ⟨.idle, own, []⟩ db r ⟨.editing record field (db.dbLinkOf record field), own, []⟩
  | write {db r own record field oldTarget} (target : Option ν) :
      Act free db r ⟨.editing record field oldTarget, own, []⟩ (db.setField record field target) r
        ⟨.relinkLoop record (.linkEdit field oldTarget) [], own, []⟩
  -- registration
  | adopt {db r} (name : ν) (hnew : name ∉ db.records) :
      Act free db r ⟨.idle, [], []⟩ db (r.register name) ⟨.registering name, [], []⟩
  | publish {db r name} (links : List (FieldName × Option ν))
      (h : (links.map fun l => toAsciiUppercase l.1).Nodup) :
      Act free db r ⟨.registering name, [], []⟩ (db.insertRecord name links h) r
        ⟨.relinkLoop name .membership [], [], []⟩
  -- removal, under the record's set
  | unpublish {db r own} (name : ν) {id}
      (hname : name ∈ db.records) (hset : r.realSetOf name = some id) (hheld : id ∈ own) :
      Act free db r ⟨.idle, own, []⟩ (db.removeRecord name) r ⟨.removing name, own, []⟩
  | dropRemoving {db r own name} (id : ℕ) :
      Act free db r ⟨.removing name, own, []⟩ db r ⟨.removing name, own.erase id, []⟩
  | removed {db r name} :
      Act free db r ⟨.removing name, [], []⟩ db r ⟨.relinkLoop name .membership [], [], []⟩
  | removeMissing {db r} (name : ν) (hname : name ∉ db.records) :
      Act free db r ⟨.idle, [], []⟩ db r ⟨.relinkLoop name .membership [], [], []⟩
  -- partners
  | declare {db r} (record : ν) (partners : List ν) :
      Act free db r ⟨.idle, [], []⟩ (db.setLockPartners record partners) r
        ⟨.relinkLoop record .partners [], [], []⟩
  -- `relink_lock_sets`
  | readAll {db r own record region} :
      Act free db r ⟨.relinkLoop record .membership region, own, []⟩ db r
        ⟨.relinkHold ⟨record, .membership, r.everySet, r.revision⟩ (holdOrder r.everySet), own, []⟩
  | readSeed {db r own record scope region} (hscope : scope ≠ .membership) :
      Act free db r ⟨.relinkLoop record scope region, own, []⟩ db r
        ⟨.relinkTargets ⟨record, scope, pushSet region (r.realSetOf record), r.revision⟩, own, []⟩
  | readTargets {db r own l} :
      Act free db r ⟨.relinkTargets l, own, []⟩ db r
        ⟨.relinkSets l (db.dbLinkTargets l.record), own, []⟩
  | readSets {db r own l targets} :
      Act free db r ⟨.relinkSets l targets, own, []⟩ db r
        ⟨.relinkHold (l.addTargets r targets) (holdOrder (l.addTargets r targets).region), own, []⟩
  | hold {db r own taken l id todo} (hfree : free id) :
      Act free db r ⟨.relinkHold l (id :: todo), own, taken⟩ db r
        ⟨.relinkHold l todo, own, id :: taken⟩
  | held {db r own taken l} :
      Act free db r ⟨.relinkHold l [], own, taken⟩ db r ⟨.relinkMembers l, own, taken⟩
  | readMembers {db r own taken l}
      (hscope : l.scope ≠ .membership) :
      Act free db r ⟨.relinkMembers l, own, taken⟩ db r
        ⟨.relinkLinks l (l.region.flatMap r.members) (.ofNames (l.region.flatMap r.members)), own,
          taken⟩
  | readNames {db r own taken l} (names : List ν)
      (hscope : l.scope = .membership) (hnames : ∀ x, x ∈ names ↔ x ∈ db.records) :
      Act free db r ⟨.relinkMembers l, own, taken⟩ db r
        ⟨.relinkLinks l names (.ofNames names), own, taken⟩
  | readLinks {db r own taken l name todo adjacency} :
      Act free db r ⟨.relinkLinks l (name :: todo) adjacency, own, taken⟩ db r
        ⟨.relinkLinks l todo (db.addLinks l.without adjacency name), own, taken⟩
  | readTarget {db r own taken l adjacency} :
      Act free db r ⟨.relinkLinks l [] adjacency, own, taken⟩ db r
        ⟨.relinkApply l adjacency (l.newTarget db), own, taken⟩
  | retry {db r own taken l adjacency newTarget} (hrevision : r.revision ≠ l.revision) :
      Act free db r ⟨.relinkApply l adjacency newTarget, own, taken⟩ db r
        ⟨.relinkLoop l.record l.scope l.region, own, []⟩
  | widen {db r own taken l adjacency newTarget} (hrevision : r.revision = l.revision)
      (houtside : l.outside r adjacency ≠ ∅) :
      Act free db r ⟨.relinkApply l adjacency newTarget, own, taken⟩ db r
        ⟨.relinkLoop l.record l.scope
          (holdOrder (l.region ++ (l.outside r adjacency).sort (· ≤ ·))), own, []⟩
  | apply {db r own taken l adjacency newTarget} (hrevision : r.revision = l.revision)
      (houtside : l.outside r adjacency = ∅) :
      Act free db r ⟨.relinkApply l adjacency newTarget, own, taken⟩ db
        (l.transition r adjacency newTarget) ⟨.idle, own, []⟩
  -- `merge_sets`
  | mergeCall {db r} (first second : ν) :
      Act free db r ⟨.idle, [], []⟩ db r ⟨.mergeLoop first second, [], []⟩
  | mergeRead {db r own first second a b}
      (ha : r.realSetOf first = some a) (hb : r.realSetOf second = some b) (hne : a ≠ b) :
      Act free db r ⟨.mergeLoop first second, own, []⟩ db r
        ⟨.mergeHold first second a b (holdOrder [a, b]), own, []⟩
  | mergeSkip {db r own first second}
      (h : ∀ a b, r.realSetOf first = some a → r.realSetOf second = some b → a = b) :
      Act free db r ⟨.mergeLoop first second, own, []⟩ db r ⟨.idle, own, []⟩
  | mergeTake {db r own taken first second a b id todo} (hfree : free id) :
      Act free db r ⟨.mergeHold first second a b (id :: todo), own, taken⟩ db r
        ⟨.mergeHold first second a b todo, own, id :: taken⟩
  | mergeDone {db r own taken first second a b}
      (ha : r.realSetOf first = some a) (hb : r.realSetOf second = some b) :
      Act free db r ⟨.mergeHold first second a b [], own, taken⟩ db (r.merge first second)
        ⟨.idle, own, []⟩
  | mergeRetry {db r own taken first second a b}
      (h : ¬ (r.realSetOf first = some a ∧ r.realSetOf second = some b)) :
      Act free db r ⟨.mergeHold first second a b [], own, taken⟩ db r
        ⟨.mergeLoop first second, own, []⟩
  -- `lock_records`
  | lockCall {db r own} (names : List ν) :
      Act free db r ⟨.idle, own, []⟩ db r ⟨.lockCells names names [], own, []⟩
  | lockCell {db r own names todo name cells} :
      Act free db r ⟨.lockCells names (name :: todo) cells, own, []⟩ db (r.ensureSet name).1
        ⟨.lockCells names todo (cells ++ [(r.ensureSet name).2]), own, []⟩
  | lockStart {db r own names cells} :
      Act free db r ⟨.lockCells names [] cells, own, []⟩ db r ⟨.lockLoop names cells, own, []⟩
  | lockRead {db r own names cells} :
      Act free db r ⟨.lockLoop names cells, own, []⟩ db r
        ⟨.lockHold names cells (cells.map r.cells) (holdOrder (cells.map r.cells)), own, []⟩
  | lockTake {db r own taken names cells sets id todo} (hfree : free id) :
      Act free db r ⟨.lockHold names cells sets (id :: todo), own, taken⟩ db r
        ⟨.lockHold names cells sets todo, own, id :: taken⟩
  | lockRetry {db r own taken names cells sets} (h : ¬ Matches r names sets) :
      Act free db r ⟨.lockHold names cells sets [], own, taken⟩ db r ⟨.lockLoop names cells, own, []⟩
  | lockReturn {db r own taken names cells sets} (h : Matches r names sets) :
      Act free db r ⟨.lockHold names cells sets [], own, taken⟩ db r ⟨.locked names sets, own, taken⟩
  | unlock {db r own taken names sets} :
      Act free db r ⟨.locked names sets, own, taken⟩ db r ⟨.idle, own, []⟩

/-- A step of thread `t`. -/
inductive Step (t : ℕ) : World ν → World ν → Prop
  | mk {w : World ν} {db' : Database ν} {r' : Registry ν} {th' : Thread ν}
      (h : Act (w.Free t) w.db w.reg (w.threads t) db' r' th') :
      Step t w ⟨db', r', Function.update w.threads t th'⟩

/-- The runs from a built database, of steps that each meet `P`. -/
inductive Reaches (P : World ν → ℕ → Prop) : World ν → Prop
  | start {db : Database ν} {loaded names adopted : List ν}
      (hloaded : ∀ x, x ∈ loaded ↔ x ∈ db.records) (hnames : ∀ x, x ∈ names ↔ x ∈ db.records)
      (hadopted : ∀ x ∈ adopted, x ∈ db.records) :
      Reaches P ⟨db, (load loaded).build db names adopted, fun _ => ⟨.idle, [], []⟩⟩
  | step {w w' : World ν} {t : ℕ} (h : Reaches P w) (hP : P w t) (hstep : Step t w w') : Reaches P w'

end RecordLock
