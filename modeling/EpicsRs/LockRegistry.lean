/-
**The registry of lock sets.**

`Registry` of `server/database/record_lock.rs`: which records are behind which lock set.  A set is
its id; `bootstrap_set` is id 0.  A record is behind the set that its cell points to.  An id that
the source takes to be active is looked up as an option; that it is active is part of the invariant.
`forward_owed`, the order of `dblsr` (`listed`) and the checks of debug builds are left out.
-/

import EpicsRs.GraphWalk
import EpicsRs.LockDatabase

set_option autoImplicit false

namespace RecordLock

open GraphWalk

/-- The id of `bootstrap_set`. -/
def bootstrapSet : ℕ := 0

def firstSetId : ℕ := 2

/-- `Registry`.  `active` holds the members of each active set, and `cells` the set that the cell of
each address points to. -/
structure Registry (ν : Type) where
  active : ℕ → Option (List ν)
  free : List ℕ
  ofRecord : ν → Option ℕ
  cells : ℕ → ℕ
  allocated : ℕ
  nextId : ℕ
  linkAdded : ν × FieldName → Option ℕ
  linksAdded : ℕ
  revision : ℕ
  built : Bool

namespace Registry

variable {ν : Type}

/-- `Registry::default`. -/
def new : Registry ν where
  active := fun _ => none
  free := []
  ofRecord := fun _ => none
  cells := fun _ => bootstrapSet
  allocated := 0
  nextId := firstSetId - 1
  linkAdded := fun _ => none
  linksAdded := 0
  revision := 0
  built := false

variable [LinearOrder ν] (r : Registry ν)

/-! ### Sets and cells -/

/-- `make_set`: only a set that is minted counts as a revision. -/
def makeSet (members : List ν) : Registry ν × ℕ :=
  match r.free with
  | id :: free => ({ r with free, active := Function.update r.active id (some members) }, id)
  | [] =>
      ({ r with
        nextId := r.nextId + 1
        revision := r.revision + 1
        active := Function.update r.active (r.nextId + 1) (some members) }, r.nextId + 1)

/-- `LockRecord::new`. -/
def newCell (set : ℕ) : Registry ν × ℕ :=
  ({ r with cells := Function.update r.cells r.allocated set, allocated := r.allocated + 1 },
    r.allocated)

def realSetOf (name : ν) : Option ℕ :=
  ((r.ofRecord name).map r.cells).filter fun set => set ≠ bootstrapSet

def members (id : ℕ) : List ν := (r.active id).getD []

/-- The members of a set are replaced; nothing is done for one that is not active. -/
def setMembers (id : ℕ) (f : List ν → List ν) : Registry ν :=
  { r with active := Function.update r.active id ((r.active id).map f) }

def release (id : ℕ) : Registry ν :=
  { r with active := Function.update r.active id none, free := r.free ++ [id] }

def lockRecordOf (name : ν) : Registry ν × ℕ :=
  match r.ofRecord name with
  | some lr => (r, lr)
  | none =>
      let minted := r.makeSet [name]
      let cell := minted.1.newCell minted.2
      ({ cell.1 with ofRecord := Function.update cell.1.ofRecord name (some cell.2) }, cell.2)

def mintFor (name : ν) (lr : ℕ) : Registry ν :=
  if r.cells lr ≠ bootstrapSet then r
  else
    let minted := r.makeSet [name]
    { minted.1 with
      cells := Function.update minted.1.cells lr minted.2
      ofRecord := match minted.1.ofRecord name with
        | some _ => minted.1.ofRecord
        | none => Function.update minted.1.ofRecord name (some lr) }

def ensureSet (name : ν) : Registry ν × ℕ :=
  let cell := r.lockRecordOf name
  (cell.1.mintFor name cell.2, cell.2)

def adopt (name : ν) (lr : ℕ) : Registry ν :=
  match r.ofRecord name with
  | some existing =>
      if existing = lr then r
      else
        { r with
          cells := Function.update r.cells lr (r.cells existing)
          ofRecord := Function.update r.ofRecord name (some lr)
          revision := r.revision + 1 }
  | none =>
      let adopted := { r with ofRecord := Function.update r.ofRecord name (some lr) }
      if r.built then adopted.mintFor name lr else adopted

/-- Registration: the record's own cell is on the bootstrap set, and is adopted. -/
def register (name : ν) : Registry ν :=
  let cell := r.newCell bootstrapSet
  cell.1.adopt name cell.2

/-- One turn of `place`. -/
def placeOne (set : ℕ) (r : Registry ν) (name : ν) : Registry ν :=
  match r.ofRecord name with
  | some lr => { r with cells := Function.update r.cells lr set }
  | none =>
      let cell := r.newCell set
      { cell.1 with ofRecord := Function.update cell.1.ofRecord name (some cell.2) }

def place (names : List ν) (set : ℕ) : Registry ν :=
  names.foldl (placeOne set) { r with revision := r.revision + 1 }

def merge (first second : ν) : Registry ν :=
  match r.realSetOf first, r.realSetOf second with
  | some a, some b =>
      if a = b then r
      else
        let moved := r.members b
        let placed := { r with active := Function.update r.active b none }.place moved a
        { placed.setMembers a (· ++ moved) with free := placed.free ++ [b] }
  | _, _ => r

/-! ### Partitioning a region again -/

def names (adjacency : Adjacency ν) : Finset ν :=
  adjacency.keys ∪ adjacency.keys.biUnion fun name => (adjacency.neighbours name).toFinset

def listed : Finset ν := (Finset.range (r.nextId + 1)).biUnion fun id => (r.members id).toFinset

/-- What the region takes in with a record: its neighbours, and the records in its set. -/
def regionNext (adjacency : Adjacency ν) (name : ν) : List ν :=
  adjacency.neighbours name ++ ((r.realSetOf name).map r.members).getD []

/-- The region of `seed`. -/
def affected (adjacency : Adjacency ν) (seed : ν) : Finset ν :=
  visit (r.regionNext adjacency)
    (1 + ∑ x ∈ insert seed (names adjacency ∪ r.listed), (r.regionNext adjacency x).length) [seed] ∅

def touched (region : Finset ν) : Finset ℕ :=
  region.biUnion fun name => (r.realSetOf name).toFinset

/-- Records that the database no longer has leave the registry. -/
def dropRemoved (adjacency : Adjacency ν) (region : Finset ν) : Registry ν :=
  { r with
    ofRecord := fun name =>
      if name ∈ region ∧ name ∉ adjacency.keys then none else r.ofRecord name
    linkAdded := fun l =>
      if l.1 ∈ region ∧ l.1 ∉ adjacency.keys then none else r.linkAdded l }

def component (adjacency : Adjacency ν) (start : ν) : Finset ν :=
  visit adjacency.neighbours
    (1 + ∑ x ∈ insert start (names adjacency), (adjacency.neighbours x).length) [start] ∅

/-- One turn of the loop over the starts: a component that is not there yet. -/
def addComponent (adjacency : Adjacency ν) (components : List (Finset ν)) (start : ν) :
    List (Finset ν) :=
  if (∃ component ∈ components, start ∈ component) ∨ start ∉ adjacency.keys then components
  else components ++ [component adjacency start]

def components (adjacency : Adjacency ν) (seed : ν) (region : Finset ν) : List (Finset ν) :=
  ((if seed ∈ adjacency.keys then [seed] else []) ++ region.sort (· ≤ ·)).foldl
    (addComponent adjacency) []

/-- The one set that all records of a component are behind, unless it is kept by another. -/
def uniform (keeps : Finset ℕ) (component : Finset ν) : Option ℕ :=
  match (component.sort (· ≤ ·)).map r.realSetOf with
  | [] => none
  | first :: ids => first.filter fun id => id ∉ keeps ∧ ∀ other ∈ ids, other = some id

/-- Which set each component keeps, and which sets are kept. -/
def assign (seed : Option (ν × ℕ)) :
    Finset ℕ → List (Finset ν) → List (Finset ν × Option ℕ) × Finset ℕ
  | keeps, [] => ([], keeps)
  | keeps, component :: rest =>
      let kept := match seed.filter fun s => s.1 ∈ component with
        | some s => some s.2
        | none => r.uniform keeps component
      let others := assign seed (keeps ∪ kept.toFinset) rest
      ((component, kept) :: others.1, others.2)

/-- The member list of a component: the kept set's members first, then those of the other sets in
id order. -/
def ordered (touched : Finset ℕ) (component : Finset ν) (kept : Option ℕ) : List ν :=
  ((kept.toList ++ (touched.sort (· ≤ ·)).filter fun other => some other ≠ kept).flatMap
    r.members).filter fun name => name ∈ component

/-- The sets of the components: one is minted for each that keeps none. -/
def resolve (r : Registry ν) : List (List ν × Option ℕ) → Registry ν × List (List ν × ℕ)
  | [] => (r, [])
  | (members, some id) :: rest =>
      let others := resolve r rest
      (others.1, (members, id) :: others.2)
  | (members, none) :: rest =>
      let minted := r.makeSet []
      let others := resolve minted.1 rest
      (others.1, (members, minted.2) :: others.2)

def settle (r : Registry ν) (c : List ν × ℕ) : Registry ν :=
  (r.place c.1 c.2).setMembers c.2 fun _ => c.1

def repartition (seed : ν) (adjacency : Adjacency ν) : Registry ν :=
  match r.ofRecord seed with
  | none => r
  | some lr =>
      let seedId := r.cells lr
      let region := r.affected adjacency seed
      let touched := r.touched region
      let present := if seed ∈ adjacency.keys then some (seed, seedId) else none
      let dropped := r.dropRemoved adjacency region
      let components := components adjacency seed region
      let assigned := dropped.assign present (present.map Prod.snd).toFinset components
      let lists := assigned.1.map fun a => (dropped.ordered touched a.1 a.2, a.2)
      let minted := dropped.resolve lists
      let settled := minted.2.foldl settle minted.1
      let released := ((touched \ assigned.2).sort (· ≤ ·)).foldl release settled
      { released with revision := released.revision + 1 }

/-! ### Editing one link -/

/-- `link_added`. -/
def addLink (record : ν) (field : FieldName) : Registry ν :=
  { r with
    linksAdded := r.linksAdded + 1
    linkAdded := Function.update r.linkAdded (record, toAsciiUppercase field)
      (some (r.linksAdded + 1)) }

def removeLink (record : ν) (field : FieldName) : Registry ν :=
  { r with linkAdded := Function.update r.linkAdded (record, toAsciiUppercase field) none }

/-- When a back link was added; one without an order comes last. -/
def addedAt (link : ν × Option FieldName) : ℕ :=
  (link.2.bind fun field => r.linkAdded (link.1, field)).getD (2 ^ 64 - 1)

def walkOrder (links : DbLinks ν) : List ν :=
  links.out ++ (links.back.insertionSort fun a b => r.addedAt a ≤ r.addedAt b).map Prod.fst

/-- What the walk of a split finds next to a record. -/
def walkNext (adjacency : Adjacency ν) (name : ν) : List ν :=
  if name ∈ adjacency.keys then r.walkOrder (adjacency.links name) else []

def splitPart (first second : ν) (adjacency : Adjacency ν) : Option (List ν) :=
  if first = second ∨ ¬ (∃ a ∈ r.realSetOf first, r.realSetOf second = some a) then none
  else spread first (r.walkNext adjacency) ((insert second (names adjacency)).card + 1) 0 [second]

/-- The last part of `relink_field`: the new link, if there is one. -/
def mergeNew (record : ν) (target : Option ν) : Registry ν :=
  match target with
  | some target => r.merge record target
  | none => r

/-- A set is made, and the part leaves the list of the set that it is split from. -/
def splitOff (kept : ℕ) (part : List ν) : Registry ν × ℕ :=
  let minted := r.makeSet []
  (minted.1.setMembers kept fun members => members.filter fun name => name ∉ part, minted.2)

/-- The split when the merge that follows moves the part straight back: no cell changes. -/
def rejoin (kept : ℕ) (part : List ν) : Registry ν :=
  let left := r.splitOff kept part
  let joined := (left.1.setMembers kept fun members => members ++ part).release left.2
  { joined with revision := joined.revision + 1 }

/-- The split: the part goes behind the set that is made. -/
def moveOff (kept : ℕ) (part : List ν) : Registry ν :=
  let left := r.splitOff kept part
  (left.1.place part left.2).setMembers left.2 fun _ => part

/-- The split that removing the old link makes, and the merge of the new one. -/
def splitMerge (record : ν) (target : Option ν) (kept : ℕ) (part : List ν) : Registry ν :=
  if ∃ target' ∈ target, target' ∈ part then r.rejoin kept part
  else (r.moveOff kept part).mergeNew record target

/-- The link is forgotten, and noted again if there is a new one. -/
def noteLink (record : ν) (field : FieldName) (target : Option ν) : Registry ν :=
  let removed := r.removeLink record field
  if target.isSome then removed.addLink record field else removed

def relinkField (record : ν) (field : FieldName) (old target : Option ν) (adjacency : Adjacency ν) :
    Registry ν :=
  let part := old.bind fun old => (r.removeLink record field).splitPart record old adjacency
  let noted := r.noteLink record field target
  match part, noted.realSetOf record with
  | some part, some kept => noted.splitMerge record target kept part
  | _, _ => noted.mergeNew record target

/-! ### The build -/

def load (names : List ν) : Registry ν := names.foldl register .new

/-- One turn of `init_sets`. -/
def initSet (r : Registry ν) (name : ν) : Registry ν :=
  let cell := r.lockRecordOf name
  cell.1.mintFor name cell.2

/-- One turn of the second loop of `init_sets`. -/
def initAdopted (r : Registry ν) (name : ν) : Registry ν :=
  match r.ofRecord name with
  | some lr => r.mintFor name lr
  | none => r

/-- `init_sets`; `adopted` are the names that are registered, in order. -/
def initSets (names adopted : List ν) : Registry ν :=
  { adopted.foldl initAdopted (names.foldl initSet r) with built := true }

def edges (db : Database ν) (names : List ν) : List (ν × Option FieldName × ν) :=
  names.flatMap fun name => (db.dbLinks name).map fun l => (name, l.1, l.2)

def noteEdge (r : Registry ν) (edge : ν × Option FieldName × ν) : Registry ν :=
  match edge.2.1 with
  | some field => r.addLink edge.1 field
  | none => r

def mergeEdge (r : Registry ν) (edge : ν × Option FieldName × ν) : Registry ν :=
  r.merge edge.1 edge.2.2

/-- `build_lock_sets`. -/
def build (db : Database ν) (names adopted : List ν) : Registry ν :=
  (edges db names).foldl mergeEdge ((edges db names).foldl noteEdge (r.initSets names adopted))

end Registry

end RecordLock
