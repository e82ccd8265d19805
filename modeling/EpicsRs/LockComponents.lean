/-
**The lock sets are the components of the link graph.**

The operations of an IOC on its lock sets, one after another: the build, the edit of a link field, a
record that is added or removed, an alias, and the partners that a device declares.  Each comes with the adjacency
that `relink_lock_sets` has read: over the records of some sets, with no link out of them, and without the
link that is edited.

Main result: `RecordLock.lock_sets_are_components`.
-/

import EpicsRs.LockPartition

set_option autoImplicit false

namespace RecordLock

open GraphWalk Registry Option

variable {ν : Type} [LinearOrder ν] {db db' : Database ν} {r : Registry ν} {x y : ν}

/-! ### The operations -/

/-- The records whose links are read: all records of some sets, that of `record` among them. -/
structure SetsRead (db : Database ν) (r : Registry ν) (names : List ν) (record : ν) : Prop where
  subset : ∀ x ∈ names, x ∈ db.records
  mem : record ∈ db.records → record ∈ names
  sets : ∀ x ∈ names, ∀ y ∈ db.records, r.realSetOf x = r.realSetOf y → y ∈ names

/-- The links between other records are as before. -/
def SameAway (name : ν) (db db' : Database ν) : Prop :=
  ∀ x y, x ≠ name → y ≠ name → (db.Edge x y ↔ db'.Edge x y)

def Database.setLockPartners (db : Database ν) (record : ν) (partners : List ν) : Database ν :=
  { db with
    partners := Function.update db.partners record (partners.filter fun name => name ≠ record) }

/-- The databases and registries that the operations lead to. -/
inductive Reachable : Database ν → Registry ν → Prop
  | build {db loaded names adopted}
      (hloaded : ∀ x, x ∈ loaded ↔ x ∈ db.records) (hnames : ∀ x, x ∈ names ↔ x ∈ db.records)
      (hadopted : ∀ x ∈ adopted, x ∈ db.records) :
      Reachable db ((load loaded).build db names adopted)
  | editLink {db : Database ν} {r} (record : ν) (field : FieldName) (target : Option ν)
      {names} (h : Reachable db r) (hrecord : record ∈ db.records)
      (hread : SetsRead db r names record) :
      Reachable (db.setField record field target)
        (r.relinkField record field (db.dbLinkOf record field)
          ((db.setField record field target).dbLinkOf record field)
          ((db.setField record field target).adjacencyOf names (some (record, field))))
  | add {db db' : Database ν} {r} (name : ν) {names} (h : Reachable db r)
      (hnew : name ∉ db.records) (hrecords : db'.records = insert name db.records)
      (hsame : SameAway name db db') (hnames : ∀ x, x ∈ names ↔ x ∈ db'.records) :
      Reachable db' ((r.register name).repartition name (db'.adjacencyOf names none))
  | remove {db db' : Database ν} {r} (name : ν) {names} (h : Reachable db r)
      (hrecords : db'.records = db.records.erase name) (hsame : SameAway name db db')
      (hnames : ∀ x, x ∈ names ↔ x ∈ db'.records) :
      Reachable db' (r.repartition name (db'.adjacencyOf names none))
  | addAlias {db db' : Database ν} {r} (name : ν) {names} (h : Reachable db r)
      (hrecords : db'.records = db.records) (hsame : SameAway name db db')
      (hnames : ∀ x, x ∈ names ↔ x ∈ db'.records) :
      Reachable db' (r.repartition name (db'.adjacencyOf names none))
  | declare {db : Database ν} {r} (record : ν) (partners : List ν) {names}
      (h : Reachable db r) (hread : SetsRead db r names record)
      (hout : ∀ x ∈ names, ∀ y, (db.setLockPartners record partners).Edge x y → y ∈ names) :
      Reachable (db.setLockPartners record partners)
        (r.repartition record ((db.setLockPartners record partners).adjacencyOf names none))

/-! ### Each operation keeps the partition -/

lemma edge_ends (db : Database ν) : ∀ x y, db.Edge x y → x ∈ db.records ∧ y ∈ db.records :=
  fun _ _ h => ⟨h.1, h.target_mem⟩

variable {names : List ν}

/-- An adjacency over names that no link enters or leaves has what `repartition` looks at. -/
lemma covers_adjacencyOf {seed} (hinv : Inv r)
    (hreal : ∀ x id, r.realSetOf x = some id → x = seed ∨ x ∈ db.records)
    (hsubset : ∀ x ∈ names, x ∈ db.records) (hmem : seed ∈ db.records → seed ∈ names)
    (hclosed : ∀ x, x = seed ∨ x ∈ names → ∀ y ∈ db.records, r.realSetOf x = r.realSetOf y → y ∈ names)
    (hlinks : ∀ x ∈ names, ∀ y, db.Edge x y ∨ db.Edge y x → y ∈ names) :
    Covers r (db.adjacencyOf names none) seed db.records db.Edge := by
  have hneighbours : ∀ x y, y ∈ (db.adjacencyOf names none).neighbours x ↔
      x ∈ names ∧ (db.Edge x y ∨ db.Edge y x) := by
    intro x y
    rw [Database.mem_neighbours_adjacencyOf]
    constructor
    · rintro (⟨hx, hlink⟩ | ⟨hy, hlink⟩)
      · exact ⟨hx, Or.inl ⟨hsubset x hx, hlink⟩⟩
      · have hedge : db.Edge y x := ⟨hsubset y hy, hlink⟩
        exact ⟨hlinks y hy x (Or.inl hedge), Or.inr hedge⟩
    · rintro ⟨hx, hedge | hedge⟩
      · exact Or.inl ⟨hx, hedge.2⟩
      · exact Or.inr ⟨hlinks x hx y (Or.inr hedge), hedge.2⟩
  have hregion : ∀ x ∈ r.affected (db.adjacencyOf names none) seed, x = seed ∨ x ∈ names := by
    intro x hx
    rw [mem_affected hinv.toSets] at hx
    induction hx with
    | refl => exact Or.inl rfl
    | @tail u v _ hstep ih =>
      rcases mem_regionNext.1 hstep with hnear | ⟨id, hid, hv⟩
      · obtain ⟨hu, hedge⟩ := (hneighbours u v).1 hnear
        exact Or.inr (hlinks u hu v hedge)
      · have hvid := (hinv.mem_iff v id).1 hv
        exact (hreal v id hvid).imp_right fun hv' => hclosed u ih v hv' (hid.trans hvid.symm)
  have hnames : ∀ x ∈ r.affected (db.adjacencyOf names none) seed, x ∈ db.records → x ∈ names := by
    intro x hx hrecord
    rcases hregion x hx with rfl | hx
    · exact hmem hrecord
    · exact hx
  obtain ⟨-, hkeys, hkeys', -⟩ := Database.adjacencyOf_spec db names none
  refine ⟨fun x y hxy => ?_, fun x hx => ⟨fun hkey => ?_, fun hrecord => ?_⟩, fun x hx hrecord y => ?_⟩
  · obtain ⟨hx, hedge⟩ := (hneighbours x y).1 hxy
    exact (hneighbours y x).2 ⟨hlinks x hx y hedge, hedge.symm⟩
  · exact (hkeys' x hkey).elim (hsubset x) fun hrecord => hrecord
  · exact hkeys x (hnames x hx hrecord)
  · rw [hneighbours]
    exact and_iff_right (hnames x hx hrecord)

lemma covers_all {seed} (hinv : Inv r)
    (hreal : ∀ x id, r.realSetOf x = some id → x = seed ∨ x ∈ db.records)
    (hnames : ∀ x, x ∈ names ↔ x ∈ db.records) :
    Covers r (db.adjacencyOf names none) seed db.records db.Edge := by
  refine covers_adjacencyOf hinv hreal (fun x => (hnames x).1) (hnames seed).2
    (fun x _ y hy _ => (hnames y).2 hy) fun x _ y hedge => (hnames y).2 ?_
  exact hedge.elim (fun h => (edge_ends db x y h).2) fun h => (edge_ends db y x h).1

lemma repartition_of_unregistered {seed} (h : r.ofRecord seed = none) (adjacency : Adjacency ν)
    : r.repartition seed adjacency = r := by
  unfold Registry.repartition
  rw [h]

lemma Partitions.unregistered (h : Partitions r db.records db.Edge) {name}
    (hname : name ∉ db.records) : r.ofRecord name = none := by
  cases hc : r.ofRecord name with
  | none => rfl
  | some c => exact absurd ((h.registered name).1 (by rw [hc]; rfl)) hname

lemma Partitions.membership (h : Partitions r db.records db.Edge) {name}
    (hrecords : ∀ x, x ≠ name → (x ∈ db.records ↔ x ∈ db'.records))
    (hgone : name ∉ db.records → name ∉ db'.records) (hsame : SameAway name db db')
    (hnames : ∀ x, x ∈ names ↔ x ∈ db'.records) :
    Partitions (r.repartition name (db'.adjacencyOf names none)) db'.records db'.Edge := by
  by_cases hname : name ∈ db.records
  · have hinsert : insert name db.records = db.records := Finset.insert_eq_of_mem hname
    refine Partitions.repartition (by rw [hinsert]; exact h) hrecords hsame (edge_ends db')
      (covers_all h.toInv (fun x id hx => ?_) hnames)
    by_cases hxn : x = name
    · exact Or.inl hxn
    · exact Or.inr ((hrecords x hxn).1 (h.mem_of_real hx))
  · rw [repartition_of_unregistered (Partitions.unregistered h hname)]
    have heq : db'.records = db.records := by
      ext x
      by_cases hxn : x = name
      · subst hxn
        exact iff_of_false (hgone hname) hname
      · exact (hrecords x hxn).symm
    rw [heq]
    refine h.congr fun x y => joined_congr fun x y => ⟨fun he => ?_, fun he => ?_⟩
    · obtain ⟨hx, hy⟩ := edge_ends db x y he
      exact (hsame x y (ne_of_mem_of_not_mem hx hname) (ne_of_mem_of_not_mem hy hname)).1 he
    · obtain ⟨hx, hy⟩ := edge_ends db' x y he
      have hname' := hgone hname
      exact (hsame x y (ne_of_mem_of_not_mem hx hname') (ne_of_mem_of_not_mem hy hname')).2 he

lemma Partitions.add (h : Partitions r db.records db.Edge) {name} (hnew : name ∉ db.records)
    (hrecords : db'.records = insert name db.records) (hsame : SameAway name db db')
    (hnames : ∀ x, x ∈ names ↔ x ∈ db'.records) :
    Partitions ((r.register name).repartition name (db'.adjacencyOf names none)) db'.records
      db'.Edge := by
  have hregistered := h.register hnew (edge_ends db)
  refine hregistered.repartition (fun x hx => ?_) hsame (edge_ends db')
    (covers_all hregistered.toInv (fun x id hx => ?_) hnames)
  · rw [hrecords, Finset.mem_insert]
    exact (or_iff_right hx).symm
  · refine Or.inr ?_
    rw [hrecords]
    exact hregistered.mem_of_real hx

lemma edge_setLockPartners {record partners} (hx : x ≠ record) :
    (db.setLockPartners record partners).Edge x y ↔ db.Edge x y := by
  have hlinks : (db.setLockPartners record partners).dbLinks x = db.dbLinks x := by
    unfold Database.dbLinks Database.setLockPartners
    dsimp only
    rw [Function.update_of_ne hx]
  unfold Database.Edge Database.Links
  rw [hlinks]
  exact Iff.rfl

lemma Partitions.declare (h : Partitions r db.records db.Edge) {record partners}
    (hread : SetsRead db r names record)
    (hout : ∀ x ∈ names, ∀ y, (db.setLockPartners record partners).Edge x y → y ∈ names) :
    Partitions (r.repartition record ((db.setLockPartners record partners).adjacencyOf names none))
      db.records (db.setLockPartners record partners).Edge := by
  have hsame : SameAway record db (db.setLockPartners record partners) :=
    fun x y hx _ => (edge_setLockPartners hx).symm
  by_cases hrecord : record ∈ db.records
  · have hinsert : insert record db.records = db.records := Finset.insert_eq_of_mem hrecord
    have hmem := hread.mem hrecord
    have hold : ∀ x y, db.Edge x y → r.realSetOf x = r.realSetOf y := fun x y he =>
      (h.same x (edge_ends db x y he).1 y (edge_ends db x y he).2).2 (Joined.of_edge he)
    have hbefore : Partitions r (insert record db.records) db.Edge := by
      rw [hinsert]
      exact h
    refine hbefore.repartition (fun x _ => Iff.rfl) hsame
      (edge_ends (db.setLockPartners record partners)) ?_
    refine covers_adjacencyOf h.toInv (fun x id hx => Or.inr (h.mem_of_real hx)) hread.subset
      (fun _ => hmem) (fun x hx y hy hxy => ?_) fun x hx y hedge => ?_
    · rcases hx with rfl | hx
      · exact hread.sets x hmem y hy hxy
      · exact hread.sets x hx y hy hxy
    · rcases hedge with hedge | hedge
      · exact hout x hx y hedge
      · -- a link of another record was there before, so it is inside the sets
        by_cases hy : y = record
        · exact hy ▸ hmem
        · have hedge' := (edge_setLockPartners hy).1 hedge
          exact hread.sets x hx y hedge'.1 (hold y x hedge').symm
  · rw [repartition_of_unregistered (Partitions.unregistered h hrecord)]
    refine h.congr fun x y => joined_congr fun x y => ⟨fun he => ?_, fun he => ?_⟩
    · exact (edge_setLockPartners (ne_of_mem_of_not_mem he.1 hrecord)).2 he
    · have hx : x ∈ db.records := he.1
      exact (edge_setLockPartners (ne_of_mem_of_not_mem hx hrecord)).1 he

lemma Partitions.editLink (h : Partitions r db.records db.Edge) {record field target} (hrecord : record ∈ db.records) (hread : SetsRead db r names record) :
    Partitions (r.relinkField record field (db.dbLinkOf record field)
    ((db.setField record field target).dbLinkOf record field)
    ((db.setField record field target).adjacencyOf names (some (record, field))))
      db.records (db.setField record field target).Edge := by
  -- the graph without the link
  set e : ν → ν → Prop := fun x y => x ∈ db.records ∧ db.Links (some (record, field)) x y with he
  have hedge : ∀ x y, db.Edge x y ↔ e x y ∨ x = record ∧ db.dbLinkOf record field = some y := by
    intro x y
    unfold Database.Edge
    rw [Database.links_iff record field, and_or_left]
    refine or_congr_right ⟨And.right, fun hx => ⟨hx.1 ▸ hrecord, hx⟩⟩
  have hedge' : ∀ x y, (db.setField record field target).Edge x y ↔
      e x y ∨ x = record ∧ (db.setField record field target).dbLinkOf record field = some y := by
    intro x y
    unfold Database.Edge
    rw [Database.links_iff record field, and_or_left, Database.links_setField]
    refine or_congr_right ⟨And.right, fun hx => ⟨hx.1 ▸ hrecord, hx⟩⟩
  have hends : ∀ x y, e x y → x ∈ db.records ∧ y ∈ db.records := fun x y hxy =>
    edge_ends db x y ((hedge x y).2 (Or.inl hxy))
  have hbefore := h.congr fun x y => joined_congr hedge
  refine (hbefore.relinkField hends hrecord (fun o ho => ?_) (fun t ht => ?_) fun x hx y => ?_).congr
    fun x y => (joined_congr hedge').symm
  · exact (edge_ends db record o ((hedge record o).2 (Or.inr ⟨rfl, ho⟩))).2
  · exact (edge_ends (db.setField record field target) record t
      ((hedge' record t).2 (Or.inr ⟨rfl, ht⟩))).2
  · have hin : ∀ z ∈ db.records, r.realSetOf z = r.realSetOf record → z ∈ names := fun z hz hzr =>
      hread.sets record (hread.mem hrecord) z hz hzr.symm
    obtain ⟨id, hid⟩ := isSome_iff_exists.1 (h.real record hrecord)
    have hxnames := hin x (h.mem_of_real (hx.trans hid)) hx
    rw [Database.mem_neighbours_adjacencyOf, Database.links_setField, Database.links_setField]
    constructor
    · rintro (⟨hx', hlink⟩ | ⟨hy', hlink⟩)
      · exact Or.inl ⟨hread.subset x hx', hlink⟩
      · exact Or.inr ⟨hread.subset y hy', hlink⟩
    · rintro (hxy | hyx)
      · exact Or.inl ⟨hxnames, hxy.2⟩
      · have hold := (h.same y (hends y x hyx).1 x (hends y x hyx).2).2
          (Joined.of_edge ((hedge y x).2 (Or.inl hyx)))
        exact Or.inr ⟨hin y hyx.1 (hold.trans hx), hyx.2⟩

/-- **After each operation the registry partitions the records by the link graph.** -/
theorem Reachable.partitions (h : Reachable db r) : Partitions r db.records db.Edge := by
  induction h with
  | build hloaded hnames hadopted => exact partitions_build _ hloaded hnames hadopted
  | editLink record field target _ hrecord hread ih => exact Partitions.editLink ih hrecord hread
  | add name _ hnew hrecords hsame hnames ih => exact Partitions.add ih hnew hrecords hsame hnames
  | remove name _ hrecords hsame hnames ih =>
    refine Partitions.membership ih (fun x hx => ?_) (fun _ => ?_) hsame hnames
    · rw [hrecords, Finset.mem_erase]
      exact (and_iff_right hx).symm
    · rw [hrecords]
      exact Finset.notMem_erase name _
  | addAlias name _ hrecords hsame hnames ih =>
    refine Partitions.membership ih (fun x _ => ?_) (fun hname => ?_) hsame hnames
    · rw [hrecords]
    · rw [hrecords]
      exact hname
  | declare record partners _ hread hout ih => exact Partitions.declare ih hread hout

/-- **Two records are in one active set exactly if the link graph joins them.**  Each record is listed
once, in the set that its cell points to, and only records are listed.  Each set that was minted is
active, with members, or it is on the free list, once. -/
theorem lock_sets_are_components (h : Reachable db r) :
    (∀ x ∈ db.records, ∀ y ∈ db.records,
      ((∃ id, x ∈ r.members id ∧ y ∈ r.members id) ↔ Joined db.Edge x y)) ∧
    (∀ x ∈ db.records, ∃ c, r.ofRecord x = some c ∧ (r.members (r.cells c)).count x = 1 ∧
      ∀ id, id ≠ r.cells c → x ∉ r.members id) ∧
    (∀ id, ∀ x ∈ r.members id, x ∈ db.records) ∧
    (∀ id, firstSetId ≤ id → id ≤ r.nextId →
      (∃ ms, r.active id = some ms ∧ ms ≠ [] ∧ id ∉ r.free) ∨
        r.active id = none ∧ r.free.count id = 1) ∧
    ∀ id, (r.active id).isSome ∨ id ∈ r.free → firstSetId ≤ id ∧ id ≤ r.nextId := by
  have P := h.partitions
  refine ⟨fun x hx y hy => ?_, fun x hx => ?_, fun id x hx => ?_, fun id hfirst hle => ?_,
    fun id hid => hid.elim (P.active_range id) (P.free_range id)⟩
  · rw [← P.same x hx y hy]
    constructor
    · rintro ⟨id, hxid, hyid⟩
      exact ((P.mem_iff x id).1 hxid).trans ((P.mem_iff y id).1 hyid).symm
    · intro heq
      obtain ⟨id, hid⟩ := isSome_iff_exists.1 (P.real x hx)
      exact ⟨id, (P.mem_iff x id).2 hid, (P.mem_iff y id).2 (heq ▸ hid)⟩
  · obtain ⟨id, hid⟩ := isSome_iff_exists.1 (P.real x hx)
    obtain ⟨c, hc, rfl, -⟩ := realSetOf_eq_some.1 hid
    have hmem := (P.mem_iff x (r.cells c)).2 hid
    refine ⟨c, hc, List.count_eq_one_of_mem (P.nodup _) hmem, fun id hne => ?_⟩
    exact P.toListing.disjoint hne.symm hmem
  · exact P.mem_of_real ((P.mem_iff x id).1 hx)
  · cases hactive : r.active id with
    | none =>
      have hfree : id ∈ r.free := by
        by_contra hnot
        have hsome := (P.either id hfirst hle).2 hnot
        rw [hactive] at hsome
        exact absurd hsome nofun
      exact Or.inr ⟨rfl, List.count_eq_one_of_mem P.free_nodup hfree⟩
    | some ms =>
      refine Or.inl ⟨ms, rfl, fun hempty => P.full id (hempty ▸ hactive), ?_⟩
      exact (P.either id hfirst hle).1 (by rw [hactive]; rfl)

def linkedPair : Database ℕ where
  records := {0, 1, 2}
  fields := Function.update (fun _ => []) 0 [([73, 78, 80], some 1)]
  partners := fun _ => []
  distinct := by
    intro record
    by_cases h : record = 0
    · subst h
      rw [Function.update_self]
      exact List.nodup_singleton _
    · rw [Function.update_of_ne h]
      exact List.nodup_nil

/-- Retargeted to the third record, the first is in one set with it. -/
theorem lock_sets_are_components_retargeted :
    ∃ id, 0 ∈ Registry.members (((load [0, 1, 2]).build linkedPair [0, 1, 2] []).relinkField 0
        [73, 78, 80] (linkedPair.dbLinkOf 0 [73, 78, 80])
        ((linkedPair.setField 0 [73, 78, 80] (some 2)).dbLinkOf 0 [73, 78, 80])
        ((linkedPair.setField 0 [73, 78, 80] (some 2)).adjacencyOf [0, 1, 2]
          (some (0, [73, 78, 80])))) id ∧
      2 ∈ Registry.members (((load [0, 1, 2]).build linkedPair [0, 1, 2] []).relinkField 0
        [73, 78, 80] (linkedPair.dbLinkOf 0 [73, 78, 80])
        ((linkedPair.setField 0 [73, 78, 80] (some 2)).dbLinkOf 0 [73, 78, 80])
        ((linkedPair.setField 0 [73, 78, 80] (some 2)).adjacencyOf [0, 1, 2]
          (some (0, [73, 78, 80])))) id := by
  have hnames : ∀ x, x ∈ [0, 1, 2] ↔ x ∈ linkedPair.records := by simp [linkedPair]
  have hbuilt : Reachable linkedPair ((load [0, 1, 2]).build linkedPair [0, 1, 2] []) :=
    .build hnames hnames (by simp)
  have hread : SetsRead linkedPair ((load [0, 1, 2]).build linkedPair [0, 1, 2] []) [0, 1, 2] 0 :=
    ⟨fun x => (hnames x).1, (hnames 0).2, fun _ _ y hy _ => (hnames y).2 hy⟩
  have hrun := Reachable.editLink 0 [73, 78, 80] (some 2) hbuilt ((hnames 0).1 (by simp)) hread
  refine ((lock_sets_are_components hrun).1 0 ((hnames 0).1 (by simp)) 2 ((hnames 2).1 (by simp))).2 ?_
  refine Joined.of_edge ⟨(hnames 0).1 (by simp), some [73, 78, 80], ?_, rfl⟩
  rw [Database.mem_dbLinks]
  refine ⟨(hnames 2).1 (by simp), Or.inl ⟨(hnames 0).1 (by simp), _, rfl, ?_⟩⟩
  simp [Database.setField, Database.writeField, linkedPair, eqIgnoreAsciiCase]

end RecordLock
