/-
**What the registry keeps, and what its operations do.**

Each registered record has a cell of its own.  Every id that was given out is active or free, and
once.  A record is listed in the set that its cell points to, once, and in no other.  The operations
are described by what they do to the set of each record.

Main result: `RecordLock.Registry.Inv.merge`.
-/

import EpicsRs.LockRegistry

set_option autoImplicit false

namespace RecordLock.Registry

open Function List Option

variable {ν : Type} {r : Registry ν} {name x y : ν} {id set c : ℕ}

/-! ### The invariant -/

/-- Each registered name has a cell of its own. -/
structure Cells (r : Registry ν) : Prop where
  lt : ∀ (name : ν) (c : ℕ), r.ofRecord name = some c → c < r.allocated
  inj : ∀ (name name' : ν) (c : ℕ), r.ofRecord name = some c → r.ofRecord name' = some c → name = name'

/-- Every id that was given out is active or free, and once. -/
structure Sets (r : Registry ν) : Prop where
  next_le : firstSetId ≤ r.nextId + 1
  active_range : ∀ id : ℕ, (r.active id).isSome → firstSetId ≤ id ∧ id ≤ r.nextId
  free_range : ∀ id ∈ r.free, firstSetId ≤ id ∧ id ≤ r.nextId
  free_nodup : r.free.Nodup
  either : ∀ id : ℕ, firstSetId ≤ id → id ≤ r.nextId → ((r.active id).isSome ↔ id ∉ r.free)

/-- A record is listed in the set that its cell points to, once, and in no other. -/
structure Listing (r : Registry ν) : Prop where
  mem_iff : ∀ (name : ν) (id : ℕ), name ∈ r.members id ↔ r.realSetOf name = some id
  nodup : ∀ id : ℕ, (r.members id).Nodup

structure Inv (r : Registry ν) : Prop extends Cells r, Sets r, Listing r

lemma realSetOf_eq_some : r.realSetOf name = some id ↔
    ∃ c, r.ofRecord name = some c ∧ r.cells c = id ∧ id ≠ bootstrapSet := by
  unfold realSetOf
  rw [filter_eq_some_iff, map_eq_some_iff]
  simp only [decide_eq_true_eq]
  constructor
  · rintro ⟨⟨c, hc, rfl⟩, hne⟩
    exact ⟨c, hc, rfl, hne⟩
  · rintro ⟨c, hc, rfl, hne⟩
    exact ⟨⟨c, hc, rfl⟩, hne⟩

lemma registered_of_realSetOf (h : r.realSetOf name = some id) : (r.ofRecord name).isSome := by
  obtain ⟨c, hc, -⟩ := realSetOf_eq_some.1 h
  rw [hc]
  rfl

lemma mem_members : name ∈ r.members id ↔ ∃ ms, r.active id = some ms ∧ name ∈ ms := by
  unfold members
  cases r.active id with
  | none => simp
  | some ms => simp

lemma Sets.ne_bootstrap (h : firstSetId ≤ id) : id ≠ bootstrapSet := by
  have hfirst : 2 ≤ id := h
  have hzero : bootstrapSet = 0 := rfl
  omega

lemma Inv.active_of_realSetOf (h : Inv r) (hx : r.realSetOf x = some id) : (r.active id).isSome := by
  obtain ⟨ms, hms, -⟩ := mem_members.1 ((h.mem_iff x id).2 hx)
  rw [hms]
  rfl

lemma Inv.active_eq (h : Inv r) (hx : r.realSetOf x = some id) :
    r.active id = some (r.members id) := by
  obtain ⟨ms, hms⟩ := isSome_iff_exists.1 (h.active_of_realSetOf hx)
  rw [members, hms, getD_some]

lemma Listing.disjoint (h : Listing r) {id'} (hne : id ≠ id') (hx : x ∈ r.members id) :
    x ∉ r.members id' := by
  intro hx'
  exact hne (some.inj (((h.mem_iff x id).1 hx).symm.trans ((h.mem_iff x id').1 hx')))

lemma Listing.registered (h : Listing r) (hx : x ∈ r.members id) : (r.ofRecord x).isSome :=
  registered_of_realSetOf ((h.mem_iff x id).1 hx)

lemma Inv.new : Inv (Registry.new : Registry ν) where
  lt := nofun
  inj := nofun
  next_le := Nat.le_refl _
  active_range := nofun
  free_range := nofun
  free_nodup := nodup_nil
  either := by
    intro id hfirst hnext
    have hle : id ≤ 1 := hnext
    have hfirst' : 2 ≤ id := hfirst
    omega
  mem_iff := by simp [Registry.new, members, realSetOf]
  nodup := fun _ => nodup_nil

/-! ### Sets -/

lemma Sets.congr {r' : Registry ν} (h : Sets r) (hnext : r'.nextId = r.nextId)
    (hactive : ∀ id, (r'.active id).isSome = (r.active id).isSome) (hfree : r'.free = r.free) :
    Sets r' where
  next_le := by rw [hnext]; exact h.next_le
  active_range := by
    intro id
    rw [hactive, hnext]
    exact h.active_range id
  free_range := by rw [hfree, hnext]; exact h.free_range
  free_nodup := by rw [hfree]; exact h.free_nodup
  either := by
    intro id
    rw [hactive, hnext, hfree]
    exact h.either id

/-- **A set that is minted or reused was not active.** -/
theorem Sets.makeSet (h : Sets r) (ms : List ν) : ∃ id free nextId revision,
    r.makeSet ms = ({ r with
      active := update r.active id (some ms)
      free := free
      nextId := nextId
      revision := revision }, id) ∧
    r.active id = none ∧ firstSetId ≤ id ∧ id ≤ nextId ∧ r.nextId ≤ nextId ∧
      Sets (r.makeSet ms).1 := by
  have hsome : ∀ id id' : ℕ, (update r.active id (some ms) id').isSome =
      (decide (id' = id) || (r.active id').isSome) := by
    intro id id'
    by_cases heq : id' = id
    · subst heq
      simp
    · simp [heq]
  unfold Registry.makeSet
  cases hfree : r.free with
  | nil =>
    have hnone : r.active (r.nextId + 1) = none := by
      cases hactive : r.active (r.nextId + 1) with
      | none => rfl
      | some ms' =>
        have hrange := h.active_range (r.nextId + 1) (by rw [hactive]; rfl)
        omega
    refine ⟨r.nextId + 1, [], r.nextId + 1, r.revision + 1, rfl, hnone, h.next_le,
      Nat.le_refl _, Nat.le_succ _, ?_⟩
    refine ⟨h.next_le.trans (Nat.le_succ _), fun id hid => ?_, ?_, ?_, fun id hfirst hle => ?_⟩
    · rw [hsome, Bool.or_eq_true, decide_eq_true_eq] at hid
      rcases hid with rfl | hid
      · exact ⟨h.next_le, Nat.le_refl _⟩
      · obtain ⟨hfirst, hle⟩ := h.active_range id hid
        exact ⟨hfirst, hle.trans (Nat.le_succ _)⟩
    · exact nofun
    · exact nodup_nil
    · rw [hsome, Bool.or_eq_true, decide_eq_true_eq]
      have hnot : id ∉ r.free := by simp [hfree]
      refine iff_of_true ?_ not_mem_nil
      by_cases heq : id = r.nextId + 1
      · exact Or.inl heq
      · have hle' : id ≤ r.nextId + 1 := hle
        exact Or.inr ((h.either id hfirst (by omega)).2 hnot)
  | cons id free =>
    have hmem : id ∈ r.free := by simp [hfree]
    obtain ⟨hfirst, hle⟩ := h.free_range id hmem
    have hnone : r.active id = none := by
      cases hactive : r.active id with
      | none => rfl
      | some ms' => exact absurd hmem ((h.either id hfirst hle).1 (by rw [hactive]; rfl))
    have hnodup := h.free_nodup
    rw [hfree, nodup_cons] at hnodup
    refine ⟨id, free, r.nextId, r.revision, rfl, hnone, hfirst, hle, Nat.le_refl _, ?_⟩
    refine ⟨h.next_le, fun id' hid => ?_, fun id' hid => ?_, hnodup.2, fun id' hfirst' hle' => ?_⟩
    · rw [hsome, Bool.or_eq_true, decide_eq_true_eq] at hid
      rcases hid with rfl | hid
      · exact ⟨hfirst, hle⟩
      · exact h.active_range id' hid
    · exact h.free_range id' (by rw [hfree]; exact mem_cons_of_mem id hid)
    · rw [hsome, Bool.or_eq_true, decide_eq_true_eq]
      have hiff := h.either id' hfirst' hle'
      rw [hfree, mem_cons, not_or] at hiff
      by_cases heq : id' = id
      · subst heq
        exact iff_of_true (Or.inl rfl) hnodup.1
      · rw [hiff]
        simp [heq]

lemma Sets.release (h : Sets r) (hid : (r.active id).isSome) : Sets (r.release id) := by
  have hsome : ∀ id' : ℕ, (update r.active id none id').isSome =
      (decide (id' ≠ id) && (r.active id').isSome) := by
    intro id'
    by_cases heq : id' = id
    · subst heq
      simp
    · simp [heq]
  obtain ⟨hfirst, hle⟩ := h.active_range id hid
  have hnot := (h.either id hfirst hle).1 hid
  refine ⟨h.next_le, fun id' hid' => ?_, fun id' hid' => ?_, ?_, fun id' hfirst' hle' => ?_⟩
  · simp only [Registry.release, hsome, Bool.and_eq_true] at hid'
    exact h.active_range id' hid'.2
  · rcases mem_append.1 hid' with hid' | hid'
    · exact h.free_range id' hid'
    · rw [mem_singleton.1 hid']
      exact ⟨hfirst, hle⟩
  · refine nodup_append.2 ⟨h.free_nodup, nodup_singleton id, fun a ha b hb hab => hnot ?_⟩
    rw [← mem_singleton.1 hb, ← hab]
    exact ha
  · simp only [Registry.release, hsome, Bool.and_eq_true, decide_eq_true_eq, mem_append,
      mem_singleton, not_or]
    rw [h.either id' hfirst' hle']
    exact And.comm

lemma Sets.setMembers (h : Sets r) (id : ℕ) (f : List ν → List ν) : Sets (r.setMembers id f) := by
  refine h.congr rfl (fun id' => ?_) rfl
  unfold Registry.setMembers
  by_cases heq : id' = id
  · subst heq
    simp
  · simp [heq]

/-! ### Placing records -/

variable [LinearOrder ν]

lemma placeOne_eq {lr} (h : r.ofRecord name = some lr) :
    placeOne set r name = { r with cells := update r.cells lr set } := by
  unfold placeOne
  rw [h]

/-- **Only the cells of the records that are placed change.** -/
theorem place_eq {names} (hreg : ∀ name ∈ names, (r.ofRecord name).isSome) (set : ℕ) :
    ∃ cells : ℕ → ℕ, r.place names set = { r with cells := cells, revision := r.revision + 1 } ∧
      (∀ c, (∃ name ∈ names, r.ofRecord name = some c) → cells c = set) ∧
      ∀ c, (∀ name ∈ names, r.ofRecord name ≠ some c) → cells c = r.cells c := by
  have hloop : ∀ (names : List ν) (q : Registry ν), (∀ name ∈ names, (q.ofRecord name).isSome) →
      ∃ cells : ℕ → ℕ, names.foldl (placeOne set) q = { q with cells := cells } ∧
        (∀ c, (∃ name ∈ names, q.ofRecord name = some c) → cells c = set) ∧
        ∀ c, (∀ name ∈ names, q.ofRecord name ≠ some c) → cells c = q.cells c := by
    intro names
    induction names with
    | nil => exact fun q _ => ⟨q.cells, rfl, nofun, fun _ _ => rfl⟩
    | cons name names ih =>
      intro q hq
      obtain ⟨lr, hlr⟩ := isSome_iff_exists.1 (hq name mem_cons_self)
      obtain ⟨cells, heq, hin, hout⟩ := ih { q with cells := update q.cells lr set }
        fun n hn => hq n (mem_cons_of_mem name hn)
      refine ⟨cells, ?_, fun c hc => ?_, fun c hc => ?_⟩
      · rw [foldl_cons, placeOne_eq hlr, heq]
      · by_cases hlater : ∃ n ∈ names, q.ofRecord n = some c
        · exact hin c hlater
        · obtain ⟨n, hn, hc⟩ := hc
          rcases mem_cons.1 hn with rfl | hn
          · obtain rfl : lr = c := some.inj (hlr.symm.trans hc)
            rw [hout lr fun n hn hc => hlater ⟨n, hn, hc⟩]
            exact update_self ..
          · exact absurd ⟨n, hn, hc⟩ hlater
      · rw [hout c fun n hn => hc n (mem_cons_of_mem name hn)]
        refine update_of_ne ?_ _ _
        rintro rfl
        exact hc name mem_cons_self hlr
  exact hloop names { r with revision := r.revision + 1 } hreg

lemma Cells.realSetOf_place (h : Cells r) {names} (hreg : ∀ name ∈ names, (r.ofRecord name).isSome)
    (hset : set ≠ bootstrapSet) (x : ν) :
    (r.place names set).realSetOf x = if x ∈ names then some set else r.realSetOf x := by
  obtain ⟨cells, heq, hin, hout⟩ := place_eq hreg set
  rw [heq]
  unfold realSetOf
  dsimp only
  split_ifs with hx
  · obtain ⟨c, hc⟩ := isSome_iff_exists.1 (hreg x hx)
    rw [hc, map_some, hin c ⟨x, hx, hc⟩, filter_some]
    simp [hset]
  · cases hc : r.ofRecord x with
    | none => rfl
    | some c =>
      rw [map_some, map_some, hout c]
      intro n hn hc'
      exact hx (h.inj n x c hc' hc ▸ hn)

/-! ### Merging -/

/-- **`merge` moves the records of one set to another.** -/
theorem Inv.merge (h : Inv r) {a b : ℕ} (hx : r.realSetOf x = some a) (hy : r.realSetOf y = some b)
    (hne : a ≠ b) :
    Inv (r.merge x y) ∧ (r.merge x y).ofRecord = r.ofRecord ∧
      (r.merge x y).nextId = r.nextId ∧ (r.merge x y).built = r.built ∧
      (∀ id, (r.merge x y).active id =
        if id = b then none else if id = a then some (r.members a ++ r.members b) else r.active id) ∧
      (∀ z, (r.merge x y).realSetOf z =
        if r.realSetOf z = some b then some a else r.realSetOf z) ∧
      ∀ c, (r.merge x y).cells c ≠ r.cells c → ∃ z ∈ r.members b, r.ofRecord z = some c := by
  have ha := h.active_eq hx
  have hb := h.active_eq hy
  have hreg : ∀ z ∈ r.members b, (r.ofRecord z).isSome := fun z hz => h.toListing.registered hz
  have ha0 : a ≠ bootstrapSet := (realSetOf_eq_some.1 hx).choose_spec.2.2
  have hmerge : r.merge x y =
      { ({ r with active := update r.active b none }.place (r.members b) a).setMembers a
          (· ++ r.members b) with
        free := ({ r with active := update r.active b none }.place (r.members b) a).free ++
          [b] } := by
    unfold Registry.merge
    rw [hx, hy]
    dsimp only
    rw [if_neg hne]
  set q : Registry ν := { r with active := update r.active b none } with hq
  have hqcells : Cells q := ⟨h.lt, h.inj⟩
  have hset := hqcells.realSetOf_place hreg ha0
  obtain ⟨cells, heq, hin, hout⟩ := place_eq (r := q) hreg a
  rw [heq] at hmerge hset
  have hactive : ∀ id, (r.merge x y).active id =
      if id = b then none else if id = a then some (r.members a ++ r.members b) else r.active id := by
    intro id
    rw [hmerge]
    simp only [setMembers, hq]
    by_cases hidb : id = b
    · subst hidb
      rw [if_pos rfl, update_of_ne hne.symm, update_self]
    · rw [if_neg hidb]
      by_cases hida : id = a
      · subst hida
        rw [if_pos rfl, update_self, update_of_ne hne, ha, map_some]
      · rw [if_neg hida, update_of_ne hida, update_of_ne hidb]
  have hreal : ∀ z, (r.merge x y).realSetOf z =
      if r.realSetOf z = some b then some a else r.realSetOf z := by
    intro z
    have hz := hset z
    have hfold : (r.merge x y).realSetOf z = Registry.realSetOf { q with
        cells := cells
        revision := q.revision + 1 } z := by
      rw [hmerge]
      rfl
    rw [hfold, hz]
    simp only [h.mem_iff]
    rfl
  have hofRecord : (r.merge x y).ofRecord = r.ofRecord := by rw [hmerge]; rfl
  refine ⟨⟨⟨?_, ?_⟩, ?_, ⟨fun z id => ?_, fun id => ?_⟩⟩, hofRecord, by rw [hmerge]; rfl,
    by rw [hmerge]; rfl, hactive, hreal, fun c hc => ?_⟩
  · intro z c hz
    rw [hofRecord] at hz
    rw [hmerge]
    exact h.lt z c hz
  · intro z z' c hz hz'
    rw [hofRecord] at hz hz'
    exact h.inj z z' c hz hz'
  · -- the ids are those of a release
    have hsets : Sets (r.release b) := h.toSets.release (by rw [hb]; rfl)
    refine hsets.congr (by rw [hmerge]; rfl) (fun id => ?_) (by rw [hmerge]; rfl)
    rw [hactive]
    simp only [Registry.release]
    by_cases hidb : id = b
    · subst hidb
      simp
    · rw [if_neg hidb, update_of_ne hidb]
      split_ifs with hida
      · rw [hida, ha]
        rfl
      · rfl
  · rw [hreal, members, hactive]
    by_cases hidb : id = b
    · subst hidb
      rw [if_pos rfl]
      refine iff_of_false not_mem_nil ?_
      split_ifs with hz
      · exact fun heq => hne (some.inj heq)
      · exact hz
    · rw [if_neg hidb]
      by_cases hida : id = a
      · subst hida
        rw [if_pos rfl, getD_some, mem_append, h.mem_iff, h.mem_iff]
        split_ifs with hz
        · simp [hz]
        · simp [hz]
      · rw [if_neg hida]
        change z ∈ r.members id ↔ _
        rw [h.mem_iff]
        split_ifs with hz
        · rw [hz]
          simp only [some.injEq]
          exact ⟨fun heq => absurd heq.symm hidb, fun heq => absurd heq.symm hida⟩
        · rfl
  · rw [members, hactive]
    split_ifs with hidb hida
    · exact nodup_nil
    · rw [getD_some, nodup_append]
      exact ⟨h.nodup a, h.nodup b, fun z hz z' hz' heq =>
        h.toListing.disjoint hne hz (heq ▸ hz')⟩
    · exact h.nodup id
  · by_contra hnone
    refine hc ?_
    rw [hmerge]
    exact hout c fun z hz hzc => hnone ⟨z, hz, hzc⟩

end RecordLock.Registry
