/-
**Lock sets as the components of a graph.**

The registry partitions a set of names by a graph when two names are behind one set exactly if the graph
joins them.  Each operation takes a partition by one graph to the partition by another: a merge adds an
edge, the edit of a link removes one and adds one, and `repartition` follows any change of the edges of
its seed.

Main results: `RecordLock.Registry.Partitions.merge`, `RecordLock.Registry.Partitions.relinkField`,
`RecordLock.Registry.Partitions.repartition`, `RecordLock.Registry.partitions_build`.
-/

import EpicsRs.LockRegistrySplit
import EpicsRs.LockRepartition

set_option autoImplicit false

namespace RecordLock.Registry

open GraphWalk Function List

variable {ν : Type} {r : Registry ν} {N N' : Finset ν} {e e' : ν → ν → Prop} {x y : ν}

/-- The names of `N` are registered, and two of them are behind one set if `e` joins them.  No set is
empty. -/
structure Partitions (r : Registry ν) (N : Finset ν) (e : ν → ν → Prop) : Prop extends Inv r where
  registered : ∀ x, (r.ofRecord x).isSome ↔ x ∈ N
  real : ∀ x ∈ N, (r.realSetOf x).isSome
  full : ∀ id, r.active id ≠ some []
  same : ∀ x ∈ N, ∀ y ∈ N, (r.realSetOf x = r.realSetOf y ↔ Joined e x y)
  built : r.built = true

lemma Partitions.congr (h : Partitions r N e) (he : ∀ x y, Joined e x y ↔ Joined e' x y) :
    Partitions r N e' where
  toInv := h.toInv
  registered := h.registered
  real := h.real
  full := h.full
  same := fun x hx y hy => (h.same x hx y hy).trans (he x y)
  built := h.built

lemma Partitions.mem_of_real (h : Partitions r N e) {id} (hx : r.realSetOf x = some id) :
    x ∈ N :=
  (h.registered x).1 (registered_of_realSetOf hx)

lemma Partitions.noted (h : Partitions r N e) (linkAdded : ν × FieldName → Option ℕ)
    (linksAdded : ℕ) : Partitions { r with linkAdded, linksAdded } N e where
  toInv := h.toInv.congr rfl rfl rfl rfl (Nat.le_refl _) rfl
  registered := h.registered
  real := h.real
  full := h.full
  same := h.same
  built := h.built

variable [LinearOrder ν]

/-! ### Merging -/

/-- **A merge adds an edge.** -/
theorem Partitions.merge (h : Partitions r N e) {a b} (ha : a ∈ N) (hb : b ∈ N) :
    Partitions (r.merge a b) N fun x y => e x y ∨ x = a ∧ y = b := by
  obtain ⟨ia, hia⟩ := Option.isSome_iff_exists.1 (h.real a ha)
  obtain ⟨ib, hib⟩ := Option.isSome_iff_exists.1 (h.real b hb)
  by_cases heq : ia = ib
  · subst heq
    have hmerge : r.merge a b = r := by
      unfold Registry.merge
      rw [hia, hib]
      exact if_pos rfl
    rw [hmerge]
    refine h.congr fun x y => (joined_addEdge_of_joined ?_).symm
    exact (h.same a ha b hb).1 (hia.trans hib.symm)
  · obtain ⟨hinv, hof, -, hbuilt, hactive, hreal, -⟩ := h.toInv.merge hia hib heq
    have hjoined : ∀ z ∈ N, (Joined e z a ↔ r.realSetOf z = some ia) ∧
        (Joined e z b ↔ r.realSetOf z = some ib) := by
      intro z hz
      rw [← h.same z hz a ha, ← h.same z hz b hb, hia, hib]
      exact ⟨Iff.rfl, Iff.rfl⟩
    have hsymm : ∀ {u v : ν}, Joined e u v ↔ Joined e v u := ⟨.symm, .symm⟩
    refine ⟨hinv, ?_, fun x hx => ?_, fun id hid => ?_, fun x hx y hy => ?_, ?_⟩
    · rw [hof]
      exact h.registered
    · rw [hreal]
      split_ifs
      · rfl
      · exact h.real x hx
    · rw [hactive] at hid
      split_ifs at hid with hidb hida
      · have hmem : a ∈ r.members ia := (h.mem_iff a ia).2 hia
        rw [Option.some.injEq, append_eq_nil_iff] at hid
        exact not_mem_nil (hid.1 ▸ hmem)
      · exact h.full id hid
    · rw [hreal, hreal, joined_addEdge, ← h.same x hx y hy, (hjoined x hx).1, (hjoined x hx).2,
        hsymm (u := b), hsymm (u := a), (hjoined y hy).1, (hjoined y hy).2]
      -- the records of the set that is merged away count as those of the other
      have hne : some ib ≠ some ia := fun heq' => heq (Option.some.inj heq').symm
      by_cases hx' : r.realSetOf x = some ib
      · by_cases hy' : r.realSetOf y = some ib
        · simp [hx', hy']
        · rw [if_pos hx', if_neg hy', hx']
          simp only [hne, Ne.symm hy', false_and, true_and, false_or]
          exact eq_comm
      · by_cases hy' : r.realSetOf y = some ib
        · rw [if_neg hx', if_pos hy', hy']
          simp only [hne, hx', and_true, and_false, or_false, false_or]
        · rw [if_neg hx', if_neg hy']
          simp only [hx', hy', false_and, and_false, or_false]
    · rw [hbuilt]
      exact h.built

variable {record : ν}

lemma Partitions.mergeNew (h : Partitions r N e) {target} (hrecord : record ∈ N)
    (htarget : ∀ t ∈ target, t ∈ N) :
    Partitions (r.mergeNew record target) N fun x y => e x y ∨ x = record ∧ target = some y := by
  cases target with
  | none => exact h.congr fun x y => joined_congr fun x y => by simp
  | some t =>
    refine (h.merge hrecord (htarget t rfl)).congr fun x y => joined_congr fun x y => ?_
    simp only [Option.some.injEq, eq_comm]

/-! ### Splitting -/

omit [LinearOrder ν] in
lemma mem_walkOrder {links} : y ∈ r.walkOrder links ↔ y ∈ links.neighbours := by
  unfold walkOrder DbLinks.neighbours
  rw [mem_append, mem_append, mem_map, mem_map]
  simp only [mem_insertionSort]

variable {adjacency : Adjacency ν}

lemma mem_walkNext :
    y ∈ r.walkNext adjacency x ↔ y ∈ adjacency.neighbours x := by
  unfold walkNext Adjacency.neighbours
  split_ifs
  · exact mem_walkOrder
  · exact Iff.rfl

/-- `split_part` lists what the walk from `o` reaches, each record once, and never `record`. -/
lemma splitPart_eq_some {o part} (h : r.splitPart record o adjacency = some part) :
    part.Nodup ∧ record ∉ part ∧ (∀ y, y ∈ part ↔ Reach (r.walkNext adjacency) o y) ∧
      r.realSetOf o = r.realSetOf record := by
  unfold splitPart at h
  split_ifs at h with hcond
  obtain ⟨hne, hsame⟩ := not_or.1 hcond
  obtain ⟨a, ha, hoa⟩ := not_not.1 hsame
  have hclosed : ∀ x ∈ insert o (names adjacency), ∀ y ∈ r.walkNext adjacency x,
      y ∈ insert o (names adjacency) := fun x _ y hy =>
    Finset.mem_insert_of_mem (neighbour_mem_names (mem_walkNext.1 hy))
  obtain ⟨hnodup, hnot, hmem⟩ :=
    spread_eq_some hclosed (Finset.mem_insert_self ..) (Ne.symm hne) (Nat.le_refl _) h
  exact ⟨hnodup, hnot, hmem, hoa.trans (Option.mem_def.1 ha).symm⟩

/-- The graph without the edited link, as the adjacency has it in the set of `record`. -/
structure Around (r : Registry ν) (adjacency : Adjacency ν) (e : ν → ν → Prop) (record : ν) : Prop where
  near : ∀ x, r.realSetOf x = r.realSetOf record →
    ∀ y, (y ∈ adjacency.neighbours x ↔ e x y ∨ e y x)
  within : ∀ x y, r.realSetOf x = r.realSetOf record → e x y ∨ e y x →
    r.realSetOf y = r.realSetOf record

/-- In the set of `record` the walk finds what the graph joins. -/
lemma Around.reach {o} (h : Around r adjacency e record) (ho : r.realSetOf o = r.realSetOf record)
    (y : ν) :
    (Reach (r.walkNext adjacency) o y ↔ Joined e o y) ∧
      (Joined e o y → r.realSetOf y = r.realSetOf record) := by
  have hwithin : ∀ z, Joined e o z → r.realSetOf z = r.realSetOf record :=
    fun z hz => hz.mem_of_closed (P := fun z => r.realSetOf z = r.realSetOf record)
      (fun u v hu huv => h.within u v hu huv) ho
  refine ⟨⟨fun hr => ?_, fun hj => ?_⟩, hwithin y⟩
  · induction hr with
    | refl => exact .refl o
    | @tail u v _ hstep ih => exact ih.tail ((h.near u (hwithin u ih) v).1 (mem_walkNext.1 hstep))
  · induction hj with
    | refl => exact .refl
    | @tail u v hu hstep ih => exact ih.tail (mem_walkNext.2 ((h.near u (hwithin u hu) v).2 hstep))

/-- **`split_part`** finds the component of the old target, unless `record` is in it. -/
theorem splitPart_spec {o} (h : Around r adjacency e record)
    (ho : r.realSetOf o = r.realSetOf record) (hreal : (r.realSetOf record).isSome) :
    (r.splitPart record o adjacency = none → Joined e o record) ∧
      ∀ part, r.splitPart record o adjacency = some part →
        part.Nodup ∧ record ∉ part ∧ ∀ y, y ∈ part ↔ Joined e o y := by
  refine ⟨fun hnone => ?_, fun part hpart => ?_⟩
  · unfold splitPart at hnone
    by_cases heq : record = o
    · subst heq
      exact .refl record
    · obtain ⟨id, hid⟩ := Option.isSome_iff_exists.1 hreal
      have hsame : ∃ a ∈ r.realSetOf record, r.realSetOf o = some a := ⟨id, hid, ho.trans hid⟩
      rw [if_neg (not_or.2 ⟨heq, not_not.2 hsame⟩)] at hnone
      have hclosed : ∀ x ∈ insert o (names adjacency), ∀ y ∈ r.walkNext adjacency x,
          y ∈ insert o (names adjacency) := fun x _ y hy =>
        Finset.mem_insert_of_mem (neighbour_mem_names (mem_walkNext.1 hy))
      have hreach := (spread_eq_none hclosed (Finset.mem_insert_self ..) (Ne.symm heq)
        (Nat.le_refl _)).1 hnone
      exact (h.reach ho record).1.1 hreach
  · obtain ⟨hnodup, hnot, hmem, -⟩ := splitPart_eq_some hpart
    exact ⟨hnodup, hnot, fun y => (hmem y).trans (h.reach ho y).1⟩

lemma Partitions.moveOff {o} (h : Partitions r N fun x y => e x y ∨ x = record ∧ y = o) {kept}
    (hkept : r.realSetOf record = some kept) {part} (hnodup : part.Nodup) (hnot : record ∉ part)
    (hmem : ∀ y, y ∈ part ↔ Joined e o y) (hpart : ∀ y ∈ part, r.realSetOf y = some kept)
    : Partitions (r.moveOff kept part) N e := by
  obtain ⟨fresh, hinactive, hinv, hof, hbuilt, -, hreal, hactive, -⟩ :=
    h.toInv.moveOff hnodup hpart (h.active_of_realSetOf hkept)
  have hfresh : ∀ z, r.realSetOf z ≠ some fresh := by
    intro z hz
    have hsome := h.active_of_realSetOf hz
    rw [hinactive] at hsome
    exact absurd hsome nofun
  refine ⟨hinv, ?_, fun x hx => ?_, fun id hid => ?_, fun x hx y hy => ?_, ?_⟩
  · rw [hof]
    exact h.registered
  · rw [hreal]
    split_ifs
    · rfl
    · exact h.real x hx
  · rw [hactive] at hid
    split_ifs at hid with hidf hidk
    · have ho : o ∈ part := (hmem o).2 (.refl o)
      rw [Option.some.inj hid] at ho
      exact not_mem_nil ho
    · -- `record` stays
      have hrecord : record ∈ (r.members kept).filter fun x => x ∉ part :=
        mem_filter.2 ⟨(h.mem_iff record kept).2 hkept, by simpa using hnot⟩
      rw [Option.some.inj hid] at hrecord
      exact not_mem_nil hrecord
    · exact h.full id hid
  · rw [hreal, hreal]
    by_cases hx' : x ∈ part
    · by_cases hy' : y ∈ part
      · rw [if_pos hx', if_pos hy']
        exact iff_of_true rfl (((hmem x).1 hx').symm.trans ((hmem y).1 hy'))
      · rw [if_pos hx', if_neg hy']
        exact iff_of_false (hfresh y).symm
          fun hj => hy' ((hmem y).2 (((hmem x).1 hx').trans hj))
    · by_cases hy' : y ∈ part
      · rw [if_neg hx', if_pos hy']
        exact iff_of_false (hfresh x) fun hj => hx' ((hmem x).2 (((hmem y).1 hy').trans hj.symm))
      · rw [if_neg hx', if_neg hy', h.same x hx y hy, joined_addEdge]
        have hx'' : ¬ Joined e x o := fun hj => hx' ((hmem x).2 hj.symm)
        have hy'' : ¬ Joined e o y := fun hj => hy' ((hmem y).2 hj)
        simp only [hx'', hy'', and_false, false_and, or_false]
  · rw [hbuilt]
    exact h.built

lemma Partitions.rejoin (h : Partitions r N e) {kept part} (hkept : r.realSetOf record = some kept)
    (hnodup : part.Nodup) (hnot : record ∉ part) (hpart : ∀ y ∈ part, r.realSetOf y = some kept)
    : Partitions (r.rejoin kept part) N e := by
  obtain ⟨hinv, hof, hbuilt, hcells, -, hactive⟩ :=
    h.toInv.rejoin hnodup hpart (h.active_of_realSetOf hkept)
  have hreal : ∀ x, (r.rejoin kept part).realSetOf x = r.realSetOf x := by
    intro x
    rw [realSetOf, realSetOf, hof, hcells]
  refine ⟨hinv, ?_, fun x hx => ?_, fun id hid => ?_, fun x hx y hy => ?_, ?_⟩
  · rw [hof]
    exact h.registered
  · rw [hreal]
    exact h.real x hx
  · rw [hactive] at hid
    split_ifs at hid with hidk
    · have hrecord : record ∈ (r.members kept).filter (fun x => x ∉ part) ++ part :=
        mem_append_left _ (mem_filter.2 ⟨(h.mem_iff record kept).2 hkept, by simpa using hnot⟩)
      rw [Option.some.inj hid] at hrecord
      exact not_mem_nil hrecord
    · exact h.full id hid
  · rw [hreal, hreal]
    exact h.same x hx y hy
  · rw [hbuilt]
    exact h.built

section

variable {record : ν} {field : FieldName} {old target : Option ν} {adjacency : Adjacency ν}

lemma noteLink_eq (record : ν) (field : FieldName) (target : Option ν) : ∃ linkAdded linksAdded,
    r.noteLink record field target = { r with linkAdded, linksAdded } := by
  unfold noteLink
  split_ifs
  · exact ⟨_, _, rfl⟩
  · exact ⟨_, _, rfl⟩

lemma relinkField_none
    (h : (old.bind fun old => (r.removeLink record field).splitPart record old adjacency) = none) :
    r.relinkField record field old target adjacency =
      (r.noteLink record field target).mergeNew record target := by
  unfold Registry.relinkField
  rw [h]

lemma relinkField_some {part kept}
    (h : (old.bind fun old => (r.removeLink record field).splitPart record old adjacency) = some part)
    (hkept : (r.noteLink record field target).realSetOf record = some kept) :
    r.relinkField record field old target adjacency =
      (r.noteLink record field target).splitMerge record target kept part := by
  unfold Registry.relinkField
  rw [h]
  dsimp only
  rw [hkept]

end

/-- **`relink_field` replaces an edge.** -/
theorem Partitions.relinkField {field old target}
    (h : Partitions r N fun x y => e x y ∨ x = record ∧ old = some y)
    (hends : ∀ x y, e x y → x ∈ N ∧ y ∈ N) (hrecord : record ∈ N) (hold : ∀ o ∈ old, o ∈ N)
    (htarget : ∀ t ∈ target, t ∈ N)
    (hnear : ∀ x, r.realSetOf x = r.realSetOf record →
      ∀ y, (y ∈ adjacency.neighbours x ↔ e x y ∨ e y x)) :
    Partitions (r.relinkField record field old target adjacency) N
      fun x y => e x y ∨ x = record ∧ target = some y := by
  set noted := r.noteLink record field target with hnoted
  obtain ⟨linkAdded, linksAdded, hnoted'⟩ := noteLink_eq (r := r) record field target
  have hn : Partitions noted N fun x y => e x y ∨ x = record ∧ old = some y := by
    rw [hnoted, hnoted']
    exact h.noted linkAdded linksAdded
  have hnreal : ∀ x, noted.realSetOf x = r.realSetOf x := by
    intro x
    rw [hnoted, hnoted']
    rfl
  have haround : Around (r.removeLink record field) adjacency e record := by
    refine ⟨hnear, fun x y hx hxy => ?_⟩
    have hmem : x ∈ N ∧ y ∈ N := hxy.elim (hends x y) fun hyx => (hends y x hyx).symm
    refine Eq.trans ?_ hx
    exact ((h.same x hmem.1 y hmem.2).2 (Relation.ReflTransGen.single (hxy.imp Or.inl Or.inl))).symm
  cases old with
  | none =>
    have hbase : Partitions noted N e := hn.congr fun x y => joined_congr fun x y => by simp
    exact hbase.mergeNew hrecord htarget
  | some o =>
    have hedge : ∀ x y, e x y ∨ x = record ∧ some o = some y ↔ e x y ∨ x = record ∧ y = o := by
      intro x y
      rw [Option.some.injEq, eq_comm (a := o)]
    have hn' : Partitions noted N fun x y => e x y ∨ x = record ∧ y = o :=
      hn.congr fun x y => joined_congr hedge
    have ho := hold o rfl
    have hsame : r.realSetOf o = r.realSetOf record :=
      ((h.same record hrecord o ho).2 (Joined.of_edge (Or.inr ⟨rfl, rfl⟩))).symm
    obtain ⟨hnone, hsome⟩ := splitPart_spec haround hsame (h.real record hrecord)
    cases hpart : (some o).bind fun old =>
        (r.removeLink record field).splitPart record old adjacency with
    | none =>
      have hbase : Partitions noted N e :=
        hn'.congr fun x y => joined_addEdge_of_joined (hnone hpart).symm
      rw [relinkField_none hpart]
      exact hbase.mergeNew hrecord htarget
    | some part =>
      obtain ⟨kept, hkept⟩ := Option.isSome_iff_exists.1 (hn.real record hrecord)
      obtain ⟨hnodup, hnot, hmem⟩ := hsome part hpart
      have hin : ∀ y ∈ part, noted.realSetOf y = some kept := by
        intro y hy
        rw [hnreal, ← hkept, hnreal]
        exact (haround.reach hsame y).2 ((hmem y).1 hy)
      rw [relinkField_some hpart hkept, splitMerge]
      split_ifs with hback
      · -- the new target is on the side that is split off
        obtain ⟨t, ht, htpart⟩ := hback
        refine (hn'.rejoin hkept hnodup hnot hin).congr fun x y => ?_
        rw [joined_addEdge_congr ((hmem t).1 htpart)]
        refine joined_congr fun x y => ?_
        rw [Option.mem_def.1 ht, Option.some.injEq, eq_comm (a := t)]
      · exact (hn'.moveOff hkept hnodup hnot hmem hin).mergeNew hrecord htarget

/-! ### Partitioning again -/

/-- The adjacency has the new graph over what `repartition` looks at. -/
structure Covers (r : Registry ν) (adjacency : Adjacency ν) (seed : ν) (N : Finset ν)
    (e : ν → ν → Prop) : Prop where
  symm : adjacency.Symmetric
  keys : ∀ x ∈ r.affected adjacency seed, (x ∈ adjacency.keys ↔ x ∈ N)
  near : ∀ x ∈ r.affected adjacency seed, x ∈ N → ∀ y, (y ∈ adjacency.neighbours x ↔ e x y ∨ e y x)

section

variable {seed : ν} {adjacency : Adjacency ν}

lemma Covers.reach (h : Covers r adjacency seed N e) (hends : ∀ x y, e x y → x ∈ N ∧ y ∈ N)
    (hsets : Sets r) (hx : x ∈ r.affected adjacency seed) (y : ν) :
    (Joined e x y → y ∈ r.affected adjacency seed) ∧
      (Reach adjacency.neighbours x y ↔ Joined e x y) := by
  have hregion := hsets.region adjacency seed
  have hstep : ∀ u v, u ∈ r.affected adjacency seed → e u v ∨ e v u → v ∈ adjacency.neighbours u :=
    fun u v hu huv => (h.near u hu (huv.elim (fun he => (hends u v he).1) fun he => (hends v u he).2)
      v).2 huv
  have hinside : ∀ z, Joined e x z → z ∈ r.affected adjacency seed := fun z hz =>
    hz.mem_of_closed (P := fun z => z ∈ r.affected adjacency seed)
      (fun u v hu huv => hregion.links u hu v (hstep u v hu huv)) hx
  refine ⟨hinside y, fun hr => ?_, fun hj => ?_⟩
  · induction hr with
    | refl => exact .refl x
    | @tail u v _ huv ih =>
      have hu := hinside u ih
      exact ih.tail ((h.near u hu ((h.keys u hu).1 (mem_keys_of_neighbour huv)) v).1 huv)
  · induction hj with
    | refl => exact .refl
    | @tail u v hu huv ih => exact ih.tail (hstep u v (hinside u hu) huv)

/-- **`repartition` follows the edges of its seed.** -/
theorem Partitions.repartition (h : Partitions r (insert seed N) e)
    (hN : ∀ x, x ≠ seed → (x ∈ N ↔ x ∈ N')) (he : ∀ x y, x ≠ seed → y ≠ seed → (e x y ↔ e' x y))
    (hends : ∀ x y, e' x y → x ∈ N' ∧ y ∈ N') (hcovers : Covers r adjacency seed N' e') :
    Partitions (r.repartition seed adjacency) N' e' := by
  obtain ⟨seedId, hseed⟩ := Option.isSome_iff_exists.1 (h.real seed (Finset.mem_insert_self ..))
  have R := h.toInv.repartition hcovers.symm hseed
  have hregion := h.toSets.region adjacency seed
  have hseedmem := h.toSets.seed_mem adjacency seed
  have hmem : ∀ x ∈ N', x ∈ insert seed N := by
    intro x hx
    by_cases hxs : x = seed
    · exact hxs ▸ Finset.mem_insert_self ..
    · exact Finset.mem_insert_of_mem ((hN x hxs).2 hx)
  have hreal : ∀ x ∈ N', (r.realSetOf x).isSome := fun x hx => h.real x (hmem x hx)
  -- what the seed's set or links join to it is in the region
  have hnear : ∀ x ∈ N', x ∉ r.affected adjacency seed → ¬ Joined e x seed ∧ ¬ Joined e' x seed := by
    refine fun x hx hout => ⟨fun hj => hout ?_, fun hj => hout ?_⟩
    · have hsame := (h.same x (hmem x hx) seed (Finset.mem_insert_self ..)).2 hj
      exact hregion.sets seed hseedmem seedId hseed x ((h.mem_iff x seedId).2 (hsame.trans hseed))
    · exact (hcovers.reach hends h.toSets hseedmem x).1 hj.symm
  refine ⟨R.inv, fun x => ?_, fun x hx => ?_, R.full h.full fun x hx hkey => ?_, fun x hx y hy => ?_, ?_⟩
  · rw [R.ofRecord_eq]
    by_cases hin : x ∈ r.affected adjacency seed
    · split_ifs with hgone
      · exact iff_of_false nofun fun hx => hgone.2 ((hcovers.keys x hin).2 hx)
      · have hx : x ∈ N' := (hcovers.keys x hin).1 (not_not.1 fun hkey => hgone ⟨hin, hkey⟩)
        exact iff_of_true ((h.registered x).2 (hmem x hx)) hx
    · have hne : x ≠ seed := fun heq => hin (heq ▸ hseedmem)
      rw [if_neg fun hgone => hin hgone.1, h.registered, Finset.mem_insert, ← hN x hne]
      exact or_iff_right hne
  · by_cases hin : x ∈ r.affected adjacency seed
    · exact (R.same x hin ((hcovers.keys x hin).2 hx) (hreal x hx)).1
    · rw [R.outside x hin]
      exact hreal x hx
  · exact hreal x ((hcovers.keys x hx).1 hkey)
  · by_cases hxin : x ∈ r.affected adjacency seed
    · obtain ⟨-, hapart, hiff⟩ := R.same x hxin ((hcovers.keys x hxin).2 hx) (hreal x hx)
      have hreach := hcovers.reach hends h.toSets hxin y
      by_cases hyin : y ∈ r.affected adjacency seed
      · rw [hiff y hyin ((hcovers.keys y hyin).2 hy) (hreal y hy), hreach.2]
      · exact iff_of_false (fun heq => hapart y hyin heq.symm) fun hj => hyin (hreach.1 hj)
    · by_cases hyin : y ∈ r.affected adjacency seed
      · obtain ⟨-, hapart, -⟩ := R.same y hyin ((hcovers.keys y hyin).2 hy) (hreal y hy)
        have hreach := hcovers.reach hends h.toSets hyin x
        exact iff_of_false (hapart x hxin) fun hj => hxin (hreach.1 hj.symm)
      · -- neither is in the region: their components did not change
        rw [R.outside x hxin, R.outside y hyin, h.same x (hmem x hx) y (hmem y hy)]
        obtain ⟨hold, hnew⟩ := hnear x hx hxin
        refine ⟨fun hj => ?_, fun hj => ?_⟩
        · exact (joined_off (fun u v hu hv => (he u v hu hv).1) hj).resolve_left hold
        · exact (joined_off (fun u v hu hv => (he u v hu hv).2) hj).resolve_left hnew
  · rw [R.built_eq]
    exact h.built

end

/-! ### Registration -/

lemma Partitions.register (h : Partitions r N e) {name} (hname : name ∉ N)
    (hends : ∀ x y, e x y → x ∈ N ∧ y ∈ N) : Partitions (r.register name) (insert name N) e := by
  have hnew : r.ofRecord name = none := by
    cases hc : r.ofRecord name with
    | none => rfl
    | some c => exact absurd ((h.registered name).1 (by rw [hc]; rfl)) hname
  obtain ⟨fresh, hminted, hof, -⟩ := h.toInv.register_minted hnew h.built
  have hfresh : ∀ x, r.realSetOf x ≠ some fresh := by
    intro x hx
    have hsome := h.active_of_realSetOf hx
    rw [hminted.inactive] at hsome
    exact absurd hsome nofun
  have hne : ∀ x ∈ N, x ≠ name := fun x hx heq => hname (heq ▸ hx)
  -- no edge has the new record as an end
  have halone : ∀ y, Joined e name y → y = name := fun y hj =>
    hj.mem_of_closed (P := fun z => z = name) (fun u v hu huv => by
      subst hu
      exact absurd (huv.elim (fun he => (hends u v he).1) fun he => (hends v u he).2) hname) rfl
  refine ⟨hminted.inv, fun x => ?_, fun x hx => ?_, fun id hid => ?_, fun x hx y hy => ?_, ?_⟩
  · rw [hof, Finset.mem_insert]
    by_cases hx : x = name
    · subst hx
      rw [update_self]
      exact iff_of_true rfl (Or.inl rfl)
    · rw [update_of_ne hx, h.registered]
      exact (or_iff_right hx).symm
  · rcases Finset.mem_insert.1 hx with rfl | hx
    · rw [hminted.real_self]
      rfl
    · rw [hminted.real_of_ne x (hne x hx)]
      exact h.real x hx
  · rw [hminted.active_eq] at hid
    by_cases hidf : id = fresh
    · subst hidf
      rw [update_self] at hid
      exact absurd (Option.some.inj hid) (cons_ne_nil _ _)
    · rw [update_of_ne hidf] at hid
      exact h.full id hid
  · rcases Finset.mem_insert.1 hx with rfl | hx'
    · rcases Finset.mem_insert.1 hy with rfl | hy'
      · exact iff_of_true rfl (.refl _)
      · rw [hminted.real_self, hminted.real_of_ne y (hne y hy')]
        exact iff_of_false (hfresh y).symm fun hj => hne y hy' (halone y hj)
    · rw [hminted.real_of_ne x (hne x hx')]
      rcases Finset.mem_insert.1 hy with rfl | hy'
      · rw [hminted.real_self]
        exact iff_of_false (hfresh x) fun hj => hne x hx' (halone x hj.symm)
      · rw [hminted.real_of_ne y (hne y hy')]
        exact h.same x hx' y hy'
  · rw [hminted.built_eq]
    exact h.built

/-! ### The build -/

/-- The names of `N` are registered, and no two of them are behind one set of the registry. -/
structure Alone (r : Registry ν) (N : Finset ν) : Prop extends Inv r where
  registered : ∀ x, (r.ofRecord x).isSome ↔ x ∈ N
  full : ∀ id, r.active id ≠ some []
  alone : ∀ x y id, r.realSetOf x = some id → r.realSetOf y = some id → x = y

lemma alone_load (names : List ν) : Alone (load names) names.toFinset := by
  have hloop : ∀ (names : List ν) {q : Registry ν} {M : Finset ν}, Alone q M → q.built = false →
      Alone (names.foldl Registry.register q) (M ∪ names.toFinset) := by
    intro names
    induction names with
    | nil =>
      intro q M h _
      rw [toFinset_nil, Finset.union_empty]
      exact h
    | cons name names ih =>
      intro q M h hbuilt
      have hkept : (q.ofRecord name).isSome ∨ q.built = false := Or.inr hbuilt
      obtain ⟨hinv, hreal, hof, hactive, hbuilt', -⟩ := h.toInv.register_kept hkept
      have hnext : Alone (q.register name) (insert name M) := by
        refine ⟨hinv, fun x => ?_, ?_, fun x y id hx hy => ?_⟩
        · rw [hof, Finset.mem_insert]
          by_cases hx : x = name
          · subst hx
            rw [update_self]
            exact iff_of_true rfl (Or.inl rfl)
          · rw [update_of_ne hx, h.registered]
            exact (or_iff_right hx).symm
        · rw [hactive]
          exact h.full
        · rw [hreal] at hx hy
          exact h.alone x y id hx hy
      have hrest := ih hnext (hbuilt'.trans hbuilt)
      rw [foldl_cons, toFinset_cons, Finset.union_insert, ← Finset.insert_union]
      exact hrest
  have hnew : Alone (Registry.new : Registry ν) ∅ :=
    ⟨Inv.new, fun x => iff_of_false nofun (Finset.notMem_empty x), nofun, nofun⟩
  have hload := hloop names hnew rfl
  rwa [Finset.empty_union] at hload

lemma Alone.mintFor (h : Alone r N) {name lr} (hreg : r.ofRecord name = some lr) :
    Alone (r.mintFor name lr) N ∧ ((r.mintFor name lr).realSetOf name).isSome ∧
      ∀ x, (r.realSetOf x).isSome → ((r.mintFor name lr).realSetOf x).isSome := by
  by_cases hboot : r.cells lr = bootstrapSet
  · obtain ⟨fresh, hminted, hof, -⟩ := h.toInv.mintFor hreg hboot
    have hfresh : ∀ x, r.realSetOf x ≠ some fresh := by
      intro x hx
      have hsome := h.active_of_realSetOf hx
      rw [hminted.inactive] at hsome
      exact absurd hsome nofun
    have hself : ((r.mintFor name lr).realSetOf name).isSome := by
      rw [hminted.real_self]
      rfl
    refine ⟨⟨hminted.inv, ?_, fun id hid => ?_, fun x y id hx hy => ?_⟩, hself, fun x hx => ?_⟩
    · rw [hof]
      exact h.registered
    · rw [hminted.active_eq] at hid
      by_cases hidf : id = fresh
      · subst hidf
        rw [update_self] at hid
        exact absurd (Option.some.inj hid) (cons_ne_nil _ _)
      · rw [update_of_ne hidf] at hid
        exact h.full id hid
    · by_cases hxn : x = name
      · by_cases hyn : y = name
        · rw [hxn, hyn]
        · rw [hxn, hminted.real_self] at hx
          rw [hminted.real_of_ne y hyn, ← hx] at hy
          exact absurd hy (hfresh y)
      · rw [hminted.real_of_ne x hxn] at hx
        by_cases hyn : y = name
        · rw [hyn, hminted.real_self] at hy
          rw [← hy] at hx
          exact absurd hx (hfresh x)
        · rw [hminted.real_of_ne y hyn] at hy
          exact h.alone x y id hx hy
    · by_cases hxn : x = name
      · rw [hxn]
        exact hself
      · rw [hminted.real_of_ne x hxn]
        exact hx
  · have hmint : r.mintFor name lr = r := by
      exact if_pos hboot
    rw [hmint]
    refine ⟨h, ?_, fun x hx => hx⟩
    rw [realSetOf_eq_some.2 ⟨lr, hreg, rfl, hboot⟩]
    rfl

lemma Alone.foldl {f}
    (hf : ∀ (r : Registry ν) (name : ν) (lr : ℕ), r.ofRecord name = some lr →
      f r name = r.mintFor name lr) (names : List ν) (hnames : ∀ x ∈ names, x ∈ N)
    : ∀ {r}, Alone r N →
      Alone (names.foldl f r) N ∧ (∀ x ∈ names, ((names.foldl f r).realSetOf x).isSome) ∧
        ∀ x, (r.realSetOf x).isSome → ((names.foldl f r).realSetOf x).isSome := by
  induction names with
  | nil => exact fun h => ⟨h, nofun, fun x hx => hx⟩
  | cons name names ih =>
    intro r h
    obtain ⟨lr, hlr⟩ := Option.isSome_iff_exists.1
      ((h.registered name).2 (hnames name mem_cons_self))
    obtain ⟨hminted, hself, hkept⟩ := h.mintFor hlr
    obtain ⟨halone, hall, hmono⟩ := ih (fun x hx => hnames x (mem_cons_of_mem name hx)) hminted
    rw [foldl_cons, hf r name lr hlr]
    refine ⟨halone, fun x hx => ?_, fun x hx => hmono x (hkept x hx)⟩
    rcases mem_cons.1 hx with rfl | hx
    · exact hmono x hself
    · exact hall x hx

/-- **`init_sets` gives each record a set of its own.** -/
theorem Alone.initSets (h : Alone r N) {names adopted} (hnames : ∀ x, x ∈ names ↔ x ∈ N)
    (hadopted : ∀ x ∈ adopted, x ∈ N) :
    Partitions (r.initSets names adopted) N fun _ _ => False := by
  have hinit : ∀ (r : Registry ν) (name : ν) (lr : ℕ), r.ofRecord name = some lr →
      initSet r name = r.mintFor name lr := by
    intro r name lr hlr
    unfold initSet Registry.lockRecordOf
    rw [hlr]
  have hadopt : ∀ (r : Registry ν) (name : ν) (lr : ℕ), r.ofRecord name = some lr →
      initAdopted r name = r.mintFor name lr := by
    intro r name lr hlr
    unfold initAdopted
    rw [hlr]
  obtain ⟨hfirst, hall, -⟩ := Alone.foldl hinit names (fun x hx => (hnames x).1 hx) h
  obtain ⟨hboth, -, hmono⟩ := Alone.foldl hadopt adopted hadopted hfirst
  have hreal : ∀ x ∈ N, ((adopted.foldl initAdopted (names.foldl initSet r)).realSetOf x).isSome :=
    fun x hx => hmono x (hall x ((hnames x).2 hx))
  have hjoined : ∀ x y : ν, Joined (fun _ _ => False) x y → x = y := fun x y hj =>
    (hj.mem_of_closed (P := fun z => z = x) (fun u v _ huv => absurd huv (not_or.2 ⟨id, id⟩)) rfl).symm
  refine ⟨hboth.toInv.congr rfl rfl rfl rfl (Nat.le_refl _) rfl, hboth.registered, hreal, hboth.full,
    fun x hx y hy => ⟨fun heq => ?_, fun hj => hjoined x y hj ▸ rfl⟩, rfl⟩
  obtain ⟨id, hid⟩ := Option.isSome_iff_exists.1 (hreal x hx)
  rw [hboth.alone x y id hid (heq ▸ hid)]
  exact .refl y

lemma Partitions.foldl_merge (edges : List (ν × Option FieldName × ν))
    (hedges : ∀ d ∈ edges, d.1 ∈ N ∧ d.2.2 ∈ N) : ∀ {r} {e : ν → ν → Prop},
      Partitions r N e → Partitions (edges.foldl mergeEdge r) N fun x y =>
        e x y ∨ ∃ field, (x, field, y) ∈ edges := by
  induction edges with
  | nil => exact fun h => h.congr fun x y => joined_congr fun x y => by simp
  | cons d edges ih =>
    intro r e h
    obtain ⟨hfrom, hto⟩ := hedges d mem_cons_self
    have hrest := ih (fun c hc => hedges c (mem_cons_of_mem d hc)) (h.merge hfrom hto)
    refine hrest.congr fun x y => joined_congr fun x y => ?_
    simp only [mem_cons]
    constructor
    · rintro ((he | ⟨rfl, rfl⟩) | ⟨field, hmem⟩)
      · exact Or.inl he
      · exact Or.inr ⟨d.2.1, Or.inl rfl⟩
      · exact Or.inr ⟨field, Or.inr hmem⟩
    · rintro (he | ⟨field, rfl | hmem⟩)
      · exact Or.inl (Or.inl he)
      · exact Or.inl (Or.inr ⟨rfl, rfl⟩)
      · exact Or.inr ⟨field, hmem⟩

/-- **The build makes the sets of the link graph.** -/
theorem partitions_build (db : Database ν) {loaded names adopted}
    (hloaded : ∀ x, x ∈ loaded ↔ x ∈ db.records) (hnames : ∀ x, x ∈ names ↔ x ∈ db.records)
    (hadopted : ∀ x ∈ adopted, x ∈ db.records) :
    Partitions ((load loaded).build db names adopted) db.records db.Edge := by
  have hload := alone_load loaded
  rw [show loaded.toFinset = db.records from Finset.ext fun x => by
    rw [mem_toFinset, hloaded]] at hload
  have hinit := hload.initSets hnames hadopted
  -- noting the links changes no set
  have hnote : ∀ (edges : List (ν × Option FieldName × ν)) {r : Registry ν},
      Partitions r db.records (fun _ _ => False) →
      Partitions (edges.foldl noteEdge r) db.records fun _ _ => False := by
    intro edges
    induction edges with
    | nil => exact fun h => h
    | cons d edges ih =>
      intro r h
      refine ih ?_
      unfold noteEdge
      cases d.2.1 with
      | none => exact h
      | some field => exact h.noted _ _
  have hmem : ∀ x field y, (x, field, y) ∈ edges db names ↔
      x ∈ db.records ∧ (field, y) ∈ db.dbLinks x := by
    intro x field y
    unfold edges
    simp only [mem_flatMap, mem_map, Prod.mk.injEq]
    constructor
    · rintro ⟨z, hz, l, hl, rfl, rfl, rfl⟩
      exact ⟨(hnames z).1 hz, hl⟩
    · rintro ⟨hx, hl⟩
      exact ⟨x, (hnames x).2 hx, _, hl, rfl, rfl, rfl⟩
  have hends : ∀ d ∈ edges db names, d.1 ∈ db.records ∧ d.2.2 ∈ db.records := by
    intro d hd
    obtain ⟨hx, hl⟩ := (hmem d.1 d.2.1 d.2.2).1 hd
    exact ⟨hx, Database.target_mem hl⟩
  refine (Partitions.foldl_merge (edges db names) hends (hnote (edges db names) hinit)).congr
    fun x y => joined_congr fun x y => ?_
  rw [false_or]
  constructor
  · rintro ⟨field, hd⟩
    obtain ⟨hx, hl⟩ := (hmem x field y).1 hd
    exact ⟨hx, field, hl, rfl⟩
  · rintro ⟨hx, field, hl, -⟩
    exact ⟨field, (hmem x field y).2 ⟨hx, hl⟩⟩

end RecordLock.Registry
