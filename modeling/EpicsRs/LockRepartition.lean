/-
**What `repartition` does.**

The region of a record is closed under the links and under the sets.  Its records go into the sets of
their components: a component keeps one of the sets that the region covers, or a set is minted for it,
and the sets that none keeps are released.  Records that the database no longer has are dropped.

Main result: `RecordLock.Registry.Inv.repartition`.
-/

import EpicsRs.LockRegistryInv

set_option autoImplicit false

namespace RecordLock.Registry

open GraphWalk Function List

variable {ν : Type} [LinearOrder ν] {r r' : Registry ν} {adjacency : Adjacency ν} {seed x y : ν}

/-! ### The region and its components -/

lemma mem_keys_of_neighbour (h : y ∈ adjacency.neighbours x) : x ∈ adjacency.keys := by
  unfold Adjacency.neighbours at h
  split_ifs at h with hx
  · exact hx
  · exact absurd h not_mem_nil

lemma neighbour_mem_names (h : y ∈ adjacency.neighbours x) : y ∈ names adjacency := by
  refine Finset.mem_union_right _ (Finset.mem_biUnion.2 ⟨x, mem_keys_of_neighbour h, ?_⟩)
  exact mem_toFinset.2 h

lemma mem_regionNext : y ∈ r.regionNext adjacency x ↔
    y ∈ adjacency.neighbours x ∨ ∃ id, r.realSetOf x = some id ∧ y ∈ r.members id := by
  unfold regionNext
  cases r.realSetOf x with
  | none => simp
  | some id => simp

lemma Sets.mem_listed {id} (h : Sets r) (hx : x ∈ r.members id) : x ∈ r.listed := by
  obtain ⟨ms, hms, -⟩ := mem_members.1 hx
  obtain ⟨-, hle⟩ := h.active_range id (by rw [hms]; rfl)
  exact Finset.mem_biUnion.2 ⟨id, Finset.mem_range.2 (by omega), mem_toFinset.2 hx⟩

lemma mem_affected (h : Sets r) : x ∈ r.affected adjacency seed ↔
    Reach (r.regionNext adjacency) seed x := by
  refine mem_visit (fun y _ z hz => ?_) (Finset.mem_insert_self seed _) (Nat.le_refl _)
  refine Finset.mem_insert_of_mem (Finset.mem_union.2 ?_)
  rcases mem_regionNext.1 hz with hz | ⟨id, -, hz⟩
  · exact Or.inl (neighbour_mem_names hz)
  · exact Or.inr (h.mem_listed hz)

lemma mem_component {start} : x ∈ component adjacency start ↔
    Reach adjacency.neighbours start x :=
  mem_visit (fun _ _ _ hz => Finset.mem_insert_of_mem (neighbour_mem_names hz))
    (Finset.mem_insert_self start _) (Nat.le_refl _)

lemma reach_symm (h : adjacency.Symmetric) (hr : Reach adjacency.neighbours x y) :
    Reach adjacency.neighbours y x := by
  induction hr with
  | refl => exact .refl
  | tail _ hstep ih => exact .head (h _ _ hstep) ih

/-- A set of names that links and sets do not leave. -/
structure Region (r : Registry ν) (adjacency : Adjacency ν) (region : Finset ν) : Prop where
  links : ∀ x ∈ region, ∀ y ∈ adjacency.neighbours x, y ∈ region
  sets : ∀ x ∈ region, ∀ (id : ℕ), r.realSetOf x = some id → ∀ y ∈ r.members id, y ∈ region

lemma Sets.region (h : Sets r) (adjacency : Adjacency ν) (seed : ν) :
    Region r adjacency (r.affected adjacency seed) where
  links := by
    intro x hx y hy
    rw [mem_affected h] at hx ⊢
    exact hx.tail (mem_regionNext.2 (Or.inl hy))
  sets := by
    intro x hx id hid y hy
    rw [mem_affected h] at hx ⊢
    exact hx.tail (mem_regionNext.2 (Or.inr ⟨id, hid, hy⟩))

lemma Sets.seed_mem (h : Sets r) (adjacency : Adjacency ν) (seed : ν) :
    seed ∈ r.affected adjacency seed :=
  (mem_affected h).2 .refl

/-- What the loop over the starts has found: components of starts, none twice. -/
structure Found (adjacency : Adjacency ν) (starts : List ν) (cs : List (Finset ν)) : Prop where
  eq : ∀ C ∈ cs, ∃ s ∈ starts, s ∈ adjacency.keys ∧ C = component adjacency s
  disjoint : cs.Pairwise fun C D => ∀ x ∈ C, x ∉ D
  covers : ∀ s ∈ starts, s ∈ adjacency.keys → ∃ C ∈ cs, s ∈ C

lemma Found.addComponent (hsymm : adjacency.Symmetric) {starts cs} (h : Found adjacency starts cs)
    (start : ν) :
    Found adjacency (starts ++ [start]) (addComponent adjacency cs start) := by
  have hself : start ∈ component adjacency start := mem_component.2 .refl
  have hmono : ∀ C ∈ cs, ∃ s ∈ starts ++ [start], s ∈ adjacency.keys ∧ C = component adjacency s := by
    intro C hC
    obtain ⟨s, hs, hkey, rfl⟩ := h.eq C hC
    exact ⟨s, mem_append_left _ hs, hkey, rfl⟩
  unfold Registry.addComponent
  split_ifs with hskip
  · refine ⟨hmono, h.disjoint, fun s hs hkey => ?_⟩
    rcases mem_append.1 hs with hs | hs
    · exact h.covers s hs hkey
    · obtain rfl := mem_singleton.1 hs
      exact hskip.resolve_right fun hnot => hnot hkey
  · rw [not_or, not_not] at hskip
    obtain ⟨hnew, hkey⟩ := hskip
    refine ⟨fun C hC => ?_, ?_, fun s hs hkey => ?_⟩
    · rcases mem_append.1 hC with hC | hC
      · exact hmono C hC
      · exact ⟨start, by simp, hkey, mem_singleton.1 hC⟩
    · refine pairwise_append.2 ⟨h.disjoint, pairwise_singleton _ _, fun C hC D hD x hx hx' => ?_⟩
      -- two components that meet are one, and then the start was in it
      obtain rfl := mem_singleton.1 hD
      obtain ⟨s, -, -, rfl⟩ := h.eq C hC
      refine hnew ⟨_, hC, mem_component.2 ?_⟩
      exact (mem_component.1 hx).trans (reach_symm hsymm (mem_component.1 hx'))
    · rcases mem_append.1 hs with hs | hs
      · obtain ⟨C, hC, hsC⟩ := h.covers s hs hkey
        exact ⟨C, mem_append_left _ hC, hsC⟩
      · obtain rfl := mem_singleton.1 hs
        exact ⟨_, mem_append_right _ (mem_singleton_self _), hself⟩

lemma found_components (hsymm : adjacency.Symmetric) (seed : ν) (region : Finset ν) :
    Found adjacency ((if seed ∈ adjacency.keys then [seed] else []) ++ region.sort (· ≤ ·))
      (components adjacency seed region) := by
  have hloop : ∀ (todo starts : List ν) (cs : List (Finset ν)), Found adjacency starts cs →
      Found adjacency (starts ++ todo) (todo.foldl (Registry.addComponent adjacency) cs) := by
    intro todo
    induction todo with
    | nil => exact fun starts cs h => by rwa [append_nil]
    | cons s todo ih =>
      intro starts cs h
      have hnext := ih _ _ (h.addComponent hsymm s)
      rwa [append_assoc] at hnext
  exact hloop _ [] [] ⟨nofun, Pairwise.nil, nofun⟩

variable {region : Finset ν}

/-- The components of a region: each is in it, no two meet, and together they have every record that
is still there. -/
lemma components_spec (hsymm : adjacency.Symmetric)
    (hregion : ∀ x ∈ region, ∀ y ∈ adjacency.neighbours x, y ∈ region) (hseed : seed ∈ region) :
    (∀ C ∈ components adjacency seed region, ∀ x ∈ C, x ∈ region ∧ x ∈ adjacency.keys ∧
      ∀ y, y ∈ C ↔ Reach adjacency.neighbours x y) ∧
    (components adjacency seed region).Pairwise (fun C D => ∀ x ∈ C, x ∉ D) ∧
    (∀ C ∈ components adjacency seed region, C.Nonempty) ∧
    ∀ x ∈ region, x ∈ adjacency.keys → ∃ C ∈ components adjacency seed region, x ∈ C := by
  obtain ⟨heq, hdisjoint, hcovers⟩ := found_components hsymm seed region
  have hstart : ∀ s ∈ (if seed ∈ adjacency.keys then [seed] else []) ++ region.sort (· ≤ ·),
      s ∈ region := by
    intro s hs
    rcases mem_append.1 hs with hs | hs
    · split_ifs at hs
      · rwa [mem_singleton.1 hs]
      · exact absurd hs not_mem_nil
    · exact (Finset.mem_sort _).1 hs
  refine ⟨fun C hC x hx => ?_, hdisjoint, fun C hC => ?_, fun x hx hkey => ?_⟩
  · obtain ⟨s, hs, hkey, rfl⟩ := heq C hC
    have hreach := mem_component.1 hx
    have hin : x ∈ region ∧ x ∈ adjacency.keys := by
      clear hx
      induction hreach with
      | refl => exact ⟨hstart s hs, hkey⟩
      | tail _ hstep ih =>
        exact ⟨hregion _ ih.1 _ hstep, mem_keys_of_neighbour (hsymm _ _ hstep)⟩
    refine ⟨hin.1, hin.2, fun y => ?_⟩
    rw [mem_component]
    exact ⟨(reach_symm hsymm hreach).trans, hreach.trans⟩
  · obtain ⟨s, -, -, rfl⟩ := heq C hC
    exact ⟨s, mem_component.2 .refl⟩
  · exact hcovers x (mem_append_right _ ((Finset.mem_sort _).2 hx)) hkey

/-! ### Which set a component keeps -/

variable {keeps : Finset ℕ}

lemma uniform_eq_some {C id} (h : r.uniform keeps C = some id) :
    id ∉ keeps ∧ ∃ x ∈ C, r.realSetOf x = some id := by
  unfold uniform at h
  have hmem : ∀ o ∈ (C.sort (· ≤ ·)).map r.realSetOf, ∃ x ∈ C, r.realSetOf x = o := by
    intro o ho
    obtain ⟨x, hx, rfl⟩ := mem_map.1 ho
    exact ⟨x, (Finset.mem_sort _).1 hx, rfl⟩
  cases hids : (C.sort (· ≤ ·)).map r.realSetOf with
  | nil =>
    rw [hids] at h
    exact absurd h nofun
  | cons first ids =>
    rw [hids] at h
    obtain ⟨hfirst, hfilter⟩ := Option.filter_eq_some_iff.1 h
    rw [decide_eq_true_eq] at hfilter
    exact ⟨hfilter.1, hmem _ (by rw [hids, hfirst]; exact mem_cons_self)⟩

lemma kept_cons_none {β : Type} {b kept} (l : List (β × Option ℕ)) (h : kept = none)
    : ((b, kept) :: l).filterMap Prod.snd = l.filterMap Prod.snd := by
  subst h
  rfl

lemma kept_cons_some {β : Type} {b kept id} (l : List (β × Option ℕ)) (h : kept = some id)
    : ((b, kept) :: l).filterMap Prod.snd = id :: l.filterMap Prod.snd := by
  subst h
  rfl

lemma assign_spec (r : Registry ν) (present : Option (ν × ℕ)) (cs : List (Finset ν)) :
    ∀ keeps : Finset ℕ, cs.Pairwise (fun C D => ∀ x ∈ C, x ∉ D) → (∀ s ∈ present, s.2 ∈ keeps) →
    let assigned := r.assign present keeps cs
    assigned.1.map Prod.fst = cs ∧
    (∀ id, id ∈ assigned.2 ↔ id ∈ keeps ∨ ∃ C, (C, some id) ∈ assigned.1) ∧
    (∀ C id, (C, some id) ∈ assigned.1 → (∃ s ∈ present, s.1 ∈ C ∧ s.2 = id) ∨
      id ∉ keeps ∧ ∃ x ∈ C, r.realSetOf x = some id) ∧
    (∀ C kept, (C, kept) ∈ assigned.1 → ∀ s ∈ present, s.1 ∈ C → kept = some s.2) ∧
    (assigned.1.filterMap Prod.snd).Nodup := by
  induction cs with
  | nil =>
    intro keeps _ _
    exact ⟨rfl, by simp [assign], by simp [assign], by simp [assign], nodup_nil⟩
  | cons C cs ih =>
    intro keeps hdisjoint hkeeps
    rw [pairwise_cons] at hdisjoint
    set kept := (present.filter fun s => s.1 ∈ C).elim (r.uniform keeps C) fun s => some s.2
      with hkept
    have hassign : r.assign present keeps (C :: cs) =
        ((C, kept) :: (r.assign present (keeps ∪ kept.toFinset) cs).1,
          (r.assign present (keeps ∪ kept.toFinset) cs).2) := by
      rw [hkept, assign]
      cases present.filter fun s => s.1 ∈ C <;> rfl
    have hwhy : ∀ id, kept = some id → (∃ s ∈ present, s.1 ∈ C ∧ s.2 = id) ∨
        id ∉ keeps ∧ ∃ x ∈ C, r.realSetOf x = some id := by
      intro id hid
      cases hfilter : present.filter fun s => s.1 ∈ C with
      | some s =>
        rw [hkept, hfilter] at hid
        obtain ⟨hs, hin⟩ := Option.filter_eq_some_iff.1 hfilter
        rw [decide_eq_true_eq] at hin
        exact Or.inl ⟨s, hs, hin, Option.some.inj hid⟩
      | none =>
        rw [hkept, hfilter] at hid
        exact Or.inr (uniform_eq_some hid)
    have hseed : ∀ s ∈ present, s.1 ∈ C → kept = some s.2 := by
      intro s hs hin
      have hfilter : (present.filter fun s => s.1 ∈ C) = some s :=
        Option.filter_eq_some_iff.2 ⟨hs, decide_eq_true hin⟩
      rw [hkept, hfilter, Option.elim_some]
    obtain ⟨hfst, hmem, hsome, hpresent, hnodup⟩ := ih (keeps ∪ kept.toFinset) hdisjoint.2
      fun s hs => Finset.mem_union_left _ (hkeeps s hs)
    rw [hassign]
    refine ⟨by rw [map_cons, hfst], fun id => ?_, fun D id hD => ?_, fun D k hD s hs hin => ?_,
      ?_⟩
    · rw [hmem id, Finset.mem_union, Option.mem_toFinset, Option.mem_def]
      constructor
      · rintro ((hold | hhead) | ⟨D, hD⟩)
        · exact Or.inl hold
        · exact Or.inr ⟨C, by rw [hhead]; exact mem_cons_self⟩
        · exact Or.inr ⟨D, mem_cons_of_mem _ hD⟩
      · rintro (hold | ⟨D, hD⟩)
        · exact Or.inl (Or.inl hold)
        · rcases mem_cons.1 hD with heq | hD
          · exact Or.inl (Or.inr (Prod.mk.inj heq).2.symm)
          · exact Or.inr ⟨D, hD⟩
    · rcases mem_cons.1 hD with heq | hD
      · obtain ⟨rfl, heq⟩ := Prod.mk.inj heq
        exact hwhy id heq.symm
      · refine (hsome D id hD).imp_right fun hnew => ⟨?_, hnew.2⟩
        exact fun hid => hnew.1 (Finset.mem_union_left _ hid)
    · rcases mem_cons.1 hD with heq | hD
      · obtain ⟨rfl, rfl⟩ := Prod.mk.inj heq
        exact hseed s hs hin
      · exact hpresent D k hD s hs hin
    · rcases hkeep : kept with _ | id
      · rw [← hkeep, kept_cons_none _ hkeep]
        exact hnodup
      · rw [← hkeep, kept_cons_some _ hkeep, nodup_cons]
        refine ⟨fun hid => ?_, hnodup⟩
        obtain ⟨⟨D, kept'⟩, hD, heq⟩ := mem_filterMap.1 hid
        obtain rfl : kept' = some id := heq
        rcases hsome D id hD with ⟨s, hs, hin, rfl⟩ | ⟨hnot, -⟩
        · -- the seed is in one component only, and its set is kept from the start
          rcases hwhy s.2 hkeep with ⟨s', hs', hin', -⟩ | ⟨hnot, -⟩
          · obtain rfl := Option.mem_unique hs hs'
            have hDcs : D ∈ cs := by
              rw [← hfst]
              exact mem_map.2 ⟨_, hD, rfl⟩
            exact hdisjoint.1 D hDcs s.1 hin' hin
          · exact hnot (hkeeps s hs)
        · refine hnot (Finset.mem_union_right _ ?_)
          rw [hkeep]
          simp

/-! ### The sets of the components -/

omit [LinearOrder ν] in
lemma resolve_spec (L : List (List ν × Option ℕ)) : ∀ {r}, Sets r →
    (L.filterMap Prod.snd).Nodup → (∀ ms id, (ms, some id) ∈ L → (r.active id).isSome) →
    ∃ active free nextId revision, (r.resolve L).1 = { r with
        active := active
        free := free
        nextId := nextId
        revision := revision } ∧
      Sets (r.resolve L).1 ∧ r.nextId ≤ nextId ∧
      (r.resolve L).2.map Prod.fst = L.map Prod.fst ∧ ((r.resolve L).2.map Prod.snd).Nodup ∧
      (∀ c ∈ (r.resolve L).2, (active c.2).isSome ∧
        ((c.1, some c.2) ∈ L ∨ r.active c.2 = none)) ∧
      (∀ ms id, (ms, some id) ∈ L → (ms, id) ∈ (r.resolve L).2) ∧
      ∀ id, id ∉ (r.resolve L).2.map Prod.snd ∨ (r.active id).isSome → active id = r.active id := by
  induction L with
  | nil =>
    intro r h _ _
    exact ⟨r.active, r.free, r.nextId, r.revision, rfl, h, Nat.le_refl _, rfl, nodup_nil,
      nofun, nofun, fun _ _ => rfl⟩
  | cons l L ih =>
    obtain ⟨ms, kept⟩ := l
    intro r h hnodup hactive
    have hactive' : ∀ ms id, (ms, some id) ∈ L → (r.active id).isSome :=
      fun ms' id hid => hactive ms' id (mem_cons_of_mem _ hid)
    cases kept with
    | some id =>
      rw [kept_cons_some _ rfl, nodup_cons] at hnodup
      have hid := hactive ms id mem_cons_self
      obtain ⟨active, free, nextId, revision, heq, hsets, hnext, hfst, hsnd, hall, hkeep, hold⟩ :=
        ih h hnodup.2 hactive'
      have hresolve : r.resolve ((ms, some id) :: L) =
          ((r.resolve L).1, (ms, id) :: (r.resolve L).2) := rfl
      rw [hresolve]
      refine ⟨active, free, nextId, revision, heq, hsets, hnext, by simp [hfst], ?_, ?_, ?_, ?_⟩
      · rw [map_cons, nodup_cons]
        refine ⟨fun hmem => ?_, hsnd⟩
        obtain ⟨c, hc, rfl⟩ := mem_map.1 hmem
        rcases (hall c hc).2 with hin | hnone
        · exact hnodup.1 (mem_filterMap.2 ⟨_, hin, rfl⟩)
        · rw [hnone] at hid
          exact absurd hid nofun
      · intro c hc
        rcases mem_cons.1 hc with rfl | hc
        · exact ⟨by rw [hold id (Or.inr hid)]; exact hid, Or.inl mem_cons_self⟩
        · exact ⟨(hall c hc).1, (hall c hc).2.imp_left (mem_cons_of_mem _)⟩
      · intro ms' id' hid'
        rcases mem_cons.1 hid' with heq' | hid'
        · obtain ⟨rfl, hids⟩ := Prod.mk.inj heq'
          rw [Option.some.inj hids]
          exact mem_cons_self
        · exact mem_cons_of_mem _ (hkeep ms' id' hid')
      · intro id' hid'
        refine hold id' (hid'.imp_left fun hnot hmem => hnot ?_)
        exact mem_cons_of_mem _ hmem
    | none =>
      obtain ⟨id, free₁, nextId₁, revision₁, hmake, hnone, hfirst, hle, hnext₁, hsets₁⟩ :=
        h.makeSet []
      set q := (r.makeSet []).1 with hq
      have hqactive : q.active = update r.active id (some []) := by rw [hq, hmake]
      have hqid : (r.makeSet []).2 = id := by rw [hmake]
      have hne : ∀ id', (r.active id').isSome → id' ≠ id := by
        rintro id' hid' rfl
        rw [hnone] at hid'
        exact absurd hid' nofun
      obtain ⟨active, free, nextId, revision, heq, hsets, hnext, hfst, hsnd, hall, hkeep, hold⟩ :=
        ih hsets₁ hnodup fun ms' id' hid' => by
          have hid'' := hactive' ms' id' hid'
          rw [hqactive, update_of_ne (hne id' hid'')]
          exact hid''
      have hresolve : r.resolve ((ms, none) :: L) =
          ((q.resolve L).1, (ms, id) :: (q.resolve L).2) := by
        rw [← hqid]
        rfl
      have hqself : (q.active id).isSome := by rw [hqactive, update_self]; rfl
      have hnotmem : id ∉ (q.resolve L).2.map Prod.snd := by
        intro hmem
        obtain ⟨c, hc, rfl⟩ := mem_map.1 hmem
        rcases (hall c hc).2 with hin | hnone'
        · exact hne _ (hactive' c.1 c.2 hin) rfl
        · rw [hnone'] at hqself
          exact absurd hqself nofun
      rw [hresolve]
      refine ⟨active, free, nextId, revision, ?_, hsets, ?_, by simp [hfst], ?_, ?_, ?_, ?_⟩
      · rw [heq, hq, hmake]
      · refine hnext₁.trans ?_
        rw [hq, hmake] at hnext
        exact hnext
      · rw [map_cons, nodup_cons]
        exact ⟨hnotmem, hsnd⟩
      · intro c hc
        rcases mem_cons.1 hc with rfl | hc
        · refine ⟨?_, Or.inr hnone⟩
          rw [hold id (Or.inr hqself)]
          exact hqself
        · refine ⟨(hall c hc).1, (hall c hc).2.imp (mem_cons_of_mem _) fun hnone' => ?_⟩
          have hcne : c.2 ≠ id := fun heq' => hnotmem (mem_map.2 ⟨c, hc, heq'⟩)
          rwa [hqactive, update_of_ne hcne] at hnone'
      · intro ms' id' hid'
        rcases mem_cons.1 hid' with heq' | hid'
        · exact absurd (Prod.mk.inj heq').2 nofun
        · exact mem_cons_of_mem _ (hkeep ms' id' hid')
      · intro id' hid'
        rw [map_cons, mem_cons, not_or] at hid'
        have hcne : id' ≠ id := by
          rcases hid' with ⟨hcne, -⟩ | hsome
          · exact hcne
          · exact hne id' hsome
        have hqold : q.active id' = r.active id' := by rw [hqactive, update_of_ne hcne]
        rw [hold id', hqold]
        rw [hqold]
        exact hid'.imp_left And.right

/-! ### Placing the components -/

lemma settle_fold (L : List (List ν × ℕ)) : ∀ {r}, Cells r →
    (∀ c ∈ L, ∀ x ∈ c.1, (r.ofRecord x).isSome) → (∀ c ∈ L, c.2 ≠ bootstrapSet) →
    L.Pairwise (fun c d => c.2 ≠ d.2 ∧ ∀ x ∈ c.1, x ∉ d.1) →
    ∃ active cells revision, L.foldl settle r = { r with
        active := active
        cells := cells
        revision := revision } ∧
      (∀ c ∈ L, ∀ x ∈ c.1, (L.foldl settle r).realSetOf x = some c.2) ∧
      (∀ x, (∀ c ∈ L, x ∉ c.1) → (L.foldl settle r).realSetOf x = r.realSetOf x) ∧
      (∀ c ∈ L, active c.2 = (r.active c.2).map fun _ => c.1) ∧
      (∀ id, (∀ c ∈ L, id ≠ c.2) → active id = r.active id) ∧
      ∀ a, cells a ≠ r.cells a → ∃ c ∈ L, ∃ x ∈ c.1, r.ofRecord x = some a := by
  induction L with
  | nil =>
    intro r _ _ _ _
    exact ⟨r.active, r.cells, r.revision, rfl, nofun, fun _ _ => rfl, nofun, fun _ _ => rfl,
      fun a ha => absurd rfl ha⟩
  | cons l L ih =>
    intro r h hreg hne hpairs
    rw [pairwise_cons] at hpairs
    have hregl := hreg l mem_cons_self
    obtain ⟨cells₁, heq₁, hin₁, hout₁⟩ := place_eq hregl l.2
    have hreal₁ := h.realSetOf_place hregl (hne l mem_cons_self)
    set q := settle r l with hq
    have hqeq : q = { r with
        active := update r.active l.2 ((r.active l.2).map fun _ => l.1)
        cells := cells₁
        revision := r.revision + 1 } := by
      rw [hq, settle, heq₁]
      rfl
    have hqcells : Cells q := by
      rw [hqeq]
      exact ⟨h.lt, h.inj⟩
    have hqof : q.ofRecord = r.ofRecord := by rw [hqeq]
    have hqreal : ∀ x, q.realSetOf x = if x ∈ l.1 then some l.2 else r.realSetOf x := by
      intro x
      rw [← hreal₁ x, heq₁, hqeq]
      rfl
    have hqactive : q.active = update r.active l.2 ((r.active l.2).map fun _ => l.1) := by
      rw [hqeq]
    obtain ⟨active, cells, revision, heq, hin, hout, hkeep, hold, hmoved⟩ := ih hqcells
      (fun c hc => by rw [hqof]; exact hreg c (mem_cons_of_mem l hc))
      (fun c hc => hne c (mem_cons_of_mem l hc)) hpairs.2
    rw [foldl_cons, ← hq]
    refine ⟨active, cells, revision, by rw [heq, hqeq], fun c hc x hx => ?_, fun x hx => ?_,
      fun c hc => ?_, fun id hid => ?_, fun a ha => ?_⟩
    · rcases mem_cons.1 hc with rfl | hc
      · rw [hout x fun d hd hxd => (hpairs.1 d hd).2 x hx hxd, hqreal, if_pos hx]
      · exact hin c hc x hx
    · rw [hout x fun d hd => hx d (mem_cons_of_mem l hd), hqreal,
        if_neg (hx l mem_cons_self)]
    · rcases mem_cons.1 hc with rfl | hc
      · rw [hold c.2 fun d hd => (hpairs.1 d hd).1, hqactive, update_self]
      · rw [hkeep c hc, hqactive, update_of_ne (hpairs.1 c hc).1.symm]
    · rw [hold id fun d hd => hid d (mem_cons_of_mem l hd), hqactive,
        update_of_ne (hid l mem_cons_self)]
    · by_cases hlater : cells a = q.cells a
      · have hchanged : cells₁ a ≠ r.cells a := by
          rw [hlater, hqeq] at ha
          exact ha
        by_contra hnone
        refine hchanged (hout₁ a fun x hx hxa => hnone ?_)
        exact ⟨l, mem_cons_self, x, hx, hxa⟩
      · obtain ⟨c, hc, x, hx, hxa⟩ := hmoved a hlater
        exact ⟨c, mem_cons_of_mem l hc, x, hx, hqof ▸ hxa⟩

omit [LinearOrder ν] in
lemma release_fold (ids : List ℕ) : ∀ {r : Registry ν}, Sets r → ids.Nodup →
    (∀ id ∈ ids, (r.active id).isSome) →
    ∃ active free, ids.foldl release r = { r with active := active, free := free } ∧
      Sets (ids.foldl release r) ∧ (∀ id ∈ ids, active id = none) ∧
      ∀ id, id ∉ ids → active id = r.active id := by
  induction ids with
  | nil => exact fun {r} h _ _ => ⟨r.active, r.free, rfl, h, nofun, fun _ _ => rfl⟩
  | cons id ids ih =>
    intro r h hnodup hactive
    rw [nodup_cons] at hnodup
    have hne : ∀ id' ∈ ids, id' ≠ id := by
      rintro id' hid' rfl
      exact hnodup.1 hid'
    obtain ⟨active, free, heq, hsets, hgone, hold⟩ :=
      ih (h.release (hactive id mem_cons_self)) hnodup.2 fun id' hid' => by
        simp only [Registry.release, update_of_ne (hne id' hid')]
        exact hactive id' (mem_cons_of_mem id hid')
    refine ⟨active, free, heq, hsets, fun id' hid' => ?_, fun id' hid' => ?_⟩
    · rcases mem_cons.1 hid' with rfl | hid'
      · rw [hold id' hnodup.1]
        exact update_self ..
      · exact hgone id' hid'
    · rw [mem_cons, not_or] at hid'
      rw [hold id' hid'.2]
      exact update_of_ne hid'.1 _ _

/-! ### The outcome -/

omit [LinearOrder ν] in
lemma mem_touched {id} :
    id ∈ r.touched region ↔ ∃ x ∈ region, r.realSetOf x = some id := by
  simp [touched]

lemma realSetOf_dropRemoved (adjacency : Adjacency ν) (region : Finset ν) (x : ν) :
    (r.dropRemoved adjacency region).realSetOf x =
      if x ∈ region ∧ x ∉ adjacency.keys then none else r.realSetOf x := by
  unfold realSetOf dropRemoved
  dsimp only
  split_ifs
  · rfl
  · rfl

lemma Cells.dropRemoved (h : Cells r) (adjacency : Adjacency ν) (region : Finset ν) :
    Cells (r.dropRemoved adjacency region) := by
  refine ⟨fun x c hc => ?_, fun x y c hx hy => ?_⟩
  · simp only [Registry.dropRemoved] at hc
    split_ifs at hc
    exact h.lt x c hc
  · simp only [Registry.dropRemoved] at hx hy
    split_ifs at hx hy
    exact h.inj x y c hx hy

lemma Listing.mem_ordered (h : Listing r) {C kept} (hC : ∀ x ∈ C, x ∈ region)
    (hkept : ∀ id ∈ kept, id ∈ r.touched region) :
    (x ∈ r.ordered (r.touched region) C kept ↔ x ∈ C ∧ (r.realSetOf x).isSome) ∧
      (r.ordered (r.touched region) C kept).Nodup := by
  set ids := kept.toList ++ ((r.touched region).sort (· ≤ ·)).filter fun other => some other ≠ kept
    with hids
  have hmem : ∀ id, id ∈ ids ↔ id ∈ r.touched region := by
    intro id
    rw [hids, mem_append, Option.mem_toList, mem_filter, Finset.mem_sort,
      decide_eq_true_eq]
    constructor
    · rintro (hid | hid)
      · exact hkept id hid
      · exact hid.1
    · intro hid
      by_cases hk : some id = kept
      · exact Or.inl hk.symm
      · exact Or.inr ⟨hid, hk⟩
  have hnodup : ids.Nodup := by
    rw [hids, nodup_append]
    refine ⟨?_, (Finset.sort_nodup _ _).filter _, fun a ha b hb hab => ?_⟩
    · cases kept <;> simp
    · rw [mem_filter, decide_eq_true_eq] at hb
      exact hb.2 (hab ▸ (Option.mem_toList.1 ha).symm)
  have heq : r.ordered (r.touched region) C kept =
      (ids.flatMap r.members).filter fun name => name ∈ C := rfl
  rw [heq]
  constructor
  · rw [mem_filter, mem_flatMap, decide_eq_true_eq]
    constructor
    · rintro ⟨⟨id, -, hx⟩, hxC⟩
      exact ⟨hxC, by rw [(h.mem_iff x id).1 hx]; rfl⟩
    · rintro ⟨hxC, hsome⟩
      obtain ⟨id, hid⟩ := Option.isSome_iff_exists.1 hsome
      refine ⟨⟨id, (hmem id).2 (mem_touched.2 ⟨x, hC x hxC, hid⟩), (h.mem_iff x id).2 hid⟩, hxC⟩
  · refine Nodup.filter _ (nodup_flatMap.2 ⟨fun id _ => h.nodup id, ?_⟩)
    exact hnodup.imp fun hne x hx hx' => h.disjoint hne hx hx'

/-- The sets that the components go behind, in the registry in which these are minted. -/
structure Plan (r : Registry ν) (adjacency : Adjacency ν) (seed : ν) (region : Finset ν)
    (q : Registry ν) (L : List (List ν × ℕ)) (keeps : Finset ℕ) : Prop where
  eq : ∃ active free nextId revision, q = { r.dropRemoved adjacency region with
    active := active
    free := free
    nextId := nextId
    revision := revision }
  sets : Sets q
  pairs : L.Pairwise fun c d => c.2 ≠ d.2 ∧ ∀ x ∈ c.1, x ∉ d.1
  nodup : ∀ c ∈ L, c.1.Nodup
  active : ∀ c ∈ L, (q.active c.2).isSome
  fresh : ∀ c ∈ L, c.2 ∈ keeps ∨ r.active c.2 = none
  kept : ∀ id ∈ keeps, id ∈ r.touched region ∧ ∃ c ∈ L, c.2 = id
  old : ∀ id, (∀ c ∈ L, id ≠ c.2) → q.active id = r.active id
  mem : ∀ c ∈ L, ∀ x ∈ c.1, x ∈ region ∧ x ∈ adjacency.keys ∧ (r.realSetOf x).isSome ∧
    ∀ y ∈ region, y ∈ adjacency.keys → (r.realSetOf y).isSome →
      (y ∈ c.1 ↔ Reach adjacency.neighbours x y)
  covers : ∀ x ∈ region, x ∈ adjacency.keys → (r.realSetOf x).isSome → ∃ c ∈ L, x ∈ c.1
  nonempty : (∀ x ∈ region, x ∈ adjacency.keys → (r.realSetOf x).isSome) → ∀ c ∈ L, c.1 ≠ []
  seed_kept : seed ∈ adjacency.keys → ∃ c ∈ L, seed ∈ c.1 ∧ r.realSetOf seed = some c.2

lemma Inv.plan (h : Inv r) (hsymm : adjacency.Symmetric) {seedId}
    (hseed : r.realSetOf seed = some seedId) (hregion : Region r adjacency region)
    (hseedmem : seed ∈ region) :
    let present := if seed ∈ adjacency.keys then some (seed, seedId) else none
    let d := r.dropRemoved adjacency region
    let assigned := d.assign present (present.map Prod.snd).toFinset
      (components adjacency seed region)
    let minted := d.resolve (assigned.1.map fun a => (d.ordered (r.touched region) a.1 a.2, a.2))
    Plan r adjacency seed region minted.1 minted.2 assigned.2 := by
  intro present d assigned minted
  obtain ⟨hcomp, hcdisjoint, hcne, hccovers⟩ := components_spec hsymm hregion.links hseedmem
  have hdreal : ∀ x ∈ adjacency.keys, d.realSetOf x = r.realSetOf x := by
    intro x hx
    rw [realSetOf_dropRemoved, if_neg fun hnot => hnot.2 hx]
  have hpresent : ∀ s ∈ present, s = (seed, seedId) ∧ seed ∈ adjacency.keys := by
    intro s hs
    simp only [present] at hs
    split_ifs at hs with hkey
    · exact ⟨(Option.mem_some_iff.1 hs).symm, hkey⟩
    · exact absurd hs (Option.not_mem_none s)
  obtain ⟨hfst, hkeeps, hwhy, hhas, hkept⟩ := assign_spec d present
    (components adjacency seed region) (present.map Prod.snd).toFinset hcdisjoint
    fun s hs => by
      rw [Option.mem_toFinset]
      exact Option.mem_map_of_mem _ hs
  have hmemcs : ∀ a ∈ assigned.1, a.1 ∈ components adjacency seed region := by
    intro a ha
    rw [← hfst]
    exact mem_map_of_mem ha
  -- a set that is kept is that of a record of the component
  have htouched : ∀ C id, (C, some id) ∈ assigned.1 → id ∈ r.touched region := by
    intro C id ha
    rcases hwhy C id ha with ⟨s, hs, hin, rfl⟩ | ⟨-, x, hx, hid⟩
    · obtain ⟨rfl, -⟩ := hpresent s hs
      exact mem_touched.2 ⟨seed, hseedmem, hseed⟩
    · obtain ⟨hxregion, hxkey, -⟩ := hcomp C (hmemcs _ ha) x hx
      rw [hdreal x hxkey] at hid
      exact mem_touched.2 ⟨x, hxregion, hid⟩
  have hkeeps' : ∀ id, id ∈ assigned.2 ↔ ∃ C, (C, some id) ∈ assigned.1 := by
    intro id
    rw [hkeeps id]
    refine ⟨fun hid => hid.elim (fun hid => ?_) fun hid => hid, Or.inr⟩
    rw [Option.mem_toFinset, Option.mem_map] at hid
    obtain ⟨s, hs, rfl⟩ := hid
    obtain ⟨rfl, hkey⟩ := hpresent s hs
    obtain ⟨C, hC, hin⟩ := hccovers seed hseedmem hkey
    rw [← hfst] at hC
    obtain ⟨⟨C, kept⟩, ha, rfl⟩ := mem_map.1 hC
    exact ⟨C, hhas C kept ha _ hs hin ▸ ha⟩
  -- the lists
  have hordered : ∀ a ∈ assigned.1, ∀ x, (x ∈ d.ordered (r.touched region) a.1 a.2 ↔
      x ∈ a.1 ∧ (r.realSetOf x).isSome) ∧ (d.ordered (r.touched region) a.1 a.2).Nodup := by
    intro a ha x
    exact h.toListing.mem_ordered (fun y hy => (hcomp a.1 (hmemcs a ha) y hy).1)
      fun id hid => htouched a.1 id (by rw [← Option.mem_def.1 hid]; exact ha)
  have hlisted : ∀ ms kept, (ms, kept) ∈ assigned.1.map (fun a =>
      (d.ordered (r.touched region) a.1 a.2, a.2)) →
      ∃ C, (C, kept) ∈ assigned.1 ∧ ms = d.ordered (r.touched region) C kept := by
    intro ms kept hms
    obtain ⟨⟨C, k⟩, ha, heq⟩ := mem_map.1 hms
    obtain ⟨rfl, rfl⟩ := Prod.mk.inj heq
    exact ⟨C, ha, rfl⟩
  have hdsets : Sets d := h.toSets.congr rfl (fun _ => rfl) rfl
  obtain ⟨active, free, nextId, revision, hq, hqsets, -, hqfst, hqsnd, hqall, hqkeep, hqold⟩ :=
    resolve_spec (assigned.1.map fun a => (d.ordered (r.touched region) a.1 a.2, a.2)) hdsets
      (by rwa [filterMap_map]) fun ms id hid => by
        obtain ⟨C, ha, -⟩ := hlisted ms (some id) hid
        obtain ⟨x, -, hx⟩ := mem_touched.1 (htouched C id ha)
        exact h.active_of_realSetOf hx
  have hfrom : ∀ c ∈ minted.2, ∃ a ∈ assigned.1, c.1 = d.ordered (r.touched region) a.1 a.2 := by
    intro c hc
    have hmem : c.1 ∈ minted.2.map Prod.fst := mem_map_of_mem hc
    rw [hqfst, map_map] at hmem
    obtain ⟨a, ha, heq⟩ := mem_map.1 hmem
    exact ⟨a, ha, heq.symm⟩
  refine ⟨⟨active, free, nextId, revision, hq⟩, hqsets, ?_, fun c hc => ?_, fun c hc => ?_,
    fun c hc => ?_, fun id hid => ?_, fun id hid => ?_, fun c hc x hx => ?_, fun x hx hkey hsome => ?_,
    fun hall c hc => ?_, fun hkey => ?_⟩
  · -- no two lists meet, since no two components do
    have hlists : minted.2.Pairwise fun c e => ∀ x ∈ c.1, x ∉ e.1 := by
      rw [← pairwise_map (f := Prod.fst) (R := fun l m => ∀ x ∈ l, x ∉ m), hqfst, map_map,
        pairwise_map]
      have hpairs := hcdisjoint
      rw [← hfst, pairwise_map] at hpairs
      refine hpairs.imp_of_mem fun ha hb hdisj x hx hx' => ?_
      exact hdisj x (((hordered _ ha x).1.1 hx).1) (((hordered _ hb x).1.1 hx').1)
    have hids : minted.2.Pairwise fun c e => c.2 ≠ e.2 := pairwise_map.1 hqsnd
    exact hids.and hlists
  · obtain ⟨a, ha, heq⟩ := hfrom c hc
    rw [heq]
    exact (hordered a ha seed).2
  · rw [hq]
    exact (hqall c hc).1
  · refine (hqall c hc).2.imp_left fun hin => (hkeeps' c.2).2 ?_
    obtain ⟨C, ha, -⟩ := hlisted c.1 (some c.2) hin
    exact ⟨C, ha⟩
  · obtain ⟨C, ha⟩ := (hkeeps' id).1 hid
    exact ⟨htouched C id ha, _, hqkeep _ id (mem_map.2 ⟨_, ha, rfl⟩), rfl⟩
  · rw [hq]
    refine hqold id (Or.inl fun hmem => ?_)
    obtain ⟨c, hc, rfl⟩ := mem_map.1 hmem
    exact hid c hc rfl
  · obtain ⟨a, ha, heq⟩ := hfrom c hc
    rw [heq] at hx ⊢
    obtain ⟨hxC, hsome⟩ := (hordered a ha x).1.1 hx
    obtain ⟨hxregion, hxkey, hreach⟩ := hcomp a.1 (hmemcs a ha) x hxC
    refine ⟨hxregion, hxkey, hsome, fun y _ _ hysome => ?_⟩
    rw [(hordered a ha y).1, hreach y]
    exact and_iff_left hysome
  · obtain ⟨C, hC, hxC⟩ := hccovers x hx hkey
    rw [← hfst] at hC
    obtain ⟨a, ha, rfl⟩ := mem_map.1 hC
    have hmem : d.ordered (r.touched region) a.1 a.2 ∈ minted.2.map Prod.fst := by
      rw [hqfst, map_map]
      exact mem_map.2 ⟨a, ha, rfl⟩
    obtain ⟨c, hc, heq⟩ := mem_map.1 hmem
    exact ⟨c, hc, heq ▸ (hordered a ha x).1.2 ⟨hxC, hsome⟩⟩
  · obtain ⟨a, ha, heq⟩ := hfrom c hc
    obtain ⟨x, hxC⟩ := hcne a.1 (hmemcs a ha)
    obtain ⟨hxregion, hxkey, -⟩ := hcomp a.1 (hmemcs a ha) x hxC
    rw [heq]
    exact ne_nil_of_mem ((hordered a ha x).1.2 ⟨hxC, hall x hxregion hxkey⟩)
  · obtain ⟨C, hC, hseedC⟩ := hccovers seed hseedmem hkey
    rw [← hfst] at hC
    obtain ⟨a, ha, rfl⟩ := mem_map.1 hC
    have hkept' : a.2 = some seedId := hhas a.1 a.2 ha (seed, seedId) (if_pos hkey) hseedC
    have hmem : (d.ordered (r.touched region) a.1 a.2, some seedId) ∈ assigned.1.map fun a =>
        (d.ordered (r.touched region) a.1 a.2, a.2) := by
      rw [← hkept']
      exact mem_map.2 ⟨a, ha, rfl⟩
    exact ⟨_, hqkeep _ seedId hmem,
      (hordered a ha seed).1.2 ⟨hseedC, by rw [hseed]; rfl⟩, hseed⟩

/-- What `repartition` does to the region and to the rest. -/
structure Repartitioned (r r' : Registry ν) (adjacency : Adjacency ν) (seed : ν) (region : Finset ν) :
    Prop where
  inv : Inv r'
  ofRecord_eq : ∀ x, r'.ofRecord x =
    if x ∈ region ∧ x ∉ adjacency.keys then none else r.ofRecord x
  outside : ∀ x, x ∉ region → r'.realSetOf x = r.realSetOf x
  same : ∀ x ∈ region, x ∈ adjacency.keys → (r.realSetOf x).isSome →
    (r'.realSetOf x).isSome ∧ (∀ y, y ∉ region → r'.realSetOf y ≠ r'.realSetOf x) ∧
      ∀ y ∈ region, y ∈ adjacency.keys → (r.realSetOf y).isSome →
        (r'.realSetOf x = r'.realSetOf y ↔ Reach adjacency.neighbours x y)
  moved : ∀ c, r'.cells c ≠ r.cells c → ∃ x ∈ region, r.ofRecord x = some c ∧
    (r.realSetOf x).isSome ∧ x ∈ adjacency.keys
  seed_eq : seed ∈ adjacency.keys → r'.realSetOf seed = r.realSetOf seed
  full : (∀ id, r.active id ≠ some []) →
    (∀ x ∈ region, x ∈ adjacency.keys → (r.realSetOf x).isSome) → ∀ id, r'.active id ≠ some []
  allocated_eq : r'.allocated = r.allocated
  built_eq : r'.built = r.built

/-- Where the records and the sets are at the end: the lists behind their sets, what else the region
covered gone, the rest as it was. -/
structure Outcome (r r' : Registry ν) (adjacency : Adjacency ν) (region : Finset ν)
    (L : List (List ν × ℕ)) : Prop where
  cells : Cells r'
  sets : Sets r'
  ofRecord_eq : r'.ofRecord = (r.dropRemoved adjacency region).ofRecord
  real_of_mem : ∀ c ∈ L, ∀ x ∈ c.1, r'.realSetOf x = some c.2
  real_gone : ∀ x ∈ region, (∀ c ∈ L, x ∉ c.1) → r'.realSetOf x = none
  real_outside : ∀ x, x ∉ region → r'.realSetOf x = r.realSetOf x
  active_of_mem : ∀ c ∈ L, r'.active c.2 = some c.1
  active_gone : ∀ id ∈ r.touched region, (∀ c ∈ L, id ≠ c.2) → r'.active id = none
  active_outside : ∀ id, id ∉ r.touched region → (∀ c ∈ L, id ≠ c.2) → r'.active id = r.active id
  moved : ∀ a, r'.cells a ≠ r.cells a → ∃ c ∈ L, ∃ x ∈ c.1, r.ofRecord x = some a
  allocated_eq : r'.allocated = r.allocated
  built_eq : r'.built = r.built

variable {L : List (List ν × ℕ)} {q : Registry ν}

lemma Inv.outcome (h : Inv r) (P : Plan r adjacency seed region q L keeps) :
    let released := ((r.touched region \ keeps).sort (· ≤ ·)).foldl release (L.foldl settle q)
    Outcome r { released with revision := released.revision + 1 } adjacency region L := by
  obtain ⟨qactive, qfree, qnextId, qrevision, hq⟩ := P.eq
  have hqof : q.ofRecord = (r.dropRemoved adjacency region).ofRecord := by rw [hq]
  have hqreal : ∀ x, q.realSetOf x =
      if x ∈ region ∧ x ∉ adjacency.keys then none else r.realSetOf x := by
    intro x
    rw [← realSetOf_dropRemoved, hq]
    rfl
  have hqcells : Cells q := by
    have hd := h.toCells.dropRemoved adjacency region
    rw [hq]
    exact ⟨hd.lt, hd.inj⟩
  have hstays : ∀ c ∈ L, ∀ x ∈ c.1, q.ofRecord x = r.ofRecord x := by
    intro c hc x hx
    rw [hqof]
    exact if_neg fun hnot => hnot.2 (P.mem c hc x hx).2.1
  have hreg : ∀ c ∈ L, ∀ x ∈ c.1, (q.ofRecord x).isSome := by
    intro c hc x hx
    obtain ⟨id, hid⟩ := Option.isSome_iff_exists.1 (P.mem c hc x hx).2.2.1
    rw [hstays c hc x hx]
    exact registered_of_realSetOf hid
  have hne : ∀ c ∈ L, c.2 ≠ bootstrapSet := fun c hc =>
    Sets.ne_bootstrap (P.sets.active_range c.2 (P.active c hc)).1
  obtain ⟨active₁, cells, revision, heq₁, hin, hout, hkeep₁, hold₁, hmoved⟩ :=
    settle_fold L hqcells hreg hne P.pairs
  have hsets₁ : Sets (L.foldl settle q) := by
    rw [heq₁]
    refine P.sets.congr rfl (fun id => ?_) rfl
    by_cases hid : ∃ c ∈ L, c.2 = id
    · obtain ⟨c, hc, rfl⟩ := hid
      exact (congrArg Option.isSome (hkeep₁ c hc)).trans Option.isSome_map
    · exact congrArg Option.isSome (hold₁ id fun c hc heq => hid ⟨c, hc, heq.symm⟩)
  -- a set that is released is one of the region's that no list goes behind
  have hnotlist : ∀ id ∈ r.touched region, id ∉ keeps → ∀ c ∈ L, id ≠ c.2 := by
    rintro id hid hnot c hc rfl
    obtain ⟨x, -, hx⟩ := mem_touched.1 hid
    have hsome := h.active_of_realSetOf hx
    rcases P.fresh c hc with hkept | hnone
    · exact hnot hkept
    · rw [hnone] at hsome
      exact absurd hsome nofun
  have hmemids : ∀ id, id ∈ (r.touched region \ keeps).sort (· ≤ ·) ↔
      id ∈ r.touched region ∧ id ∉ keeps := by
    intro id
    rw [Finset.mem_sort, Finset.mem_sdiff]
  obtain ⟨active, free, heq, hsets, hgone, hold⟩ :=
    release_fold ((r.touched region \ keeps).sort (· ≤ ·)) hsets₁ (Finset.sort_nodup _ _)
      fun id hid => by
        obtain ⟨hid, hnot⟩ := (hmemids id).1 hid
        obtain ⟨x, -, hx⟩ := mem_touched.1 hid
        have hlist := hnotlist id hid hnot
        rw [heq₁]
        simp only [hold₁ id hlist, P.old id hlist]
        exact h.active_of_realSetOf hx
  intro released
  have hreleased : released = { L.foldl settle q with active := active, free := free } := heq
  have hreal : ∀ x, Registry.realSetOf { released with revision := released.revision + 1 } x =
      (L.foldl settle q).realSetOf x := by
    intro x
    rw [hreleased]
    rfl
  refine ⟨?_, ?_, ?_, ?_, ?_, ?_, ?_, ?_, ?_, ?_, ?_, ?_⟩
  · rw [hreleased, heq₁]
    exact ⟨hqcells.lt, hqcells.inj⟩
  · exact hsets.congr rfl (fun _ => rfl) rfl
  · rw [hreleased, heq₁]
    exact hqof
  · intro c hc x hx
    rw [hreal]
    exact hin c hc x hx
  · intro x hx hnot
    rw [hreal, hout x hnot, hqreal]
    split_ifs with hkey
    · rfl
    · by_contra hsome
      obtain ⟨c, hc, hxc⟩ := P.covers x hx (not_not.1 fun hk => hkey ⟨hx, hk⟩)
        (Option.isSome_iff_ne_none.2 hsome)
      exact hnot c hc hxc
  · intro x hx
    rw [hreal, hout x fun c hc hxc => hx (P.mem c hc x hxc).1, hqreal, if_neg fun hnot => hx hnot.1]
  · intro c hc
    rw [hreleased]
    have hnot : c.2 ∉ (r.touched region \ keeps).sort (· ≤ ·) := by
      rw [hmemids]
      exact fun hid => hnotlist c.2 hid.1 hid.2 c hc rfl
    obtain ⟨ms, hms⟩ := Option.isSome_iff_exists.1 (P.active c hc)
    simp only [hold c.2 hnot, heq₁, hkeep₁ c hc, hms, Option.map_some]
  · intro id hid hlist
    rw [hreleased]
    refine hgone id ((hmemids id).2 ⟨hid, fun hkept => ?_⟩)
    obtain ⟨c, hc, rfl⟩ := (P.kept id hkept).2
    exact hlist c hc rfl
  · intro id hid hlist
    rw [hreleased]
    have hnot : id ∉ (r.touched region \ keeps).sort (· ≤ ·) := by
      rw [hmemids]
      exact fun hnot => hid hnot.1
    simp only [hold id hnot, heq₁, hold₁ id hlist, P.old id hlist]
  · intro a ha
    rw [hreleased, heq₁] at ha
    have hqcells' : q.cells = r.cells := by rw [hq]; rfl
    obtain ⟨c, hc, x, hx, hxa⟩ := hmoved a (by rw [hqcells']; exact ha)
    exact ⟨c, hc, x, hx, by rw [← hstays c hc x hx]; exact hxa⟩
  · rw [hreleased, heq₁, hq]
    rfl
  · rw [hreleased, heq₁, hq]
    rfl

lemma Plan.eq_of_set (P : Plan r adjacency seed region q L keeps) {c d} (hc : c ∈ L) (hd : d ∈ L)
    (heq : c.2 = d.2) : c = d := by
  have hids : (L.map Prod.snd).Nodup := pairwise_map.2 (P.pairs.imp And.left)
  exact inj_on_of_nodup_map hids hc hd heq

lemma Plan.eq_of_mem (P : Plan r adjacency seed region q L keeps) {c d} (hc : c ∈ L) (hd : d ∈ L)
    (hxc : x ∈ c.1) (hxd : x ∈ d.1) : c = d := by
  by_contra hne
  have hdisjoint : L.Pairwise fun c d => x ∈ c.1 → x ∉ d.1 :=
    P.pairs.imp fun hcd hxc => hcd.2 x hxc
  have hsymm : Std.Symm fun c d : List ν × ℕ => x ∈ c.1 → x ∉ d.1 :=
    ⟨fun c d hcd hxd hxc => hcd hxc hxd⟩
  exact hdisjoint.forall hc hd hne hxc hxd

lemma Inv.listing_outcome (h : Inv r) {r'} (P : Plan r adjacency seed region q L keeps)
    (O : Outcome r r' adjacency region L) (hregion : Region r adjacency region)
    : Listing r' := by
  have hinside : ∀ x id, id ∈ r.touched region → r.realSetOf x = some id → x ∈ region := by
    intro x id hid hx
    obtain ⟨y, hy, hyid⟩ := mem_touched.1 hid
    exact hregion.sets y hy id hyid x ((h.mem_iff x id).2 hx)
  -- each set lists one of the lists, or nothing that is left, or what it did
  have hmembers : ∀ id, (∃ c ∈ L, c.2 = id ∧ r'.members id = c.1) ∨
      (∀ c ∈ L, id ≠ c.2) ∧ (id ∈ r.touched region ∧ r'.members id = [] ∨
        id ∉ r.touched region ∧ r'.members id = r.members id) := by
    intro id
    by_cases hid : ∃ c ∈ L, c.2 = id
    · obtain ⟨c, hc, rfl⟩ := hid
      exact Or.inl ⟨c, hc, rfl, by rw [members, O.active_of_mem c hc, Option.getD_some]⟩
    · have hlist : ∀ c ∈ L, id ≠ c.2 := fun c hc heq => hid ⟨c, hc, heq.symm⟩
      refine Or.inr ⟨hlist, ?_⟩
      by_cases ht : id ∈ r.touched region
      · exact Or.inl ⟨ht, by rw [members, O.active_gone id ht hlist, Option.getD_none]⟩
      · exact Or.inr ⟨ht, by rw [members, O.active_outside id ht hlist, members]⟩
  refine ⟨fun x id => ?_, fun id => ?_⟩
  · by_cases hx : ∃ d ∈ L, x ∈ d.1
    · obtain ⟨d, hd, hxd⟩ := hx
      rw [O.real_of_mem d hd x hxd, Option.some.injEq]
      obtain ⟨hxregion, -, hsome, -⟩ := P.mem d hd x hxd
      rcases hmembers id with ⟨c, hc, rfl, hms⟩ | ⟨hlist, ⟨-, hms⟩ | ⟨ht, hms⟩⟩
      · rw [hms]
        constructor
        · intro hxc
          exact congrArg Prod.snd (P.eq_of_mem hd hc hxd hxc)
        · intro heq
          rwa [← P.eq_of_set hd hc heq]
      · rw [hms]
        exact iff_of_false not_mem_nil (hlist d hd).symm
      · rw [hms, h.mem_iff]
        refine iff_of_false (fun hid => ht ?_) (hlist d hd).symm
        exact mem_touched.2 ⟨x, hxregion, hid⟩
    · have hnot : ∀ d ∈ L, x ∉ d.1 := fun d hd hxd => hx ⟨d, hd, hxd⟩
      by_cases hxregion : x ∈ region
      · rw [O.real_gone x hxregion hnot]
        refine iff_of_false (fun hmem => ?_) (by simp)
        rcases hmembers id with ⟨c, hc, rfl, hms⟩ | ⟨-, ⟨-, hms⟩ | ⟨ht, hms⟩⟩
        · exact hnot c hc (hms ▸ hmem)
        · rw [hms] at hmem
          exact not_mem_nil hmem
        · rw [hms, h.mem_iff] at hmem
          exact ht (mem_touched.2 ⟨x, hxregion, hmem⟩)
      · rw [O.real_outside x hxregion]
        rcases hmembers id with ⟨c, hc, rfl, hms⟩ | ⟨-, ⟨ht, hms⟩ | ⟨-, hms⟩⟩
        · rw [hms]
          refine iff_of_false (hnot c hc) fun hid => ?_
          rcases P.fresh c hc with hkept | hnone
          · exact hxregion (hinside x c.2 (P.kept c.2 hkept).1 hid)
          · have hsome := h.active_of_realSetOf hid
            rw [hnone] at hsome
            cases hsome
        · rw [hms]
          exact iff_of_false not_mem_nil fun hid => hxregion (hinside x id ht hid)
        · rw [hms, h.mem_iff]
  · rcases hmembers id with ⟨c, hc, -, hms⟩ | ⟨-, ⟨-, hms⟩ | ⟨-, hms⟩⟩
    · rw [hms]
      exact P.nodup c hc
    · rw [hms]
      exact nodup_nil
    · rw [hms]
      exact h.nodup id

lemma Inv.repartitioned (h : Inv r) {r'} (P : Plan r adjacency seed region q L keeps)
    (O : Outcome r r' adjacency region L) (hregion : Region r adjacency region) :
    Repartitioned r r' adjacency seed region := by
  have hlisting := h.listing_outcome P O hregion
  refine ⟨⟨O.cells, O.sets, hlisting⟩, fun x => by rw [O.ofRecord_eq]; rfl, O.real_outside,
    fun x hx hkey hsome => ?_, fun a ha => ?_, fun hkey => ?_, fun hfull hall id hempty => ?_,
    O.allocated_eq, O.built_eq⟩
  · obtain ⟨c, hc, hxc⟩ := P.covers x hx hkey hsome
    rw [O.real_of_mem c hc x hxc]
    refine ⟨rfl, fun y hy heq => ?_, fun y hy hykey hysome => ?_⟩
    · -- its set lists the component only, which is in the region
      have hmem := (hlisting.mem_iff y c.2).2 heq
      rw [members, O.active_of_mem c hc, Option.getD_some] at hmem
      exact hy (P.mem c hc y hmem).1
    · rw [← (P.mem c hc x hxc).2.2.2 y hy hykey hysome, eq_comm, ← hlisting.mem_iff, members,
        O.active_of_mem c hc, Option.getD_some]
  · obtain ⟨c, hc, x, hxc, hxa⟩ := O.moved a ha
    obtain ⟨hxregion, hxkey, hsome, -⟩ := P.mem c hc x hxc
    exact ⟨x, hxregion, hxa, hsome, hxkey⟩
  · obtain ⟨c, hc, hseedc, hseed⟩ := P.seed_kept hkey
    rw [O.real_of_mem c hc seed hseedc, hseed]
  · by_cases hid : ∃ c ∈ L, c.2 = id
    · obtain ⟨c, hc, rfl⟩ := hid
      rw [O.active_of_mem c hc] at hempty
      exact P.nonempty hall c hc (Option.some.inj hempty)
    · have hlist : ∀ c ∈ L, id ≠ c.2 := fun c hc heq => hid ⟨c, hc, heq.symm⟩
      by_cases ht : id ∈ r.touched region
      · rw [O.active_gone id ht hlist] at hempty
        cases hempty
      · rw [O.active_outside id ht hlist] at hempty
        exact hfull id hempty

/-- **`repartition` gives each component of the region a set of its own**, and leaves what is not in
the region. -/
theorem Inv.repartition (h : Inv r) (hsymm : adjacency.Symmetric) {seedId}
    (hseed : r.realSetOf seed = some seedId) :
    Repartitioned r (r.repartition seed adjacency) adjacency seed (r.affected adjacency seed) := by
  have hregion := h.toSets.region adjacency seed
  have P := h.plan hsymm hseed hregion (h.toSets.seed_mem adjacency seed)
  refine h.repartitioned P ?_ hregion
  obtain ⟨lr, hlr, rfl, -⟩ := realSetOf_eq_some.1 hseed
  unfold Registry.repartition
  rw [hlr]
  exact h.outcome P

end RecordLock.Registry
