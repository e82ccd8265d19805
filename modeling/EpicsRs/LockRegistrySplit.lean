/-
**Minting a set for a record, and splitting one.**

A record is given a set of its own when it is registered, when the sets are built or when its name is
locked.  A split takes a part of one set's records to a set of their own, or only lists them anew when
the merge that follows would move them back.

Main results: `RecordLock.Registry.Inv.mintFor`, `RecordLock.Registry.Inv.lockRecordOf`,
`RecordLock.Registry.Inv.moveOff`.
-/

import EpicsRs.LockRegistryInv

set_option autoImplicit false

namespace RecordLock.Registry

open Function Option

variable {ν : Type} {r r' : Registry ν} {name : ν} {lr : ℕ}

lemma Inv.congr (h : Inv r) (hactive : r'.active = r.active) (hfree : r'.free = r.free)
    (hof : r'.ofRecord = r.ofRecord) (hcells : r'.cells = r.cells)
    (halloc : r.allocated ≤ r'.allocated) (hnext : r'.nextId = r.nextId) : Inv r' := by
  have hreal : ∀ x, r'.realSetOf x = r.realSetOf x := by
    intro x
    rw [realSetOf, realSetOf, hof, hcells]
  have hmembers : ∀ id, r'.members id = r.members id := by
    intro id
    rw [members, members, hactive]
  refine ⟨⟨fun x c hc => ?_, fun x y c hx hy => ?_⟩, ?_, ⟨fun x id => ?_, fun id => ?_⟩⟩
  · rw [hof] at hc
    exact (h.lt x c hc).trans_le halloc
  · rw [hof] at hx hy
    exact h.inj x y c hx hy
  · exact h.toSets.congr hnext (fun id => by rw [hactive]) hfree
  · rw [hmembers, hreal]
    exact h.mem_iff x id
  · rw [hmembers]
    exact h.nodup id

lemma Cells.enter [DecidableEq ν] (h : Cells r)
    (hof : r'.ofRecord = update r.ofRecord name (some r.allocated))
    (halloc : r'.allocated = r.allocated + 1) : Cells r' := by
  have hcases : ∀ x c, r'.ofRecord x = some c → x = name ∧ c = r.allocated ∨
      r.ofRecord x = some c ∧ c < r.allocated := by
    intro x c hc
    rw [hof] at hc
    by_cases hx : x = name
    · subst hx
      rw [update_self] at hc
      exact Or.inl ⟨rfl, (some.inj hc).symm⟩
    · rw [update_of_ne hx] at hc
      exact Or.inr ⟨hc, h.lt x c hc⟩
  refine ⟨fun x c hc => ?_, fun x y c hx hy => ?_⟩
  · rcases hcases x c hc with ⟨-, rfl⟩ | ⟨-, hlt⟩
    · omega
    · omega
  · rcases hcases x c hx with ⟨rfl, rfl⟩ | ⟨hx, hlt⟩
    · rcases hcases y _ hy with ⟨rfl, -⟩ | ⟨-, hlt⟩
      · rfl
      · omega
    · rcases hcases y c hy with ⟨-, rfl⟩ | ⟨hy, -⟩
      · omega
      · exact h.inj x y c hx hy

variable [LinearOrder ν]

/-! ### A set for one record -/

/-- What giving a set of its own to `name` does. -/
structure Minted (r r' : Registry ν) (name : ν) (fresh : ℕ) : Prop where
  inv : Inv r'
  inactive : r.active fresh = none
  active_eq : r'.active = Function.update r.active fresh (some [name])
  real_self : r'.realSetOf name = some fresh
  real_of_ne : ∀ x, x ≠ name → r'.realSetOf x = r.realSetOf x
  built_eq : r'.built = r.built

lemma Inv.minted (h : Inv r) (hnone : r.realSetOf name = none) {fresh}
    (hinactive : r.active fresh = none) (hcells : Cells r') (hsets : Sets r')
    (hactive : r'.active = update r.active fresh (some [name]))
    (hself : r'.realSetOf name = some fresh)
    (hothers : ∀ x, x ≠ name → r'.realSetOf x = r.realSetOf x) (hbuilt : r'.built = r.built) :
    Minted r r' name fresh := by
  have hmembers : ∀ id, r'.members id = if id = fresh then [name] else r.members id := by
    intro id
    rw [members, hactive]
    split_ifs with hid
    · rw [hid, update_self, getD_some]
    · rw [update_of_ne hid, members]
  refine ⟨⟨hcells, hsets, ⟨fun x id => ?_, fun id => ?_⟩⟩, hinactive, hactive, hself, hothers, hbuilt⟩
  · rw [hmembers]
    by_cases hx : x = name
    · subst hx
      rw [hself, some.injEq]
      split_ifs with hid
      · simp [hid]
      · rw [h.mem_iff, hnone]
        exact iff_of_false (by simp) fun heq => hid heq.symm
    · rw [hothers x hx]
      split_ifs with hid
      · refine iff_of_false (fun hmem => hx (List.mem_singleton.1 hmem)) fun heq => ?_
        have hsome := h.active_of_realSetOf heq
        rw [hid, hinactive] at hsome
        cases hsome
      · exact h.mem_iff x id
  · rw [hmembers]
    split_ifs
    · exact List.nodup_singleton name
    · exact h.nodup id

/-- **A registered record that is given a set is alone in it.** -/
theorem Inv.mintFor (h : Inv r) (hreg : r.ofRecord name = some lr) (hboot : r.cells lr = bootstrapSet) :
    ∃ fresh, Minted r (r.mintFor name lr) name fresh ∧
      (r.mintFor name lr).ofRecord = r.ofRecord ∧
      (∀ c, (r.mintFor name lr).cells c ≠ r.cells c → c = lr) ∧
      (r.mintFor name lr).allocated = r.allocated := by
  obtain ⟨fresh, free, nextId, revision, hmake, hinactive, hfirst, -, -, hsets⟩ := h.toSets.makeSet [name]
  have hmint : r.mintFor name lr = { r with
      active := update r.active fresh (some [name])
      free := free
      nextId := nextId
      revision := revision
      cells := update r.cells lr fresh } := by
    unfold Registry.mintFor
    rw [if_neg (not_not.2 hboot), hmake]
    simp only [hreg]
  have hfresh := Sets.ne_bootstrap hfirst
  have hnone : r.realSetOf name = none := by
    rw [realSetOf, hreg, map_some, hboot]
    rfl
  refine ⟨fresh, h.minted hnone hinactive ?_ ?_ ?_ ?_ (fun x hx => ?_) ?_, by rw [hmint],
    fun c hc => ?_, by rw [hmint]⟩
  · rw [hmint]
    exact ⟨h.lt, h.inj⟩
  · rw [hmake] at hsets
    rw [hmint]
    exact hsets.congr rfl (fun _ => rfl) rfl
  · rw [hmint]
  · rw [hmint, realSetOf_eq_some]
    exact ⟨lr, hreg, update_self .., hfresh⟩
  · rw [hmint]
    unfold realSetOf
    dsimp only
    cases hc : r.ofRecord x with
    | none => rfl
    | some c =>
      have hne : c ≠ lr := by
        rintro rfl
        exact hx (h.inj x name c hc hreg)
      rw [map_some, map_some, update_of_ne hne]
  · rw [hmint]
  · rw [hmint] at hc
    by_contra hne
    exact hc (update_of_ne hne _ _)

/-- **A name that is locked for the first time is alone in its set.** -/
theorem Inv.lockRecordOf (h : Inv r) (hreg : r.ofRecord name = none) :
    ∃ fresh, Minted r (r.lockRecordOf name).1 name fresh ∧ (r.lockRecordOf name).2 = r.allocated ∧
      (r.lockRecordOf name).1.ofRecord = update r.ofRecord name (some r.allocated) ∧
      (∀ c, (r.lockRecordOf name).1.cells c ≠ r.cells c → c = r.allocated) ∧
      (r.lockRecordOf name).1.allocated = r.allocated + 1 := by
  obtain ⟨fresh, free, nextId, revision, hmake, hinactive, hfirst, -, -, hsets⟩ := h.toSets.makeSet [name]
  have hlock : r.lockRecordOf name = ({ r with
      active := update r.active fresh (some [name])
      free := free
      nextId := nextId
      revision := revision
      cells := update r.cells r.allocated fresh
      allocated := r.allocated + 1
      ofRecord := update r.ofRecord name (some r.allocated) }, r.allocated) := by
    unfold Registry.lockRecordOf
    rw [hreg, hmake]
    rfl
  have hfresh := Sets.ne_bootstrap hfirst
  have hnone : r.realSetOf name = none := by
    rw [realSetOf, hreg]
    rfl
  refine ⟨fresh, h.minted hnone hinactive ?_ ?_ ?_ ?_ (fun x hx => ?_) ?_, by rw [hlock],
    by rw [hlock], fun c hc => ?_, by rw [hlock]⟩
  · have hof : (r.lockRecordOf name).1.ofRecord =
        update r.ofRecord name (some r.allocated) := by rw [hlock]
    exact h.toCells.enter hof (by rw [hlock])
  · rw [hmake] at hsets
    rw [hlock]
    exact hsets.congr rfl (fun _ => rfl) rfl
  · rw [hlock]
  · rw [hlock, realSetOf_eq_some]
    exact ⟨r.allocated, update_self .., update_self .., hfresh⟩
  · rw [hlock]
    unfold realSetOf
    dsimp only
    rw [update_of_ne hx]
    cases hc : r.ofRecord x with
    | none => rfl
    | some c => rw [map_some, map_some, update_of_ne (h.lt x c hc).ne]
  · rw [hlock]
  · rw [hlock] at hc
    by_contra hne
    exact hc (update_of_ne hne _ _)

/-! ### Registration -/

lemma Inv.enter (h : Inv r) (hactive : r'.active = r.active) (hfree : r'.free = r.free)
    (hnext : r'.nextId = r.nextId)
    (hof : r'.ofRecord = update r.ofRecord name (some r.allocated))
    (halloc : r'.allocated = r.allocated + 1)
    (hcells : ∀ c, c ≠ r.allocated → r'.cells c = r.cells c)
    (hcell : r'.cells r.allocated = ((r.ofRecord name).map r.cells).getD bootstrapSet) :
    Inv r' ∧ ∀ x, r'.realSetOf x = r.realSetOf x := by
  have hreal : ∀ x, r'.realSetOf x = r.realSetOf x := by
    intro x
    unfold realSetOf
    rw [hof]
    by_cases hx : x = name
    · subst hx
      rw [update_self, map_some, hcell]
      cases r.ofRecord x with
      | none => rfl
      | some c => rfl
    · rw [update_of_ne hx]
      cases hc : r.ofRecord x with
      | none => rfl
      | some c => rw [map_some, map_some, hcells c (h.lt x c hc).ne]
  refine ⟨⟨h.toCells.enter hof halloc, h.toSets.congr hnext (fun id => by rw [hactive]) hfree,
    ⟨fun x id => ?_, fun id => ?_⟩⟩, hreal⟩
  · rw [hreal, members, hactive]
    exact h.mem_iff x id
  · rw [members, hactive]
    exact h.nodup id

lemma Inv.register_kept (h : Inv r) (hkept : (r.ofRecord name).isSome ∨ r.built = false) :
    Inv (r.register name) ∧ (∀ x, (r.register name).realSetOf x = r.realSetOf x) ∧
      (r.register name).ofRecord = update r.ofRecord name (some r.allocated) ∧
      (r.register name).active = r.active ∧ (r.register name).built = r.built ∧
      (∀ c, c ≠ r.allocated → (r.register name).cells c = r.cells c) ∧
      (r.register name).allocated = r.allocated + 1 := by
  have hentered : ∃ revision, r.register name = { r with
      ofRecord := update r.ofRecord name (some r.allocated)
      cells := update r.cells r.allocated
        (((r.ofRecord name).map r.cells).getD bootstrapSet)
      allocated := r.allocated + 1
      revision := revision } := by
    unfold Registry.register adopt newCell
    dsimp only
    cases hc : r.ofRecord name with
    | none =>
      have hbuilt : r.built = false := by
        rw [hc] at hkept
        exact hkept.resolve_left nofun
      refine ⟨r.revision, ?_⟩
      rw [hbuilt]
      rfl
    | some existing =>
      have hlt := h.lt name existing hc
      refine ⟨r.revision + 1, ?_⟩
      dsimp only
      rw [if_neg hlt.ne, update_of_ne hlt.ne, update_idem]
      rfl
  obtain ⟨revision, heq⟩ := hentered
  have hof : (r.register name).ofRecord = update r.ofRecord name (some r.allocated) := by
    rw [heq]
  have hcells : ∀ c, c ≠ r.allocated → (r.register name).cells c = r.cells c := by
    intro c hc
    rw [heq]
    exact update_of_ne hc _ _
  obtain ⟨hinv, hreal⟩ := h.enter (by rw [heq]) (by rw [heq]) (by rw [heq]) hof (by rw [heq]) hcells
    (by rw [heq]; exact update_self ..)
  exact ⟨hinv, hreal, hof, by rw [heq], by rw [heq], hcells, by rw [heq]⟩

/-- **A new name that is registered after the build is alone in its set.** -/
theorem Inv.register_minted (h : Inv r) (hnew : r.ofRecord name = none) (hbuilt : r.built = true) :
    ∃ fresh, Minted r (r.register name) name fresh ∧
      (r.register name).ofRecord = update r.ofRecord name (some r.allocated) ∧
      (∀ c, c ≠ r.allocated → (r.register name).cells c = r.cells c) ∧
      (r.register name).allocated = r.allocated + 1 := by
  set q : Registry ν := { r with
    ofRecord := update r.ofRecord name (some r.allocated)
    cells := update r.cells r.allocated bootstrapSet
    allocated := r.allocated + 1 } with hq
  have hregister : r.register name = q.mintFor name r.allocated := by
    unfold Registry.register adopt newCell
    dsimp only
    rw [hnew]
    rw [if_pos hbuilt]
  have hqof : q.ofRecord = update r.ofRecord name (some r.allocated) := rfl
  have hqself : q.ofRecord name = some r.allocated := update_self ..
  have hqcell : q.cells r.allocated = bootstrapSet := update_self ..
  have hentered : Inv q ∧ ∀ x, q.realSetOf x = r.realSetOf x := h.enter rfl rfl rfl hqof rfl
    (fun c hc => update_of_ne hc _ _) (by rw [hnew]; exact hqcell)
  obtain ⟨hinv, hreal⟩ := hentered
  obtain ⟨fresh, hminted, hof, hmoved, halloc⟩ := hinv.mintFor hqself hqcell
  rw [hregister]
  refine ⟨fresh, ⟨hminted.inv, hminted.inactive, hminted.active_eq, hminted.real_self,
    fun x hx => ?_, hminted.built_eq⟩, hof, fun c hc => ?_, halloc⟩
  · rw [hminted.real_of_ne x hx, hreal]
  · have hkept : (q.mintFor name r.allocated).cells c = q.cells c := by
      by_contra hne
      exact hc (hmoved c hne)
    rw [hkept]
    exact update_of_ne hc _ _

/-! ### Splitting -/

/-- **A split moves its part to a set of its own.** -/
theorem Inv.moveOff (h : Inv r) {kept part} (hnodup : part.Nodup)
    (hpart : ∀ x ∈ part, r.realSetOf x = some kept) (hkept : (r.active kept).isSome) :
    ∃ fresh, r.active fresh = none ∧ Inv (r.moveOff kept part) ∧
      (r.moveOff kept part).ofRecord = r.ofRecord ∧ (r.moveOff kept part).built = r.built ∧
      (r.moveOff kept part).allocated = r.allocated ∧
      (∀ x, (r.moveOff kept part).realSetOf x = if x ∈ part then some fresh else r.realSetOf x) ∧
      (∀ id, (r.moveOff kept part).active id = if id = fresh then some part
        else if id = kept then some ((r.members kept).filter fun x => x ∉ part) else r.active id) ∧
      ∀ c, (r.moveOff kept part).cells c ≠ r.cells c → ∃ x ∈ part, r.ofRecord x = some c := by
  obtain ⟨fresh, free, nextId, revision, hmake, hinactive, hfirst, -, -, hsets⟩ := h.toSets.makeSet []
  have hne : kept ≠ fresh := by
    rintro rfl
    rw [hinactive] at hkept
    exact absurd hkept nofun
  obtain ⟨ms, hms⟩ := isSome_iff_exists.1 hkept
  have hmembers : r.members kept = ms := by rw [members, hms, getD_some]
  -- the registry when the part is placed
  set q : Registry ν := (r.splitOff kept part).1 with hq
  have hqeq : q = { r with
      active := update (update r.active fresh (some [])) kept
        (some (ms.filter fun x => x ∉ part))
      free := free
      nextId := nextId
      revision := revision } := by
    rw [hq, splitOff, hmake]
    simp only [Registry.setMembers, update_of_ne hne, hms, map_some]
  have hqid : (r.splitOff kept part).2 = fresh := by rw [splitOff, hmake]
  have hqsets : Sets q := by
    exact Sets.setMembers hsets _ _
  have hqof : q.ofRecord = r.ofRecord := by rw [hqeq]
  have hqcells : Cells q := by
    rw [hqeq]
    exact ⟨h.lt, h.inj⟩
  have hreg : ∀ x ∈ part, (q.ofRecord x).isSome := by
    intro x hx
    rw [hqof]
    exact registered_of_realSetOf (hpart x hx)
  have hqreal : ∀ x, q.realSetOf x = r.realSetOf x := by
    intro x
    rw [hqeq]
    rfl
  obtain ⟨cells, hplace, -, hout⟩ := place_eq hreg fresh
  have hplaced := hqcells.realSetOf_place hreg (Sets.ne_bootstrap hfirst)
  have heq : r.moveOff kept part = Registry.setMembers { q with
      cells := cells
      revision := q.revision + 1 } fresh fun _ => part := by
    rw [Registry.moveOff, hqid, ← hq, hplace]
  have hreal : ∀ x, (r.moveOff kept part).realSetOf x =
      if x ∈ part then some fresh else r.realSetOf x := by
    intro x
    rw [← hqreal, ← hplaced x, heq, hplace]
    rfl
  have hactive : ∀ id, (r.moveOff kept part).active id = if id = fresh then some part
      else if id = kept then some ((r.members kept).filter fun x => x ∉ part) else r.active id := by
    intro id
    rw [heq, hqeq, hmembers]
    simp only [Registry.setMembers]
    by_cases hid : id = fresh
    · subst hid
      rw [if_pos rfl, update_self, update_of_ne hne.symm, update_self,
        map_some]
    · rw [if_neg hid, update_of_ne hid]
      by_cases hid' : id = kept
      · subst hid'
        rw [if_pos rfl, update_self]
      · rw [if_neg hid', update_of_ne hid', update_of_ne hid]
  have hmem : ∀ id, (r.moveOff kept part).members id = if id = fresh then part
      else if id = kept then (r.members kept).filter fun x => x ∉ part else r.members id := by
    intro id
    rw [members, hactive]
    split_ifs
    · rfl
    · rfl
    · rfl
  have hofRecord : (r.moveOff kept part).ofRecord = r.ofRecord := by
    rw [heq, hqeq]
    rfl
  refine ⟨fresh, hinactive, ⟨?_, ?_, ⟨fun x id => ?_, fun id => ?_⟩⟩, hofRecord, ?_, ?_, hreal,
    hactive, fun c hc => ?_⟩
  · rw [heq, hqeq]
    exact ⟨h.lt, h.inj⟩
  · rw [heq]
    refine Sets.setMembers (hqsets.congr ?_ (fun _ => ?_) ?_) _ _
    · rfl
    · rfl
    · rfl
  · rw [hmem, hreal]
    by_cases hx : x ∈ part
    · rw [if_pos hx, some.injEq]
      split_ifs with hid hid'
      · exact iff_of_true hx hid.symm
      · exact iff_of_false (by simp [hx]) fun heq' => hid heq'.symm
      · rw [h.mem_iff, hpart x hx, some.injEq]
        exact iff_of_false (fun heq' => hid' heq'.symm) fun heq' => hid heq'.symm
    · rw [if_neg hx]
      split_ifs with hid hid'
      · refine iff_of_false hx fun hxid => ?_
        have hsome := h.active_of_realSetOf hxid
        rw [hid, hinactive] at hsome
        exact absurd hsome nofun
      · rw [hid', List.mem_filter, h.mem_iff]
        simp [hx]
      · exact h.mem_iff x id
  · rw [hmem]
    split_ifs
    · exact hnodup
    · exact (h.nodup kept).filter _
    · exact h.nodup id
  · rw [heq, hqeq]
    rfl
  · rw [heq, hqeq]
    rfl
  · by_contra hnone
    refine hc ?_
    rw [heq]
    have hcells := hout c fun x hx hxc => hnone ⟨x, hx, hqof ▸ hxc⟩
    rw [hqeq] at hcells
    exact hcells

lemma Inv.rejoin (h : Inv r) {kept part} (hnodup : part.Nodup)
    (hpart : ∀ x ∈ part, r.realSetOf x = some kept) (hkept : (r.active kept).isSome) :
    Inv (r.rejoin kept part) ∧ (r.rejoin kept part).ofRecord = r.ofRecord ∧
      (r.rejoin kept part).built = r.built ∧ (r.rejoin kept part).cells = r.cells ∧
      (r.rejoin kept part).allocated = r.allocated ∧
      ∀ id, (r.rejoin kept part).active id =
        if id = kept then some ((r.members kept).filter (fun x => x ∉ part) ++ part) else r.active id := by
  obtain ⟨fresh, free, nextId, revision, hmake, hinactive, hfirst, -, -, hsets⟩ := h.toSets.makeSet []
  have hne : kept ≠ fresh := by
    rintro rfl
    rw [hinactive] at hkept
    exact absurd hkept nofun
  obtain ⟨ms, hms⟩ := isSome_iff_exists.1 hkept
  have hmembers : r.members kept = ms := by rw [members, hms, getD_some]
  have heq : r.rejoin kept part = { r with
      active := update (update (update (update r.active fresh
        (some [])) kept (some (ms.filter fun x => x ∉ part))) kept
        (some (ms.filter (fun x => x ∉ part) ++ part))) fresh none
      free := free ++ [fresh]
      nextId := nextId
      revision := revision + 1 } := by
    unfold Registry.rejoin splitOff
    rw [hmake]
    simp only [Registry.setMembers, release, update_of_ne hne, hms, map_some,
      update_self]
  have hactive : ∀ id, (r.rejoin kept part).active id =
      if id = kept then some ((r.members kept).filter (fun x => x ∉ part) ++ part)
      else r.active id := by
    intro id
    rw [heq, hmembers]
    dsimp only
    by_cases hid : id = fresh
    · subst hid
      rw [if_neg hne.symm, update_self, hinactive]
    · rw [update_of_ne hid]
      by_cases hid' : id = kept
      · subst hid'
        rw [if_pos rfl, update_self]
      · rw [if_neg hid', update_of_ne hid', update_of_ne hid',
          update_of_ne hid]
  have hreal : ∀ x, (r.rejoin kept part).realSetOf x = r.realSetOf x := by
    intro x
    rw [heq]
    rfl
  have hmem : ∀ id, (r.rejoin kept part).members id = if id = kept
      then (r.members kept).filter (fun x => x ∉ part) ++ part else r.members id := by
    intro id
    rw [members, hactive]
    split_ifs
    · rfl
    · rfl
  refine ⟨⟨?_, ?_, ⟨fun x id => ?_, fun id => ?_⟩⟩, by rw [heq], by rw [heq], by rw [heq],
    by rw [heq], hactive⟩
  · rw [heq]
    exact ⟨h.lt, h.inj⟩
  · have hleft : Sets ((r.splitOff kept part).1.setMembers kept fun members => members ++ part) :=
      Sets.setMembers (Sets.setMembers hsets _ _) _ _
    have hid : (r.splitOff kept part).2 = fresh := by rw [splitOff, hmake]
    have hsome : (((r.splitOff kept part).1.setMembers kept fun members => members ++ part).active
        (r.splitOff kept part).2).isSome := by
      rw [hid, splitOff, hmake]
      simp only [Registry.setMembers, update_of_ne hne.symm, update_self]
      rfl
    exact (hleft.release hsome).congr rfl (fun _ => rfl) rfl
  · rw [hmem, hreal]
    split_ifs with hid
    · rw [hid, List.mem_append, List.mem_filter, h.mem_iff]
      by_cases hx : x ∈ part
      · exact iff_of_true (Or.inr hx) (hpart x hx)
      · simp [hx]
    · exact h.mem_iff x id
  · rw [hmem]
    split_ifs
    · refine List.nodup_append.2 ⟨(h.nodup kept).filter _, hnodup, fun a ha b hb hab => ?_⟩
      rw [List.mem_filter, hab] at ha
      simp [hb] at ha
    · exact h.nodup id

end RecordLock.Registry
