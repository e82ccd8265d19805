/-
**What the revision of the registry tells.**

Every operation on the registry moves its revision forward, or leaves all sets as they were but for
new ones with a single record.  The second happens when a freed set is given out again, which counts as
no revision.  For the operations that move records it is also said which records move.

Main results: `RecordLock.Registry.Running.register`, `RecordLock.Registry.Running.ensureSet`,
`RecordLock.Registry.Running.merge`, `RecordLock.Registry.Running.repartition`,
`RecordLock.Registry.Running.relinkField`.
-/

import EpicsRs.LockPartition

set_option autoImplicit false

namespace RecordLock.Registry

open Function Option

variable {ν : Type} {r r' r'' : Registry ν} {name x y : ν}

/-- A registry after the build. -/
structure Running (r : Registry ν) : Prop extends Inv r where
  real : ∀ x, (r.ofRecord x).isSome → (r.realSetOf x).isSome
  built : r.built = true

/-- The revision never goes back.  While it stays, a set keeps its members, and a record that gets
another set gets one of its own. -/
structure Advances (r r' : Registry ν) : Prop where
  le : r.revision ≤ r'.revision
  real : r'.revision = r.revision → ∀ x id, r'.realSetOf x = some id →
    r.realSetOf x = some id ∨ r'.active id = some [x]
  active : r'.revision = r.revision → ∀ id ms, r.active id = some ms → r'.active id = some ms

lemma Advances.refl (r : Registry ν) : Advances r r :=
  ⟨Nat.le_refl _, fun _ _ _ h => Or.inl h, fun _ _ _ h => h⟩

lemma Advances.of_lt (h : r.revision < r'.revision) : Advances r r' :=
  ⟨h.le, fun heq => absurd heq h.ne', fun heq => absurd heq h.ne'⟩

lemma Advances.trans (h : Advances r r') (h' : Advances r' r'') : Advances r r'' := by
  refine ⟨h.le.trans h'.le, fun heq x id hx => ?_, fun heq id ms hms => ?_⟩
  · have hmid : r'.revision = r.revision := Nat.le_antisymm (heq ▸ h'.le) h.le
    rcases h'.real (heq.trans hmid.symm) x id hx with hx' | hx'
    · rcases h.real hmid x id hx' with hx'' | hactive
      · exact Or.inl hx''
      · exact Or.inr (h'.active (heq.trans hmid.symm) id [x] hactive)
    · exact Or.inr hx'
  · have hmid : r'.revision = r.revision := Nat.le_antisymm (heq ▸ h'.le) h.le
    exact h'.active (heq.trans hmid.symm) id ms (h.active hmid id ms hms)

variable [LinearOrder ν]

/-! ### The revision -/

omit [LinearOrder ν] in
lemma revision_makeSet (r : Registry ν) (ms : List ν) : r.revision ≤ (r.makeSet ms).1.revision := by
  unfold makeSet
  cases r.free with
  | nil => exact Nat.le_succ _
  | cons id free => exact Nat.le_refl _

lemma revision_place (r : Registry ν) (names : List ν) (set : ℕ) :
    (r.place names set).revision = r.revision + 1 := by
  have hone : ∀ (q : Registry ν) (name : ν), (placeOne set q name).revision = q.revision := by
    intro q name
    unfold placeOne
    cases q.ofRecord name with
    | none => rfl
    | some lr => rfl
  have hloop : ∀ (names : List ν) (q : Registry ν),
      (names.foldl (placeOne set) q).revision = q.revision := by
    intro names
    induction names with
    | nil => exact fun _ => rfl
    | cons name names ih => exact fun q => (ih _).trans (hone q name)
  exact hloop names _

lemma revision_merge {a b} (hx : r.realSetOf x = some a) (hy : r.realSetOf y = some b) (hne : a ≠ b)
    : r.revision < (r.merge x y).revision := by
  unfold merge
  rw [hx, hy]
  dsimp only
  rw [if_neg hne]
  have hplace := revision_place { r with active := update r.active b none } (r.members b) a
  simp only [setMembers, hplace]
  omega

lemma revision_moveOff (r : Registry ν) (kept : ℕ) (part : List ν) :
    r.revision < (r.moveOff kept part).revision := by
  have hmake := revision_makeSet r []
  have hplace := revision_place (r.splitOff kept part).1 part (r.splitOff kept part).2
  have heq : (r.moveOff kept part).revision = (r.splitOff kept part).1.revision + 1 := hplace
  have hleft : (r.splitOff kept part).1.revision = (r.makeSet []).1.revision := rfl
  omega

lemma revision_rejoin (r : Registry ν) (kept : ℕ) (part : List ν) :
    r.revision < (r.rejoin kept part).revision := by
  have hmake := revision_makeSet r []
  have heq : (r.rejoin kept part).revision = (r.makeSet []).1.revision + 1 := rfl
  omega

omit [LinearOrder ν] in
lemma revision_resolve (L : List (List ν × Option ℕ)) : ∀ r : Registry ν,
    r.revision ≤ (r.resolve L).1.revision := by
  induction L with
  | nil => exact fun r => Nat.le_refl _
  | cons l L ih =>
    intro r
    obtain ⟨ms, kept⟩ := l
    cases kept with
    | some id => exact ih r
    | none => exact (revision_makeSet r []).trans (ih _)

lemma revision_settle (L : List (List ν × ℕ)) : ∀ r : Registry ν,
    r.revision ≤ (L.foldl settle r).revision := by
  induction L with
  | nil => exact fun r => Nat.le_refl _
  | cons c L ih =>
    intro r
    have hplace := revision_place r c.1 c.2
    have hone : (settle r c).revision = (r.place c.1 c.2).revision := rfl
    exact (by omega : r.revision ≤ (settle r c).revision).trans (ih _)

omit [LinearOrder ν] in
lemma revision_release (ids : List ℕ) : ∀ r : Registry ν,
    (ids.foldl release r).revision = r.revision := by
  induction ids with
  | nil => exact fun r => rfl
  | cons id ids ih => exact fun r => ih _

lemma revision_repartition {seed lr} (h : r.ofRecord seed = some lr) (adjacency : Adjacency ν)
    : r.revision < (r.repartition seed adjacency).revision := by
  unfold repartition
  rw [h]
  dsimp only
  rw [revision_release]
  exact Nat.lt_succ_of_le ((revision_resolve _ (r.dropRemoved adjacency _)).trans (revision_settle _ _))

/-! ### A set for one record -/

lemma Minted.advances {fresh} (h : Minted r r' name fresh) (hle : r.revision ≤ r'.revision) :
    Advances r r' := by
  refine ⟨hle, fun _ x id hx => ?_, fun _ id ms hms => ?_⟩
  · by_cases hxn : x = name
    · subst hxn
      rw [h.real_self, some.injEq] at hx
      rw [← hx, h.active_eq, update_self]
      exact Or.inr rfl
    · rw [h.real_of_ne x hxn] at hx
      exact Or.inl hx
  · have hne : id ≠ fresh := by
      rintro rfl
      rw [h.inactive] at hms
      exact absurd hms nofun
    rw [h.active_eq, update_of_ne hne]
    exact hms

lemma Minted.running {fresh} (h : Minted r r' name fresh) (hr : Running r)
    (hof : ∀ x, x ≠ name → r'.ofRecord x = r.ofRecord x) : Running r' := by
  refine ⟨h.inv, fun x hx => ?_, h.built_eq.trans hr.built⟩
  by_cases hxn : x = name
  · rw [hxn, h.real_self]
    rfl
  · rw [h.real_of_ne x hxn]
    exact hr.real x (hof x hxn ▸ hx)

lemma revision_mintFor (r : Registry ν) (name : ν) (lr : ℕ) :
    r.revision ≤ (r.mintFor name lr).revision := by
  unfold mintFor
  split_ifs
  · exact Nat.le_refl _
  · exact revision_makeSet r [name]

lemma revision_register (r : Registry ν) (name : ν) : r.revision ≤ (r.register name).revision := by
  unfold register adopt newCell
  dsimp only
  cases r.ofRecord name with
  | some existing =>
    dsimp only
    split_ifs
    · exact Nat.le_refl _
    · exact Nat.le_succ _
  | none =>
    split_ifs
    · exact revision_mintFor { (r.newCell bootstrapSet).1 with
        ofRecord := update r.ofRecord name (some r.allocated) } name r.allocated
    · exact Nat.le_refl _

/-- **Registration keeps the registry running**, and re-points no cell of another record. -/
theorem Running.register (h : Running r) (name : ν) :
    Running (r.register name) ∧ Advances r (r.register name) ∧
      ∀ c, c < r.allocated → (r.register name).cells c = r.cells c := by
  have hle := revision_register r name
  cases hof : r.ofRecord name with
  | none =>
    obtain ⟨fresh, hminted, hof', hcells, -⟩ := h.toInv.register_minted hof h.built
    refine ⟨hminted.running h fun x hx => ?_, hminted.advances hle, fun c hc => hcells c hc.ne⟩
    rw [hof', update_of_ne hx]
  | some lr =>
    have hkept : (r.ofRecord name).isSome := by rw [hof]; rfl
    obtain ⟨hinv, hreal, hof', hactive, hbuilt, hcells, -⟩ := h.toInv.register_kept (Or.inl hkept)
    refine ⟨⟨hinv, fun x hx => ?_, hbuilt.trans h.built⟩, ⟨hle, fun _ x id hx => ?_,
      fun _ id ms hms => ?_⟩, fun c hc => hcells c hc.ne⟩
    · rw [hreal]
      by_cases hxn : x = name
      · exact hxn ▸ h.real name hkept
      · rw [hof', update_of_ne hxn] at hx
        exact h.real x hx
    · exact Or.inl (hreal x ▸ hx)
    · rw [hactive]
      exact hms

lemma Running.mintFor_eq {lr} (h : Running r) (hof : r.ofRecord name = some lr) :
    r.mintFor name lr = r := by
  obtain ⟨id, hid⟩ := isSome_iff_exists.1 (h.real name (by rw [hof]; rfl))
  obtain ⟨c, hc, rfl, hne⟩ := realSetOf_eq_some.1 hid
  rw [hof, some.injEq] at hc
  rw [hc]
  exact if_pos hne

/-- **A name that is resolved has a cell**, and no other cell is re-pointed. -/
theorem Running.ensureSet (h : Running r) (name : ν) :
    Running (r.ensureSet name).1 ∧ Advances r (r.ensureSet name).1 ∧
      (∀ c, c < r.allocated → (r.ensureSet name).1.cells c = r.cells c) ∧
      (r.ensureSet name).1.ofRecord name = some (r.ensureSet name).2 := by
  unfold Registry.ensureSet
  dsimp only
  cases hof : r.ofRecord name with
  | none =>
    obtain ⟨fresh, hminted, hcell, hof', hcells, -⟩ := h.toInv.lockRecordOf hof
    have hself : (r.lockRecordOf name).1.ofRecord name = some (r.lockRecordOf name).2 := by
      rw [hof', update_self, hcell]
    have hrunning : Running (r.lockRecordOf name).1 := hminted.running h fun x hx => by
      rw [hof', update_of_ne hx]
    have hle : r.revision ≤ (r.lockRecordOf name).1.revision := by
      unfold Registry.lockRecordOf
      rw [hof]
      exact revision_makeSet r [name]
    rw [hrunning.mintFor_eq hself]
    refine ⟨hrunning, hminted.advances hle, fun c hc => ?_, hself⟩
    by_contra hne
    exact hc.ne (hcells c hne)
  | some lr =>
    have hlock : r.lockRecordOf name = (r, lr) := by
      unfold Registry.lockRecordOf
      rw [hof]
    rw [hlock]
    rw [h.mintFor_eq hof]
    exact ⟨h, .refl r, fun _ _ => rfl, hof⟩

/-! ### Moving records -/

/-- **A merge keeps the registry running** and moves the records of the second set only. -/
theorem Running.merge (h : Running r) (x y : ν) :
    Running (r.merge x y) ∧ Advances r (r.merge x y) ∧
      ∀ c, (r.merge x y).cells c ≠ r.cells c → ∃ z b, r.ofRecord z = some c ∧
        r.realSetOf z = some b ∧ r.realSetOf y = some b ∧ r.realSetOf x ≠ some b := by
  have hsame : r.merge x y = r → Running (r.merge x y) ∧ Advances r (r.merge x y) ∧
      ∀ c, (r.merge x y).cells c ≠ r.cells c → ∃ z b, r.ofRecord z = some c ∧
        r.realSetOf z = some b ∧ r.realSetOf y = some b ∧ r.realSetOf x ≠ some b := by
    intro heq
    rw [heq]
    exact ⟨h, .refl r, fun c hc => absurd rfl hc⟩
  cases hx : r.realSetOf x with
  | none =>
    refine hx ▸ hsame ?_
    unfold Registry.merge
    rw [hx]
  | some a =>
    cases hy : r.realSetOf y with
    | none =>
      refine hx ▸ hy ▸ hsame ?_
      unfold Registry.merge
      rw [hx, hy]
    | some b =>
      by_cases hab : a = b
      · refine hx ▸ hy ▸ hsame ?_
        unfold Registry.merge
        rw [hx, hy]
        exact if_pos hab
      · obtain ⟨hinv, hof, -, hbuilt, -, hreal, hmoved⟩ := h.toInv.merge hx hy hab
        refine ⟨⟨hinv, fun z hz => ?_, hbuilt.trans h.built⟩, .of_lt (revision_merge hx hy hab),
          fun c hc => ?_⟩
        · rw [hreal]
          split_ifs
          · rfl
          · exact h.real z (hof ▸ hz)
        · obtain ⟨z, hz, hzc⟩ := hmoved c hc
          exact ⟨z, b, hzc, (h.mem_iff z b).1 hz, rfl, fun heq => hab (some.inj heq)⟩

/-- **`repartition` keeps the registry running.** -/
theorem Running.repartition (h : Running r) {adjacency} (hsymm : adjacency.Symmetric) (seed : ν) :
    Running (r.repartition seed adjacency) ∧ Advances r (r.repartition seed adjacency) := by
  cases hof : r.ofRecord seed with
  | none =>
    have heq : r.repartition seed adjacency = r := by
      unfold Registry.repartition
      rw [hof]
    rw [heq]
    exact ⟨h, .refl r⟩
  | some lr =>
    obtain ⟨seedId, hseed⟩ := isSome_iff_exists.1 (h.real seed (by rw [hof]; rfl))
    have R := h.toInv.repartition hsymm hseed
    refine ⟨⟨R.inv, fun x hx => ?_, R.built_eq.trans h.built⟩,
      .of_lt (revision_repartition hof adjacency)⟩
    rw [R.ofRecord_eq] at hx
    split_ifs at hx with hgone
    · exact absurd hx nofun
    · by_cases hin : x ∈ r.affected adjacency seed
      · have hkey : x ∈ adjacency.keys := not_not.1 fun hkey => hgone ⟨hin, hkey⟩
        exact (R.same x hin hkey (h.real x hx)).1
      · rw [R.outside x hin]
        exact h.real x hx

/-- What a relink does to the records that it moves: they come out of the set of the record, or out of
that of the new target. -/
structure Relinked (r r' : Registry ν) (record : ν) (target : Option ν) : Prop where
  running : Running r'
  advances : Advances r r'
  moved : ∀ c, r'.cells c ≠ r.cells c → ∃ z s, r.ofRecord z = some c ∧ r.realSetOf z = some s ∧
    (r.realSetOf record = some s ∧ z ≠ record ∨
      ∃ t ∈ target, r.realSetOf t = some s ∧ r.realSetOf record ≠ some s)

lemma Running.relinked_mergeNew (h : Running r) (record : ν) (target : Option ν) :
    Relinked r (r.mergeNew record target) record target := by
  cases target with
  | none => exact ⟨h, .refl r, fun c hc => absurd rfl hc⟩
  | some t =>
    obtain ⟨hrunning, hadvances, hmoved⟩ := h.merge record t
    refine ⟨hrunning, hadvances, fun c hc => ?_⟩
    obtain ⟨z, b, hz, hzb, htb, hne⟩ := hmoved c hc
    exact ⟨z, b, hz, hzb, Or.inr ⟨t, rfl, htb, hne⟩⟩

lemma Running.relinked_splitMerge (h : Running r) {record target kept part} (hkept : r.realSetOf record = some kept) (hnodup : part.Nodup)
    (hnot : record ∉ part) (hpart : ∀ x ∈ part, r.realSetOf x = some kept) :
    Relinked r (r.splitMerge record target kept part) record target := by
  have hactive := h.active_of_realSetOf hkept
  unfold splitMerge
  split_ifs with hback
  · obtain ⟨hinv, hof, hbuilt, hcells, -, -⟩ := h.toInv.rejoin hnodup hpart hactive
    refine ⟨⟨hinv, fun x hx => ?_, hbuilt.trans h.built⟩, .of_lt (revision_rejoin r kept part),
      fun c hc => absurd (congrFun hcells c) hc⟩
    rw [realSetOf, hof, hcells]
    exact h.real x (hof ▸ hx)
  · obtain ⟨fresh, hinactive, hinv, hof, hbuilt, -, hreal, -, hmoved⟩ :=
      h.toInv.moveOff hnodup hpart hactive
    have hrunning : Running (r.moveOff kept part) := by
      refine ⟨hinv, fun x hx => ?_, hbuilt.trans h.built⟩
      rw [hreal]
      split_ifs
      · rfl
      · exact h.real x (hof ▸ hx)
    have hadvances : Advances r (r.moveOff kept part) := .of_lt (revision_moveOff r kept part)
    have R := hrunning.relinked_mergeNew record target
    refine ⟨R.running, hadvances.trans R.advances, fun c hc => ?_⟩
    by_cases hsplit : (r.moveOff kept part).cells c = r.cells c
    · -- the cell is moved by the merge, out of a set that the split did not touch
      obtain ⟨z, s, hz, hzs, hout⟩ := R.moved c (by rw [hsplit]; exact hc)
      have hfresh : ∀ x, r.realSetOf x ≠ some fresh := by
        intro x hx
        have hsome := h.active_of_realSetOf hx
        rw [hinactive] at hsome
        cases hsome
      have htarget : ∀ t ∈ target, (r.moveOff kept part).realSetOf t = r.realSetOf t := by
        intro t ht
        rw [hreal, if_neg fun hmem => hback ⟨t, ht, hmem⟩]
      have hrecord : (r.moveOff kept part).realSetOf record = r.realSetOf record := by
        rw [hreal, if_neg hnot]
      have hold : r.realSetOf record = some s ∧ z ≠ record ∨
          ∃ t ∈ target, r.realSetOf t = some s ∧ r.realSetOf record ≠ some s := by
        rcases hout with ⟨hrs, hne⟩ | ⟨t, ht, hts, hne⟩
        · exact Or.inl ⟨hrecord ▸ hrs, hne⟩
        · exact Or.inr ⟨t, ht, htarget t ht ▸ hts, hrecord ▸ hne⟩
      have hsne : s ≠ fresh := by
        rintro rfl
        rcases hold with ⟨hrs, -⟩ | ⟨t, -, hts, -⟩
        · exact hfresh record hrs
        · exact hfresh t hts
      rw [hreal] at hzs
      split_ifs at hzs
      · exact absurd (some.inj hzs).symm hsne
      · exact ⟨z, s, hof ▸ hz, hzs, hold⟩
    · obtain ⟨z, hz, hzc⟩ := hmoved c hsplit
      refine ⟨z, kept, hzc, hpart z hz, Or.inl ⟨hkept, ?_⟩⟩
      rintro rfl
      exact hnot hz

/-- **`relink_field` keeps the registry running** when the split walk stays in the set that it
splits. -/
theorem Running.relinkField (h : Running r) {record field old} (target : Option ν) {adjacency}
    (hwithin : ∀ o ∈ old, ∀ part, (r.removeLink record field).splitPart record o adjacency = some part →
      ∀ x ∈ part, r.realSetOf x = r.realSetOf record) :
    Relinked r (r.relinkField record field old target adjacency) record target := by
  obtain ⟨linkAdded, linksAdded, hnoted⟩ := noteLink_eq (r := r) record field target
  have hn : Running (r.noteLink record field target) := by
    rw [hnoted]
    exact ⟨h.toInv.congr rfl rfl rfl rfl (Nat.le_refl _) rfl, h.real, h.built⟩
  -- noting the link changes no set
  have hnote : ∀ r', Relinked (r.noteLink record field target) r' record target →
      Relinked r r' record target := by
    intro r' R
    rw [hnoted] at R
    exact ⟨R.running, ⟨R.advances.le, R.advances.real, R.advances.active⟩, R.moved⟩
  have hreal : ∀ x, (r.noteLink record field target).realSetOf x = r.realSetOf x := by
    intro x
    rw [hnoted]
    rfl
  cases hpart : old.bind fun old => (r.removeLink record field).splitPart record old adjacency with
  | none =>
    rw [relinkField_none hpart]
    exact hnote _ (hn.relinked_mergeNew record target)
  | some part =>
    obtain ⟨o, ho, hsplit⟩ := bind_eq_some_iff.1 hpart
    obtain ⟨hnodup, hnot, -, hsame⟩ := splitPart_eq_some hsplit
    have hin := hwithin o ho part hsplit
    cases hkept : r.realSetOf record with
    | none =>
      have hrun : r.relinkField record field old target adjacency =
          (r.noteLink record field target).mergeNew record target := by
        unfold Registry.relinkField
        rw [hpart]
        dsimp only
        rw [hreal, hkept]
      rw [hrun]
      exact hnote _ (hn.relinked_mergeNew record target)
    | some kept =>
      have hkept' : (r.noteLink record field target).realSetOf record = some kept := by
        rw [hreal, hkept]
      rw [relinkField_some hpart hkept']
      refine hnote _ (hn.relinked_splitMerge hkept' hnodup hnot fun x hx => ?_)
      rw [hreal, hin x hx, hkept]

end RecordLock.Registry
