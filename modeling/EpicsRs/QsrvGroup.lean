/-
**The triggers of a QSRV group that is merged from fragments.**

`qsrv/group_config.rs`.  A group file or an info tag is a fragment of a group.  `raw_to_group_def`
makes a definition of it, and `merge_group_defs` adds its members to those of the fragments before,
unless their names are taken.  A member without a trigger is to trigger itself, if no member of the
group names a trigger, and to be silent otherwise.  This is settled in every fragment and again after
every merge, and a member once silenced stays silent: also when what it was silenced for is a mapping
that the merge then drops as a duplicate.

A fragment is taken behind `parse_member` and the coercion of its annotations.  Warnings, the lock
and the bound channels are left out.

Main result: `Qsrv.group_triggers_iff`.
-/

import Mathlib

set_option autoImplicit false

namespace Qsrv

open List

/-! ### Fragments and their merge -/

inductive TriggerDef
  | all
  | fields (targets : List String)
  | selfOnly
  | none
deriving DecidableEq

def TriggerDef.isNamed : TriggerDef → Bool
  | .all | .fields _ => true
  | .selfOnly | .none => false

inductive FieldMapping
  | scalar | plain | meta_ | any | proc | structure_ | const
deriving DecidableEq

/-- `GroupMember`; `more` is its `struct_id` and its `const_value`. -/
structure GroupMember (η : Type) where
  fieldName : String
  channel : List UInt8
  mapping : FieldMapping
  triggers : TriggerDef
  putOrder : WithBot ℤ
  more : η
deriving DecidableEq

/-- `RawGroupDef`, with what `parse_member` makes of the fields, in the order of the map.  It gives
`TriggerDef::None` only to members without a channel. -/
structure RawGroupDef (η : Type) where
  id : Option String
  atomic : Option Bool
  fields : List (GroupMember η)
  distinct : (fields.map GroupMember.fieldName).Nodup
  open_triggers : ∀ m ∈ fields, m.channel ≠ [] → m.triggers ≠ .none

structure GroupPvDef (η : Type) where
  structId : Option String
  atomic : Bool
  atomicIsSet : Bool
  members : List (GroupMember η)

variable {η : Type}

def hasTriggers (ms : List (GroupMember η)) : Bool := ms.any fun m => m.triggers.isNamed

def demote (m : GroupMember η) : GroupMember η :=
  if m.triggers = .selfOnly then { m with triggers := .none } else m

def resolveSelfTriggerDefault (ms : List (GroupMember η)) : List (GroupMember η) :=
  if hasTriggers ms then ms.map demote else ms

/-- The order of the members: by put order, none first, and then by name. -/
def CanonicalLe (a b : GroupMember η) : Prop :=
  toLex (a.putOrder, a.fieldName) ≤ toLex (b.putOrder, b.fieldName)

instance : DecidableRel (CanonicalLe (η := η)) := fun _ _ => inferInstanceAs (Decidable (_ ≤ _))

def sortMembersCanonical (ms : List (GroupMember η)) : List (GroupMember η) :=
  ms.insertionSort CanonicalLe

/-- The fields that `raw_to_group_def` takes up: only a `meta` mapping may have no name. -/
def RawGroupDef.taken (raw : RawGroupDef η) : List (GroupMember η) :=
  raw.fields.filter fun m => !(m.fieldName.isEmpty && m.mapping != .meta_)

def rawToGroupDef (raw : RawGroupDef η) : GroupPvDef η where
  structId := raw.id.filter fun s => !s.isEmpty
  atomic := raw.atomic.getD true
  atomicIsSet := raw.atomic.isSome
  members := resolveSelfTriggerDefault (sortMembersCanonical raw.taken)

/-- A member is pushed unless its name was seen. -/
def pushNew (ms : List (GroupMember η)) (m : GroupMember η) : List (GroupMember η) :=
  if m.fieldName ∈ ms.map GroupMember.fieldName then ms else ms ++ [m]

/-- `merge_group_defs`, for one definition and the entry of its group. -/
def mergeGroupDefs (existing : Option (GroupPvDef η)) (d : GroupPvDef η) : GroupPvDef η :=
  match existing with
  | none => d
  | some e =>
    { structId := if d.structId.isSome then d.structId else e.structId
      atomic := if d.atomicIsSet then d.atomic else e.atomic
      atomicIsSet := d.atomicIsSet || e.atomicIsSet
      members := resolveSelfTriggerDefault (sortMembersCanonical (d.members.foldl pushNew e.members)) }

def merged (first : RawGroupDef η) (rest : List (RawGroupDef η)) : GroupPvDef η :=
  rest.foldl (fun e raw => mergeGroupDefs (some e) (rawToGroupDef raw))
    (mergeGroupDefs none (rawToGroupDef first))

/-! ### What the merge is to give -/

/-- The members of a fragment, each with whether the fragment names a trigger. -/
def RawGroupDef.tagged (raw : RawGroupDef η) : List (GroupMember η × Bool) :=
  raw.taken.map fun m => (m, hasTriggers raw.taken)

def names (ps : List (GroupMember η × Bool)) : List String := ps.map fun p => p.1.fieldName

/-- The members of the group: of each name the one of the first fragment that defines it. -/
def kept (raws : List (RawGroupDef η)) : List (GroupMember η × Bool) :=
  raws.foldl (fun ps raw => ps ++ raw.tagged.filter fun p => p.1.fieldName ∉ names ps) []

def Triggered (raws : List (RawGroupDef η)) : Bool := hasTriggers ((kept raws).map Prod.fst)

/-- The member `m` of a group is `m₀` as it was defined, with the trigger that it has in the group. -/
structure Settles (triggered : Bool) (m₀ m : GroupMember η) : Prop where
  same : m = { m₀ with triggers := m.triggers }
  named : m₀.triggers.isNamed = true → m.triggers = m₀.triggers
  default : m₀.channel ≠ [] → m₀.triggers.isNamed = false →
    m.triggers = if triggered then .none else .selfOnly

/-- The group depends on the merged members only. -/
structure Meets (raws : List (RawGroupDef η)) (g : GroupPvDef η) : Prop where
  distinct : (g.members.map GroupMember.fieldName).Nodup
  ordered : g.members.Pairwise CanonicalLe
  from_kept : ∀ m ∈ g.members, ∃ p ∈ kept raws, Settles (Triggered raws) p.1 m
  of_kept : ∀ p ∈ kept raws, ∃ m ∈ g.members, Settles (Triggered raws) p.1 m
  atomic : g.atomic = ((raws.filterMap RawGroupDef.atomic).getLast?.getD true)
  structId : g.structId = (raws.filterMap fun raw => raw.id.filter fun s => !s.isEmpty).getLast?

/-! ### What it gives -/

/-- A member as the code leaves it: silenced by its own fragment or by the group. -/
def settle (triggered : Bool) (p : GroupMember η × Bool) : GroupMember η :=
  if p.2 || triggered then demote p.1 else p.1

variable (m : GroupMember η) (raw : RawGroupDef η)

@[simp] lemma fieldName_demote : (demote m).fieldName = m.fieldName := by
  unfold demote
  split_ifs <;> rfl

@[simp] lemma putOrder_demote : (demote m).putOrder = m.putOrder := by
  unfold demote
  split_ifs <;> rfl

@[simp] lemma isNamed_demote : (demote m).triggers.isNamed = m.triggers.isNamed := by
  unfold demote
  split_ifs with h
  · rw [h]
    rfl
  · rfl

@[simp] lemma fieldName_settle (t : Bool) (p : GroupMember η × Bool) :
    (settle t p).fieldName = p.1.fieldName := by
  unfold settle
  split_ifs <;> simp

lemma demote_settle (t : Bool) (p : GroupMember η × Bool) : demote (settle t p) = settle true p := by
  simp only [settle, Bool.or_true, if_true]
  split_ifs
  · simp only [demote]
    split_ifs <;> simp_all
  · rfl

lemma hasTriggers_map_demote (ms : List (GroupMember η)) :
    hasTriggers (ms.map demote) = hasTriggers ms := by
  simp [hasTriggers, any_map, Function.comp_def]

/-- **The default is settled**, whatever part of the members was silenced before. -/
theorem resolve_perm {ms} {ps : List (GroupMember η × Bool)}
    (hall : (ms.map demote).Perm (ps.map (settle true)))
    (hquiet : hasTriggers (ps.map Prod.fst) = false → ms.Perm (ps.map (settle false))) :
    (resolveSelfTriggerDefault (sortMembersCanonical ms)).Perm
      (ps.map (settle (hasTriggers (ps.map Prod.fst)))) := by
  have hsort : (sortMembersCanonical ms).Perm ms := perm_insertionSort _ _
  have hnamed : hasTriggers (sortMembersCanonical ms) = hasTriggers (ps.map Prod.fst) := by
    calc hasTriggers (sortMembersCanonical ms) = hasTriggers (ms.map demote) := by
          rw [hasTriggers_map_demote]
          exact hsort.any_eq
      _ = hasTriggers (ps.map (settle true)) := hall.any_eq
      _ = hasTriggers (ps.map Prod.fst) := by simp [hasTriggers, any_map, Function.comp_def, settle]
  unfold resolveSelfTriggerDefault
  rw [hnamed]
  cases hcase : hasTriggers (ps.map Prod.fst) with
  | false => exact hsort.trans (hquiet hcase)
  | true => exact (hsort.map demote).trans hall

lemma ordered_resolve (ms : List (GroupMember η)) :
    (resolveSelfTriggerDefault (sortMembersCanonical ms)).Pairwise CanonicalLe := by
  have : Std.Total (CanonicalLe (η := η)) := ⟨fun _ _ => le_total _ _⟩
  have : IsTrans _ (CanonicalLe (η := η)) := ⟨fun _ _ _ => le_trans⟩
  have hsort : (sortMembersCanonical ms).Pairwise CanonicalLe := pairwise_insertionSort _ _
  unfold resolveSelfTriggerDefault
  split_ifs
  · exact pairwise_map.2 (hsort.imp fun h => by simpa [CanonicalLe] using h)
  · exact hsort

lemma foldl_pushNew (ds ms : List (GroupMember η)) (h : (ds.map GroupMember.fieldName).Nodup) :
    ds.foldl pushNew ms =
      ms ++ ds.filter fun m => m.fieldName ∉ ms.map GroupMember.fieldName := by
  induction ds generalizing ms with
  | nil => simp
  | cons d ds ih =>
    rw [map_cons, nodup_cons] at h
    rw [foldl_cons, ih _ h.2, pushNew, filter_cons]
    split_ifs with hseen hnew hnew
    · simp [hseen] at hnew
    · rfl
    · rw [append_assoc, singleton_append]
      congr 2
      refine filter_congr fun m hm => ?_
      have hne : m.fieldName ≠ d.fieldName := fun heq => h.1 (heq ▸ mem_map_of_mem hm)
      simp [hne]
    · simp [hseen] at hnew

lemma nodup_tagged : (names raw.tagged).Nodup := by
  simpa [names, RawGroupDef.tagged, RawGroupDef.taken, Function.comp_def] using
    raw.distinct.sublist (filter_sublist.map GroupMember.fieldName)

lemma names_of_perm {ms : List (GroupMember η)} {ps t} (h : ms.Perm (ps.map (settle t)))
    : (ms.map GroupMember.fieldName).Perm (names ps) := by
  simpa [names, Function.comp_def] using h.map GroupMember.fieldName

lemma fst_tagged : raw.tagged.map Prod.fst = raw.taken := by
  simp [RawGroupDef.tagged, Function.comp_def]

lemma members_rawToGroupDef : (rawToGroupDef raw).members.Perm (raw.tagged.map (settle false)) := by
  have hfst := fst_tagged raw
  have hperm := @resolve_perm η raw.taken raw.tagged
    (by simp [RawGroupDef.tagged, settle, Function.comp_def]) fun hquiet => by
      rw [hfst] at hquiet
      simp [RawGroupDef.tagged, settle, Function.comp_def, hquiet]
  rw [hfst] at hperm
  refine hperm.trans (Perm.of_eq ?_)
  simp [RawGroupDef.tagged, settle, Function.comp_def]

/-- What holds of the group after some fragments. -/
structure Sound (raws : List (RawGroupDef η)) (g : GroupPvDef η) : Prop where
  perm : g.members.Perm ((kept raws).map (settle (Triggered raws)))
  distinct : (names (kept raws)).Nodup
  open_triggers : ∀ p ∈ kept raws, p.1.channel ≠ [] → p.1.triggers ≠ .none
  ordered : g.members.Pairwise CanonicalLe
  atomic : g.atomic = ((raws.filterMap RawGroupDef.atomic).getLast?.getD true)
  structId : g.structId = (raws.filterMap fun raw => raw.id.filter fun s => !s.isEmpty).getLast?

lemma open_triggers_tagged {raw : RawGroupDef η} {p} (hp : p ∈ raw.tagged)
    (hchannel : p.1.channel ≠ []) : p.1.triggers ≠ .none := by
  obtain ⟨m, hm, rfl⟩ := mem_map.1 hp
  exact raw.open_triggers m (mem_filter.1 hm).1 hchannel

lemma sound_first : Sound [raw] (mergeGroupDefs none (rawToGroupDef raw)) := by
  have hkept : kept [raw] = raw.tagged := by simp [kept, names]
  refine ⟨?_, ?_, fun p hp => open_triggers_tagged (hkept ▸ hp), ordered_resolve _, ?_, ?_⟩
  · refine (members_rawToGroupDef raw).trans (Perm.of_eq ?_)
    rw [Triggered, hkept, fst_tagged]
    simp [RawGroupDef.tagged, settle, Function.comp_def]
  · rw [hkept]
    exact nodup_tagged raw
  · cases h : raw.atomic <;> simp [mergeGroupDefs, rawToGroupDef, h]
  · cases h : raw.id.filter fun s => !s.isEmpty <;> simp [mergeGroupDefs, rawToGroupDef, h]

theorem Sound.merge {raws : List (RawGroupDef η)} {g : GroupPvDef η} (h : Sound raws g)
    (raw : RawGroupDef η) :
    Sound (raws ++ [raw]) (mergeGroupDefs (some g) (rawToGroupDef raw)) := by
  have hkept : kept (raws ++ [raw]) =
      kept raws ++ raw.tagged.filter fun p => p.1.fieldName ∉ names (kept raws) := by
    rw [kept, foldl_append]
    rfl
  have hd := members_rawToGroupDef raw
  have hpushed : ((rawToGroupDef raw).members.foldl pushNew g.members).Perm
      ((kept raws).map (settle (Triggered raws)) ++
        (raw.tagged.filter fun p => p.1.fieldName ∉ names (kept raws)).map (settle false)) := by
    rw [foldl_pushNew _ _ ((names_of_perm hd).nodup_iff.2 (nodup_tagged raw))]
    refine h.perm.append ((hd.filter _).trans (Perm.of_eq ?_))
    rw [filter_map]
    congr 1
    refine filter_congr fun p _ => ?_
    simp [(names_of_perm h.perm).mem_iff]
  have hmap : ∀ t, demote ∘ settle t = settle (η := η) true := fun t => funext (demote_settle t)
  refine ⟨?_, ?_, fun p hp => ?_, ordered_resolve _, ?_, ?_⟩
  · refine resolve_perm ?_ fun hquiet => ?_
    · refine (hpushed.map demote).trans (Perm.of_eq ?_)
      rw [hkept, map_append, map_append, map_map, map_map, hmap, hmap]
    · have hbefore : Triggered raws = false := by
        rw [hkept, map_append, hasTriggers, any_append, Bool.or_eq_false_iff] at hquiet
        exact hquiet.1
      rw [hbefore] at hpushed
      rwa [hkept, map_append]
  · rw [hkept, names, map_append, nodup_append]
    refine ⟨h.distinct, (nodup_tagged raw).sublist (filter_sublist.map _), fun a ha b hb => ?_⟩
    obtain ⟨p, hp, rfl⟩ := mem_map.1 hb
    rintro rfl
    simpa [show p.1.fieldName ∈ names (kept raws) from ha] using (mem_filter.1 hp).2
  · rw [hkept, mem_append] at hp
    exact hp.elim (h.open_triggers p) fun hp => open_triggers_tagged (mem_filter.1 hp).1
  · rw [filterMap_append, getLast?_append]
    cases hraw : raw.atomic <;> simp [mergeGroupDefs, rawToGroupDef, hraw, h.atomic]
  · rw [filterMap_append, getLast?_append]
    cases hraw : raw.id.filter fun s => !s.isEmpty <;>
      simp [mergeGroupDefs, rawToGroupDef, hraw, h.structId]

lemma sound_merged (first : RawGroupDef η) (rest : List (RawGroupDef η)) :
    Sound (first :: rest) (merged first rest) := by
  induction rest using reverseRecOn with
  | nil => exact sound_first first
  | append_singleton rest raw ih =>
    rw [merged, foldl_append]
    exact ih.merge raw

/-- No member is silenced for a mapping that the group does not have: some member of the group names a
trigger, or no fragment that names one has added a member with a channel and without a trigger. -/
def Unsilenced (raws : List (RawGroupDef η)) : Prop :=
  Triggered raws = true ∨
    ∀ p ∈ kept raws, p.1.channel ≠ [] → p.1.triggers.isNamed = false → p.2 = false

lemma eq_selfOnly {m : GroupMember η} (hopen : m.triggers ≠ .none)
    (hunnamed : m.triggers.isNamed = false) : m.triggers = .selfOnly := by
  cases h : m.triggers <;> simp_all [TriggerDef.isNamed]

lemma settles_settle {t} {p : GroupMember η × Bool}
    (hopen : p.1.channel ≠ [] → p.1.triggers ≠ .none)
    (hclear : t = true ∨ (p.1.channel ≠ [] → p.1.triggers.isNamed = false → p.2 = false)) :
    Settles t p.1 (settle t p) := by
  refine ⟨?_, fun hnamed => ?_, fun hchannel hunnamed => ?_⟩
  · unfold settle demote
    split_ifs <;> rfl
  · have hne : p.1.triggers ≠ .selfOnly := fun h => by simp [h, TriggerDef.isNamed] at hnamed
    simp [settle, demote, hne]
  · have hself := eq_selfOnly (hopen hchannel) hunnamed
    cases t with
    | true => simp [settle, demote, hself]
    | false =>
      have hquiet := hclear.resolve_left (by decide) hchannel hunnamed
      simp [settle, hquiet, hself]

/-- **The triggers of a group depend on the merged group only**, exactly if no member was silenced for
a mapping that the merge dropped. -/
theorem group_triggers_iff (first : RawGroupDef η) (rest : List (RawGroupDef η)) :
    Meets (first :: rest) (merged first rest) ↔ Unsilenced (first :: rest) := by
  have h := sound_merged first rest
  constructor
  · intro hmeets
    by_contra hnot
    simp only [Unsilenced, not_or, not_forall, Bool.not_eq_true, Bool.not_eq_false] at hnot
    obtain ⟨htriggered, p, hp, hchannel, hunnamed, hloud⟩ := hnot
    obtain ⟨m, hm, hsettles⟩ := hmeets.of_kept p hp
    obtain ⟨q, hq, rfl⟩ := mem_map.1 (h.perm.mem_iff.1 hm)
    -- the member of that name is the one that its fragment has silenced
    have hname : q.1.fieldName = p.1.fieldName := by
      simpa using congrArg GroupMember.fieldName hsettles.same
    obtain rfl := inj_on_of_nodup_map h.distinct hq hp hname
    have htrigger := hsettles.default hchannel hunnamed
    have hself := eq_selfOnly (h.open_triggers q hq hchannel) hunnamed
    simp [htriggered, settle, hloud, demote, hself] at htrigger
  · intro hclear
    have hsettles : ∀ p ∈ kept (first :: rest),
        Settles (Triggered (first :: rest)) p.1 (settle (Triggered (first :: rest)) p) :=
      fun p hp => settles_settle (h.open_triggers p hp) (hclear.imp_right fun hall => hall p hp)
    refine ⟨?_, h.ordered, fun m hm => ?_, fun p hp => ?_, h.atomic, h.structId⟩
    · exact (names_of_perm h.perm).nodup_iff.2 h.distinct
    · obtain ⟨p, hp, rfl⟩ := mem_map.1 (h.perm.mem_iff.1 hm)
      exact ⟨p, hp, hsettles p hp⟩
    · exact ⟨_, h.perm.mem_iff.2 (mem_map_of_mem hp), hsettles p hp⟩

def channeled (fieldName : String) (triggers : TriggerDef) : GroupMember Unit :=
  ⟨fieldName, [114], .plain, triggers, none, ()⟩

/-- The member `a`, without a trigger. -/
def plainFragment : RawGroupDef Unit :=
  ⟨none, none, [channeled "a" .selfOnly], by decide, by decide⟩

/-- `a` once more, with the trigger `*`, and `b` without one. -/
def loudFragment : RawGroupDef Unit :=
  ⟨none, none, [channeled "a" .all, channeled "b" .selfOnly], by decide, by decide⟩

/-- **A dropped duplicate silences its neighbour**: no member of the group names a trigger, and `b`
triggers nothing. -/
theorem silenced_by_duplicate :
    ¬Meets [plainFragment, loudFragment] (merged plainFragment [loudFragment]) := by
  intro h
  have hkept : kept [plainFragment, loudFragment] =
      [(channeled "a" .selfOnly, false), (channeled "b" .selfOnly, true)] := by decide
  have hmembers : (merged plainFragment [loudFragment]).members =
      [channeled "a" .selfOnly, channeled "b" .none] := by decide
  obtain ⟨m, hm, hsettles⟩ := h.of_kept (channeled "b" .selfOnly, true) (by simp [hkept])
  have hname := congrArg GroupMember.fieldName hsettles.same
  have htrigger := hsettles.default (by decide) rfl
  rw [Triggered, hkept] at htrigger
  rw [hmembers] at hm
  fin_cases hm
  · exact absurd hname (by decide)
  · cases htrigger

end Qsrv
