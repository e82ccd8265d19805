/-
**Every descriptor that is accepted is small.**

A reference `0xFE` splices a cached subtree in without any nesting of the bytes, so definitions that
refer to each other twice describe a tree of exponential size.  What stops them is an invariant of
the cache: every slot carries the height and the number of nodes of its descriptor, and every body
adds up what its members carry.  It holds through every arm of the decoder, failing ones included.

Main result: `Pva.descriptor_bombs_refused`.
-/

import EpicsRs.PvaTypeDesc

set_option autoImplicit false

namespace Pva

open ByteReader FieldDesc TreeMetrics TypeCache

/-! ### The invariant -/

/-- A slot that carries the height and the node count of its descriptor, both within the limits. -/
structure CachedType.Bounded (slot : CachedType) : Prop where
  height_eq : slot.height = slot.desc.height
  nodes_eq : slot.nodes = slot.desc.nodes
  height_le : slot.desc.height ≤ maxFieldDepth
  nodes_le : slot.desc.nodes ≤ maxFieldNodes

def TypeCache.Bounded (cache : TypeCache) : Prop :=
  ∀ key slot, cache key = some slot → slot.Bounded

/-- What the decoder returns: a descriptor with its true metrics, within the limits. -/
structure Measured (dm : FieldDesc × TreeMetrics) : Prop where
  metrics_eq : dm.2 = TreeMetrics.of dm.1
  height_le : dm.1.height ≤ maxFieldDepth
  nodes_le : dm.1.nodes ≤ maxFieldNodes

lemma TypeCache.bounded_empty : empty.Bounded := by
  intro key slot h
  simp at h

lemma TypeCache.Bounded.orInsert {cache : TypeCache} (h : cache.Bounded) (key : UInt16)
    {slot : CachedType} (hs : slot.Bounded) : (cache.orInsert key slot).Bounded := by
  intro k c hk
  rcases orInsert_cases hk with hk | ⟨-, rfl⟩
  · exact h k c hk
  · exact hs

lemma Measured.bounded {dm} (h : Measured dm) :
    (CachedType.newWithMetrics dm.1 dm.2).Bounded where
  height_eq := congrArg TreeMetrics.height h.metrics_eq
  nodes_eq := congrArg TreeMetrics.nodes h.metrics_eq
  height_le := h.height_le
  nodes_le := h.nodes_le

lemma CachedType.Bounded.measured {slot : CachedType} (h : slot.Bounded) :
    Measured (slot.desc, ⟨slot.height, slot.nodes⟩) where
  metrics_eq := by simp [of, h.height_eq, h.nodes_eq]
  height_le := h.height_le
  nodes_le := h.nodes_le

lemma measured_leaf {d} (h : d.cacheable = false) : Measured (d, leaf) where
  metrics_eq := by simp [of, leaf, height_leaf h,
    nodes_leaf h]
  height_le := by simp [height_leaf h]
  nodes_le := by simp [nodes_leaf h, maxFieldNodes]

lemma Measured.lift (k k' : Compound) {i ms m} (h : Measured (k.desc i ms, m))
    : Measured (k'.desc i ms, m) := by
  refine ⟨?_, ?_, ?_⟩
  · have := h.metrics_eq
    simpa [of] using this
  · simpa using h.height_le
  · simpa using h.nodes_le

/-! ### The steps of the decoder -/

lemma keeps_checkFieldMetrics {I : TypeCache → Prop} (m : TreeMetrics) :
    Keeps I (checkFieldMetrics m) fun _ => m.height ≤ maxFieldDepth ∧ m.nodes ≤ maxFieldNodes :=
  Keeps.ite (fun _ => Keeps.fail _) fun hn => Keeps.ite (fun _ => Keeps.fail _) fun hh =>
    Keeps.pure ⟨not_lt.1 hh, not_lt.1 hn⟩

lemma keeps_orFault {I : TypeCache → Prop} {α : Type} {Q : α → Prop} (e : DecodeError) {o}
    (h : ∀ a, o = some a → Q a) : Keeps I (orFault e o : Decoder TypeCache α) Q := by
  cases o with
  | none => exact Keeps.fail _
  | some a => exact Keeps.pure (h a rfl)

lemma TreeMetrics.addChild_eq {m : TreeMetrics} (hn : m.nodes ≤ maxFieldNodes) {dm}
    (h : Measured dm) :
    m.addChild dm.2 = ⟨max m.height (dm.1.height + 1), m.nodes + dm.1.nodes⟩ := by
  obtain ⟨hm, hh, hc⟩ := h
  rw [hm]
  simp only [addChild, of, saturatingAdd, mk.injEq]
  simp only [maxFieldDepth, maxFieldNodes] at hn hh hc
  omega

section

variable {type : Decoder TypeCache (FieldDesc × TreeMetrics)}

/-- The loop over the members, by induction on how many are left: the running metrics are those of
the members read so far, and within the limits. -/
lemma keeps_decodeMembers {field : Decoder TypeCache (Member × TreeMetrics)}
    (h : Keeps Bounded field fun f => Measured (f.1.2, f.2)) (n : ℕ) :
    ∀ m : TreeMetrics, m.height ≤ maxFieldDepth → m.nodes ≤ maxFieldNodes →
      Keeps Bounded (decodeMembers field n m) fun fs =>
        fs.2 = ⟨max m.height (heightMembers fs.1),
          m.nodes + nodesMembers fs.1⟩ ∧
        fs.2.height ≤ maxFieldDepth ∧ fs.2.nodes ≤ maxFieldNodes := by
  induction n with
  | zero =>
    intro m hh hn
    exact Keeps.pure ⟨by simp [heightMembers, nodesMembers], hh, hn⟩
  | succ n ih =>
    intro m hh hn
    refine h.bind fun f hf => ?_
    have hadd := addChild_eq hn hf
    refine (keeps_checkFieldMetrics _).bind fun _ hchk => ?_
    refine (ih _ hchk.1 hchk.2).bind fun fs hfs => Keeps.pure ⟨?_, hfs.2⟩
    rw [hfs.1, hadd]
    simp only [heightMembers, nodesMembers,
      max_assoc, Nat.add_assoc]

lemma keeps_decodeBodyWith (k : Compound) (what : String) (order : ByteOrder)
    (h : Keeps Bounded type Measured) :
    Keeps Bounded (decodeBodyWith k what order type) Measured := by
  refine (keeps_decodeLabel order).bind fun i _ => ?_
  refine (keeps_decodeSizeNonnull order what).bind fun n _ => ?_
  have hfield : Keeps Bounded (decodeFieldDescWith order type)
      fun f => Measured (f.1.2, f.2) :=
    (keeps_decodeLabel order).bind fun _ _ => h.bind fun _ hdm => Keeps.pure hdm
  refine (keeps_decodeMembers hfield n.toNat ⟨0, 1⟩ (Nat.zero_le _) (by decide)).bind
    fun ms hms => Keeps.pure ?_
  obtain ⟨heq, hh, hn⟩ := hms
  rw [heq] at hh hn
  refine ⟨?_, ?_, ?_⟩
  · rw [heq]
    simp [of, Nat.add_comm]
  · simpa using hh
  · simpa [Nat.add_comm] using hn

lemma keeps_decodeTag (order : ByteOrder) (policy : BoundedStringPolicy)
    (h : Keeps Bounded type Measured) (tag : UInt8) :
    Keeps Bounded (decodeTag order policy type tag) Measured := by
  unfold decodeTag
  cases TypeTag.ofByte tag with
  | define =>
    refine (keeps_getU16 order).bind fun key _ => h.bind fun dm hdm => ?_
    -- the slot is bound to what has just been measured
    have hmod : Keeps Bounded
        (modify fun cache => cache.orInsert key (CachedType.newWithMetrics dm.1 dm.2) :
          Decoder TypeCache Unit) fun _ => True :=
      fun i s hs => ⟨hs.orInsert key hdm.bounded, fun _ _ _ => trivial⟩
    exact hmod.bind fun _ _ => Keeps.pure hdm
  | reference =>
    refine (keeps_getU16 order).bind fun key _ => ?_
    -- a reference adds nothing to what the slot was measured as
    have hget : Keeps Bounded (get : Decoder TypeCache TypeCache)
        Bounded := by
      intro i s hs
      refine ⟨hs, fun c r hc => ?_⟩
      simp only [get_apply, Except.ok.injEq, Prod.mk.injEq] at hc
      exact hc.1 ▸ hs
    refine hget.bind fun cache hcache => ?_
    exact (keeps_orFault _ fun slot hslot => hcache key slot hslot).bind
      fun slot hslot => Keeps.pure hslot.measured
  | struct => exact keeps_decodeBodyWith _ _ order h
  | union => exact keeps_decodeBodyWith _ _ order h
  | structArray =>
    refine h.bind fun dm hdm => ?_
    obtain ⟨d, m⟩ := dm
    cases d with
    | struct i ms => exact Keeps.pure (Measured.lift .struct .structArray hdm)
    | _ => exact Keeps.fail _
  | unionArray =>
    refine h.bind fun dm hdm => ?_
    obtain ⟨d, m⟩ := dm
    cases d with
    | union i ms => exact Keeps.pure (Measured.lift .union .unionArray hdm)
    | _ => exact Keeps.fail _
  | variant => exact Keeps.pure (measured_leaf rfl)
  | variantArray => exact Keeps.pure (measured_leaf rfl)
  | boundedString =>
    cases policy with
    | interop =>
      exact (keeps_decodeSizeNonnull order _).bind fun _ _ => Keeps.pure (measured_leaf rfl)
    | strictPvxs => exact Keeps.fail _
  | scalarArray =>
    exact (keeps_orFault _ fun st _ => trivial).bind fun _ _ => Keeps.pure (measured_leaf rfl)
  | scalar =>
    exact (keeps_orFault _ fun st _ => trivial).bind fun _ _ => Keeps.pure (measured_leaf rfl)

end

/-! ### Whole runs -/

lemma keeps_decodeTypeDescCachedAtDepth (order : ByteOrder) (policy : BoundedStringPolicy)
    (room : ℕ) :
    Keeps Bounded (decodeTypeDescCachedAtDepth order policy room) Measured := by
  induction room with
  | zero => exact Keeps.fail _
  | succ room ih => exact keeps_getU8.bind fun tag _ => keeps_decodeTag order policy ih tag

lemma keeps_decodeTypeDescCached (order : ByteOrder) :
    Keeps Bounded (decodeTypeDescCached order)
      fun d => d.height ≤ maxFieldDepth ∧ d.nodes ≤ maxFieldNodes :=
  (keeps_decodeTypeDescCachedAtDepth order .interop _).bind
    fun _ hdm => Keeps.pure ⟨hdm.height_le, hdm.nodes_le⟩

/-- **Descriptor bombs are refused.**  Whatever messages a connection decodes, in whatever byte
orders and whether they succeed or not: every descriptor that was returned and every descriptor in
a slot is within `MAX_FIELD_DEPTH` and `MAX_FIELD_NODES`, and every slot states the true height and
node count of its descriptor. -/
theorem descriptor_bombs_refused (msgs : List (ByteOrder × List UInt8)) :
    (∀ d r, .ok (d, r) ∈ (calls decodeTypeDescCached msgs TypeCache.empty).1 →
      d.height ≤ maxFieldDepth ∧ d.nodes ≤ maxFieldNodes) ∧
    ∀ key slot, (calls decodeTypeDescCached msgs TypeCache.empty).2 key = some slot →
      slot.desc.height ≤ maxFieldDepth ∧ slot.desc.nodes ≤ maxFieldNodes ∧
        slot.height = slot.desc.height ∧ slot.nodes = slot.desc.nodes := by
  obtain ⟨hcache, hvalues⟩ :=
    Keeps.calls keeps_decodeTypeDescCached msgs empty bounded_empty
  refine ⟨hvalues, fun key slot hslot => ?_⟩
  have hs := hcache key slot hslot
  exact ⟨hs.height_le, hs.nodes_le, hs.height_eq, hs.nodes_eq⟩

end Pva
