/-
**The codec of type descriptors.**

A descriptor travels inline, or it is replaced by a reference to a slot of a table that both ends
of a connection keep: `0xFD` with a slot in front of an inline descriptor defines the slot, `0xFE`
with a slot stands for what the slot holds.  This module is the two encoders and the decoder of
`pvdata/encode.rs`; what they promise each other is in the modules that follow.

The decoder counts its recursion against `MAX_FIELD_DEPTH` and refuses to start at a depth beyond
it.  The model counts the other way, in the levels that are left: `room` is `MAX_FIELD_DEPTH + 1`
less the depth, so that the guard of the source is the case `room = 0`, and the recursion is
structural.  Because references splice a subtree in without any recursion, the decoder also adds up
the height and the nodes of what it assembles, and gives up at the first member that goes over.

Main results:

* `Pva.encodeTypeDesc_desc`, `Pva.encodeTypeDescInlineCached_desc` — the four compounds as one;
* `Pva.local_decodeTypeDescCachedAtDepth` — a descriptor is read off a prefix of the input.
-/

import EpicsRs.PvaProto
import EpicsRs.PvaFieldDesc

set_option autoImplicit false

namespace Pva

open ByteReader

/-! ### Inline encoding -/

def tagStructure : UInt8 := 0x80

def tagUnion : UInt8 := 0x81

def tagVariant : UInt8 := 0x82

def tagBoundedString : UInt8 := 0x83

def tagStructureArray : UInt8 := 0x88

def tagUnionArray : UInt8 := 0x89

def tagVariantArray : UInt8 := 0x8A

def tagNull : UInt8 := 0xFF

/-- The head of a body: the id and the number of members, cut to 32 bits. -/
def bodyHead (order : ByteOrder) (structId : String) (count : ℕ) : List UInt8 :=
  encodeString structId order ++ encodeSize (UInt32.ofNat count) order

mutual
def encodeTypeDesc (order : ByteOrder) : FieldDesc → List UInt8
  | .scalar st => [st.typeCode]
  | .scalarArray st => [st.arrayTypeCode]
  | .struct i ms => tagStructure :: (bodyHead order i ms.length ++ encodeFieldDescs order ms)
  | .structArray i ms =>
      tagStructureArray :: tagStructure ::
        (bodyHead order i ms.length ++ encodeFieldDescs order ms)
  | .union i ms => tagUnion :: (bodyHead order i ms.length ++ encodeFieldDescs order ms)
  | .unionArray i ms =>
      tagUnionArray :: tagUnion :: (bodyHead order i ms.length ++ encodeFieldDescs order ms)
  | .variant => [tagVariant]
  | .variantArray => [tagVariantArray]

/-- The loop of `encode_structure_body`: `encode_field_desc` for each member. -/
def encodeFieldDescs (order : ByteOrder) : List Member → List UInt8
  | [] => []
  | (name, d) :: ms => encodeString name order ++ encodeTypeDesc order d ++ encodeFieldDescs order ms
end

def encodeStructureBody (order : ByteOrder) (structId : String) (ms : List Member) : List UInt8 :=
  bodyHead order structId ms.length ++ encodeFieldDescs order ms

def Compound.tags : Compound → List UInt8
  | struct => [tagStructure]
  | structArray => [tagStructureArray, tagStructure]
  | union => [tagUnion]
  | unionArray => [tagUnionArray, tagUnion]

lemma encodeTypeDesc_desc (order : ByteOrder) (k : Compound) (i : String) (ms : List Member) :
    encodeTypeDesc order (k.desc i ms) = k.tags ++ encodeStructureBody order i ms := by
  cases k <;> simp [Compound.desc, encodeTypeDesc, Compound.tags, encodeStructureBody]

/-! ### Encoding with markers -/

/-- `EncodeTypeCache`, with the `HashMap` as a list of its entries. -/
structure EncodeTypeCache where
  next : UInt16
  map : List (FieldDesc × UInt16)
deriving DecidableEq, Repr

/-- `EncodeTypeCache::default`. -/
def EncodeTypeCache.empty : EncodeTypeCache := ⟨0, []⟩

/-- `u16::checked_add(1)`. -/
def checkedSucc (n : UInt16) : Option UInt16 := if n = 65535 then none else some (n + 1)

/-- The first half of `encode_type_desc_cached`, over the encoder `inline` of the second: a compound
that has a slot is a reference to it, and one that has none is given the next. -/
def withSlot (order : ByteOrder) (d : FieldDesc)
    (inline : EncodeTypeCache → Option (List UInt8 × EncodeTypeCache)) (cache : EncodeTypeCache) :
    Option (List UInt8 × EncodeTypeCache) :=
  if d.cacheable then
    match cache.map.lookup d with
    | some slot => some (0xFE :: putU16 slot order, cache)
    | none => do
        let next ← checkedSucc cache.next
        let out ← inline ⟨next, (d, cache.next) :: cache.map⟩
        pure (0xFD :: putU16 cache.next order ++ out.1, out.2)
  else inline cache

mutual
def encodeTypeDescInlineCached (order : ByteOrder) :
    FieldDesc → EncodeTypeCache → Option (List UInt8 × EncodeTypeCache)
  | .scalar st, cache => some ([st.typeCode], cache)
  | .scalarArray st, cache => some ([st.arrayTypeCode], cache)
  | .struct i ms, cache => do
      let out ← encodeFieldDescsCached order ms cache
      pure (tagStructure :: (bodyHead order i ms.length ++ out.1), out.2)
  | .structArray i ms, cache => do
      let out ← encodeFieldDescsCached order ms cache
      pure (tagStructureArray :: tagStructure :: (bodyHead order i ms.length ++ out.1), out.2)
  | .union i ms, cache => do
      let out ← encodeFieldDescsCached order ms cache
      pure (tagUnion :: (bodyHead order i ms.length ++ out.1), out.2)
  | .unionArray i ms, cache => do
      let out ← encodeFieldDescsCached order ms cache
      pure (tagUnionArray :: tagUnion :: (bodyHead order i ms.length ++ out.1), out.2)
  | .variant, cache => some ([tagVariant], cache)
  | .variantArray, cache => some ([tagVariantArray], cache)

/-- The loop of `encode_structure_body_cached`: `encode_field_desc_cached` for each member. -/
def encodeFieldDescsCached (order : ByteOrder) :
    List Member → EncodeTypeCache → Option (List UInt8 × EncodeTypeCache)
  | [], cache => some ([], cache)
  | (name, d) :: ms, cache => do
      let out ← withSlot order d (encodeTypeDescInlineCached order d) cache
      let outs ← encodeFieldDescsCached order ms out.2
      pure (encodeString name order ++ out.1 ++ outs.1, outs.2)
end

def encodeTypeDescCached (order : ByteOrder) (d : FieldDesc) (cache : EncodeTypeCache) :
    Option (List UInt8 × EncodeTypeCache) :=
  withSlot order d (encodeTypeDescInlineCached order d) cache

lemma encodeTypeDescInlineCached_desc (order : ByteOrder) (k : Compound) (i : String)
    (ms : List Member) (cache : EncodeTypeCache) :
    encodeTypeDescInlineCached order (k.desc i ms) cache =
      (encodeFieldDescsCached order ms cache).map fun out =>
        (k.tags ++ (bodyHead order i ms.length ++ out.1), out.2) := by
  cases k <;> simp only [Compound.desc, encodeTypeDescInlineCached] <;>
    cases encodeFieldDescsCached order ms cache <;> rfl

lemma encodeTypeDescInlineCached_leaf (order : ByteOrder) {d} (h : d.cacheable = false)
    (cache : EncodeTypeCache) :
    encodeTypeDescInlineCached order d cache = some (encodeTypeDesc order d, cache) := by
  cases d <;> first | rfl | simp [FieldDesc.cacheable] at h

/-! ### Decoding -/

/-- `MAX_FIELD_DEPTH`, on every target but RTEMS. -/
def maxFieldDepth : ℕ := 20

def maxFieldNodes : ℕ := 65535

structure CachedType where
  desc : FieldDesc
  height : ℕ
  nodes : ℕ
deriving DecidableEq, Repr

def CachedType.newWithMetrics (desc : FieldDesc) (m : TreeMetrics) : CachedType :=
  ⟨desc, m.height, m.nodes⟩

/-- `TypeCache`: the slots of a connection. -/
def TypeCache : Type := UInt16 → Option CachedType

/-- `TypeCache::new`. -/
def TypeCache.empty : TypeCache := fun _ => none

/-- `cache.entry(key).or_insert_with(..)`: a slot keeps its first definition. -/
def TypeCache.orInsert (cache : TypeCache) (key : UInt16) (slot : CachedType) : TypeCache :=
  fun k => if k = key then some ((cache key).getD slot) else cache k

def checkFieldMetrics {σ : Type} (m : TreeMetrics) : Decoder σ Unit :=
  if maxFieldNodes < m.nodes then fail .descNodes
  else if maxFieldDepth < m.height then fail .descExpansion
  else pure ()

inductive BoundedStringPolicy where
  | interop | strictPvxs
deriving DecidableEq, Repr

/-- The arms of the decoder's match on a tag, in its order. -/
inductive TypeTag where
  | define | reference | struct | union | structArray | unionArray
  | variant | variantArray | boundedString | scalarArray | scalar
deriving DecidableEq, Repr

def TypeTag.ofByte (tag : UInt8) : TypeTag :=
  if tag = 0xFD then define
  else if tag = 0xFE then reference
  else if tag = tagStructure then struct
  else if tag = tagUnion then union
  else if tag = tagStructureArray then structArray
  else if tag = tagUnionArray then unionArray
  else if tag = tagVariant then variant
  else if tag = tagVariantArray then variantArray
  else if tag = tagBoundedString then boundedString
  else if tag &&& 0x08 ≠ 0 then scalarArray
  else scalar

/-- `decode_field_desc_cached_at_depth`, over the decoder of the type. -/
def decodeFieldDescWith (order : ByteOrder) (type : Decoder TypeCache (FieldDesc × TreeMetrics)) :
    Decoder TypeCache (Member × TreeMetrics) := do
  let name ← decodeLabel order
  let dm ← type
  pure ((name, dm.1), dm.2)

/-- One more member: its nodes are added, and its height counts from one level up. -/
def TreeMetrics.addChild (m child : TreeMetrics) : TreeMetrics :=
  ⟨max m.height (saturatingAdd child.height 1), saturatingAdd m.nodes child.nodes⟩

/-- The loop of the two body decoders: the metrics are checked after every member. -/
def decodeMembers (field : Decoder TypeCache (Member × TreeMetrics)) :
    ℕ → TreeMetrics → Decoder TypeCache (List Member × TreeMetrics)
  | 0, m => pure ([], m)
  | n + 1, m => do
      let f ← field
      let m := m.addChild f.2
      checkFieldMetrics m
      let fs ← decodeMembers field n m
      pure (f.1 :: fs.1, fs.2)

/-- What the decoders of a structure body and of a union body share. -/
def decodeBodyWith (k : Compound) (what : String) (order : ByteOrder)
    (type : Decoder TypeCache (FieldDesc × TreeMetrics)) :
    Decoder TypeCache (FieldDesc × TreeMetrics) := do
  let structId ← decodeLabel order
  let n ← decodeSizeNonnull order what
  let ms ← decodeMembers (decodeFieldDescWith order type) n.toNat ⟨0, 1⟩
  pure (k.desc structId ms.1, ms.2)

/-- `decode_structure_body_cached_at_depth`. -/
def decodeStructureBody (order : ByteOrder)
    (type : Decoder TypeCache (FieldDesc × TreeMetrics)) :
    Decoder TypeCache (FieldDesc × TreeMetrics) :=
  decodeBodyWith .struct "structure field count" order type

/-- `decode_union_body_cached_at_depth`. -/
def decodeUnionBody (order : ByteOrder) (type : Decoder TypeCache (FieldDesc × TreeMetrics)) :
    Decoder TypeCache (FieldDesc × TreeMetrics) :=
  decodeBodyWith .union "union variant count" order type

/-- `Structure { .. } => StructureArray { .. }`: the element of an array is lifted. -/
def liftStructure (dm : FieldDesc × TreeMetrics) : Decoder TypeCache (FieldDesc × TreeMetrics) :=
  match dm.1 with
  | .struct i ms => pure (.structArray i ms, dm.2)
  | _ => fail (.arrayElement "structure")

/-- `Union { .. } => UnionArray { .. }`. -/
def liftUnion (dm : FieldDesc × TreeMetrics) : Decoder TypeCache (FieldDesc × TreeMetrics) :=
  match dm.1 with
  | .union i ms => pure (.unionArray i ms, dm.2)
  | _ => fail (.arrayElement "union")

/-- `.ok_or_else(..)`: an absent value is a fault. -/
def orFault {σ α : Type} (e : DecodeError) : Option α → Decoder σ α
  | some a => pure a
  | none => fail e

/-- One level of `decode_type_desc_cached_at_depth`: the arm of a tag, over the decoder `type` of
the next level. -/
def decodeTag (order : ByteOrder) (policy : BoundedStringPolicy)
    (type : Decoder TypeCache (FieldDesc × TreeMetrics)) (tag : UInt8) :
    Decoder TypeCache (FieldDesc × TreeMetrics) :=
  match TypeTag.ofByte tag with
  | .define => do
      let key ← getU16 order
      let dm ← type
      modify fun cache => cache.orInsert key (CachedType.newWithMetrics dm.1 dm.2)
      pure dm
  | .reference => do
      let key ← getU16 order
      let cache ← get
      let slot ← orFault (.cacheMiss key) (cache key)
      pure (slot.desc, ⟨slot.height, slot.nodes⟩)
  | .struct => decodeStructureBody order type
  | .union => decodeUnionBody order type
  | .structArray => do
      let elem ← type
      liftStructure elem
  | .unionArray => do
      let elem ← type
      liftUnion elem
  | .variant => pure (.variant, TreeMetrics.leaf)
  | .variantArray => pure (.variantArray, TreeMetrics.leaf)
  | .boundedString =>
      match policy with
      | .interop => do
          let _ ← decodeSizeNonnull order "bounded string size"
          pure (.scalar .string, TreeMetrics.leaf)
      | .strictPvxs => fail .boundedString
  | .scalarArray => do
      let st ← orFault (.unknownArrayTag tag) (ScalarType.fromArrayTypeCode tag)
      pure (.scalarArray st, TreeMetrics.leaf)
  | .scalar => do
      let st ← orFault (.unknownTag tag) (ScalarType.fromTypeCode tag)
      pure (.scalar st, TreeMetrics.leaf)

/-- `decode_type_desc_cached_at_depth`, with `room` levels left. -/
def decodeTypeDescCachedAtDepth (order : ByteOrder) (policy : BoundedStringPolicy) :
    ℕ → Decoder TypeCache (FieldDesc × TreeMetrics)
  | 0 => fail .descNesting
  | room + 1 => do
      let tag ← getU8
      decodeTag order policy (decodeTypeDescCachedAtDepth order policy room) tag

def decodeTypeDescCachedWithPolicy (order : ByteOrder) (policy : BoundedStringPolicy) :
    Decoder TypeCache FieldDesc := do
  let dm ← decodeTypeDescCachedAtDepth order policy (maxFieldDepth + 1)
  pure dm.1

def decodeTypeDescCached (order : ByteOrder) : Decoder TypeCache FieldDesc :=
  decodeTypeDescCachedWithPolicy order .interop

/-- `decode_type_desc`: a cache of its own, thrown away afterwards. -/
def decodeTypeDesc {σ : Type} (order : ByteOrder) : Decoder σ FieldDesc :=
  zoom (fun _ => TypeCache.empty) (fun _ s => s) (decodeTypeDescCached order)

/-- `decode_type_desc_cached_opt`: `none` is the null type code. -/
def decodeTypeDescCachedOpt (order : ByteOrder) : Decoder TypeCache (Option FieldDesc) := do
  let pos ← rest
  let tag ← getU8
  if tag = tagNull then pure none
  else do
    seek pos
    let d ← decodeTypeDescCached order
    pure (some d)

@[simp] lemma TypeCache.empty_apply (key : UInt16) : TypeCache.empty key = none := rfl

@[simp] lemma TypeCache.orInsert_self (cache : TypeCache) (key : UInt16) (slot : CachedType) :
    cache.orInsert key slot key = some ((cache key).getD slot) := by
  simp [TypeCache.orInsert]

variable {cache : TypeCache}

lemma TypeCache.orInsert_of_ne {key k} {slot : CachedType} (h : k ≠ key) :
    cache.orInsert key slot k = cache k := by
  simp [TypeCache.orInsert, h]

lemma TypeCache.orInsert_cases {key k} {slot c : CachedType}
    (h : cache.orInsert key slot k = some c) : cache k = some c ∨ (k = key ∧ c = slot) := by
  by_cases hk : k = key
  · subst hk
    cases hc : cache k with
    | none => simp [hc] at h; exact .inr ⟨rfl, h.symm⟩
    | some c' => simp [hc] at h; exact .inl (by rw [h])
  · rw [TypeCache.orInsert_of_ne hk] at h
    exact .inl h

/-! ### Locality -/

lemma stateless_checkFieldMetrics {σ : Type} (m : TreeMetrics) :
    Stateless (checkFieldMetrics m : Decoder σ Unit) :=
  (Stateless.fail _).ite ((Stateless.fail _).ite (Stateless.pure _))

lemma stateless_orFault {σ α : Type} (e : DecodeError) (o : Option α) :
    Stateless (orFault e o : Decoder σ α) := by
  cases o with
  | none => exact Stateless.fail _
  | some a => exact Stateless.pure a

section

variable {type : Decoder TypeCache (FieldDesc × TreeMetrics)}

lemma local_decodeFieldDescWith (order : ByteOrder) (h : Local type) :
    Local (decodeFieldDescWith order type) :=
  (stateless_decodeLabel order).toLocal.bind fun _ => h.bind fun _ => Local.pure _

lemma local_decodeMembers {field : Decoder TypeCache (Member × TreeMetrics)} (h : Local field) :
    ∀ n m, Local (decodeMembers field n m)
  | 0, _ => Local.pure _
  | n + 1, _ => h.bind fun _ => (stateless_checkFieldMetrics _).toLocal.bind fun _ =>
      (local_decodeMembers h n _).bind fun _ => Local.pure _

lemma local_decodeBodyWith (k : Compound) (what : String) (order : ByteOrder) (h : Local type) :
    Local (decodeBodyWith k what order type) :=
  (stateless_decodeLabel order).toLocal.bind fun _ =>
  (stateless_decodeSizeNonnull order what).toLocal.bind fun _ =>
    (local_decodeMembers (local_decodeFieldDescWith order h) _ _).bind fun _ => Local.pure _

lemma local_decodeTag (order : ByteOrder) (policy : BoundedStringPolicy) (h : Local type)
    (tag : UInt8) : Local (decodeTag order policy type tag) := by
  unfold decodeTag
  cases TypeTag.ofByte tag with
  | define =>
    exact (stateless_getU16 order).toLocal.bind fun _ => h.bind fun _ =>
      (Local.modify _).bind fun _ => Local.pure _
  | reference =>
    exact (stateless_getU16 order).toLocal.bind fun _ => Local.get.bind fun _ =>
      (stateless_orFault _ _).toLocal.bind fun _ => Local.pure _
  | struct => exact local_decodeBodyWith _ _ order h
  | union => exact local_decodeBodyWith _ _ order h
  | structArray =>
    refine h.bind fun dm => ?_
    unfold liftStructure
    split
    · exact Local.pure _
    · exact Local.fail _
  | unionArray =>
    refine h.bind fun dm => ?_
    unfold liftUnion
    split
    · exact Local.pure _
    · exact Local.fail _
  | variant => exact Local.pure _
  | variantArray => exact Local.pure _
  | boundedString =>
    cases policy with
    | interop => exact (stateless_decodeSizeNonnull order _).toLocal.bind fun _ => Local.pure _
    | strictPvxs => exact Local.fail _
  | scalarArray => exact (stateless_orFault _ _).toLocal.bind fun _ => Local.pure _
  | scalar => exact (stateless_orFault _ _).toLocal.bind fun _ => Local.pure _

end

lemma local_decodeTypeDescCachedAtDepth (order : ByteOrder) (policy : BoundedStringPolicy) :
    ∀ room, Local (decodeTypeDescCachedAtDepth order policy room)
  | 0 => Local.fail _
  | room + 1 => stateless_getU8.toLocal.bind fun tag =>
      local_decodeTag order policy (local_decodeTypeDescCachedAtDepth order policy room) tag

lemma local_decodeTypeDescCached (order : ByteOrder) : Local (decodeTypeDescCached order) :=
  (local_decodeTypeDescCachedAtDepth order .interop _).bind fun _ => Local.pure _

/-! ### The null type code -/

lemma decodeTypeDescCachedOpt_null (order : ByteOrder) (r : List UInt8) (cache : TypeCache) :
    decodeTypeDescCachedOpt order (tagNull :: r) cache = (.ok (none, r), cache) := rfl

lemma decodeTypeDescCachedOpt_cons {order b} (h : b ≠ tagNull) (r : List UInt8)
    (cache : TypeCache) :
    decodeTypeDescCachedOpt order (b :: r) cache =
      (decodeTypeDescCached order >>= fun d => pure (some d)) (b :: r) cache := by
  have hpeek : decodeTypeDescCachedOpt order (b :: r) cache =
      (if b = tagNull then pure none else do
        seek (b :: r)
        let d ← decodeTypeDescCached order
        pure (some d) : Decoder TypeCache (Option FieldDesc)) r cache := rfl
  rw [hpeek, if_neg h]
  rfl

lemma decodeTypeDescCachedOpt_eq_ok {order i r} {cache' : TypeCache} {o}
    (h : decodeTypeDescCachedOpt order i cache = (.ok (o, r), cache')) :
    (i = tagNull :: r ∧ o = none ∧ cache' = cache) ∨
    ∃ b t d, i = b :: t ∧ b ≠ tagNull ∧ o = some d ∧
      decodeTypeDescCached order i cache = (.ok (d, r), cache') := by
  match i with
  | [] => cases h
  | b :: t =>
    by_cases hb : b = tagNull
    · subst hb
      obtain ⟨⟨rfl, rfl⟩, rfl⟩ := h
      exact Or.inl ⟨rfl, rfl, rfl⟩
    · rw [decodeTypeDescCachedOpt_cons hb] at h
      obtain ⟨d, i₁, s₁, h₁, h₂⟩ := bind_eq_ok.1 h
      obtain ⟨rfl, rfl, rfl⟩ := pure_eq_ok.1 h₂
      exact Or.inr ⟨b, t, d, rfl, hb, rfl, h₁⟩

end Pva
