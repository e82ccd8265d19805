/-
**Partial values.**

The bits of an update number the fields of the descriptor depth first, the root first; the bit of a
structure marks everything in it.  `pvdata/encode.rs` has one encoder and three decoders: one fills
what is not marked with defaults, with a cache for each field or that of the connection, and one
overwrites the marked fields of a value.  `fill_unmarked_from_prior` completes a value from the one
before; `leaf_bits` spells bits out over the fields that are not structures.

Main results: `Pva.FieldDesc.members_induction`, `Pva.get_leafBits`.
-/

import EpicsRs.PvaBitSet
import EpicsRs.PvaValue

set_option autoImplicit false

namespace Pva

open ByteReader FieldDesc

/-! ### The codec -/

/-- The child that a descriptor names `name` at index `i`. -/
def childAt (value : PvField) (i : ℕ) (name : String) : Option PvField :=
  match value with
  | .struct s => memberAt s.fields i name
  | _ => none

section

variable (conv : ScalarConv) (order : ByteOrder) (bs : BitSet)

mutual
def encodeMarked : FieldDesc → PvField → ℕ → List UInt8
  | .struct i ms, value, bit =>
      if bs.get bit then encodePvField conv order value (.struct i ms)
      else encodeMarkedMembers ms value 0 (bit + 1)
  | d, value, _ => encodePvField conv order value d

/-- The loop of `encode_marked` over the members, from the one at index `i` on. -/
def encodeMarkedMembers : List Member → PvField → ℕ → ℕ → List UInt8
  | [], _, _, _ => []
  | (name, d) :: ms, value, i, bit =>
      (if bs.anyIn bit (bit + d.totalBits) then
        encodeMarked d ((childAt value i name).getD (defaultValueFor d)) bit
      else []) ++ encodeMarkedMembers ms value (i + 1) (bit + d.totalBits)
end

def encodePvFieldWithBitset (value : PvField) (d : FieldDesc) (bit : ℕ) : List UInt8 :=
  if bs.anyIn bit (bit + d.totalBits) then encodeMarked conv order bs d value bit else []

end

section

variable {σ : Type} (field : FieldDesc → Decoder σ PvField) (bs : BitSet)

mutual
/-- What the two decoders that fill with defaults share; `field` decodes a field that is marked. -/
def decodeWith : FieldDesc → ℕ → Decoder σ PvField
  | .struct i ms, bit =>
      if bs.get bit then field (.struct i ms)
      else if bs.anyIn bit (bit + (FieldDesc.struct i ms).totalBits) then do
        let fs ← decodeMembersWith ms (bit + 1)
        pure (.struct ⟨i, fs⟩)
      else pure (defaultValueFor (.struct i ms))
  | d, bit => if bs.get bit then field d else pure (defaultValueFor d)

def decodeMembersWith : List Member → ℕ → Decoder σ (List (String × PvField))
  | [], _ => pure []
  | (name, d) :: ms, bit => do
      let v ← decodeWith d bit
      let fs ← decodeMembersWith ms (bit + d.totalBits)
      pure ((name, v) :: fs)
end

end

/-- `decode_pv_field_with_bitset`: every marked field has a cache of its own. -/
def decodePvFieldWithBitset {σ : Type} (order : ByteOrder) (bs : BitSet) (d : FieldDesc)
    (bit : ℕ) : Decoder σ PvField :=
  decodeWith (decodePvField order) bs d bit

def decodePvFieldWithBitsetCached (order : ByteOrder) (bs : BitSet) (d : FieldDesc) (bit : ℕ) :
    Decoder TypeCache PvField :=
  decodeWith (decodePvFieldCached order) bs d bit

section

variable (order : ByteOrder) (bs : BitSet)

mutual
/-- `decode_pv_field_with_bitset_into`; what it leaves in `dst` is returned. -/
def decodePvFieldWithBitsetInto : FieldDesc → PvField → ℕ → Decoder TypeCache PvField
  | .struct i ms, dst, bit =>
      if bs.get bit then decodePvFieldCached order (.struct i ms)
      else if bs.anyIn bit (bit + (FieldDesc.struct i ms).totalBits) then
        match dst with
        | .struct s =>
            if s.fields.length = ms.length then do
              let fs ← decodeMembersInto ms s.fields (bit + 1)
              pure (.struct ⟨s.structId, fs⟩)
            else decodePvFieldWithBitsetCached order bs (.struct i ms) bit
        | _ => decodePvFieldWithBitsetCached order bs (.struct i ms) bit
      else pure dst
  | d, dst, bit => if bs.get bit then decodePvFieldCached order d else pure dst

def decodeMembersInto : List Member → List (String × PvField) → ℕ →
    Decoder TypeCache (List (String × PvField))
  | (_, d) :: ms, (name, slot) :: fs, bit => do
      let v ← decodePvFieldWithBitsetInto d slot bit
      let fs ← decodeMembersInto ms fs (bit + d.totalBits)
      pure ((name, v) :: fs)
  | _, fs, _ => pure fs
end

end

/-! ### Complete values -/

/-- `Vec::swap_remove`: the last item takes the place of the one that is removed. -/
def swapRemove {α : Type} (xs : List α) (i : ℕ) : List α :=
  match xs.getLast? with
  | none => xs
  | some last => (xs.set i last).dropLast

/-- The first child of that name, taken out of the list. -/
def takeChild (children : List (String × PvField)) (name : String) :
    Option PvField × List (String × PvField) :=
  match children.findIdx? fun f => f.1 = name with
  | some i => (children[i]?.map Prod.snd, swapRemove children i)
  | none => (none, children)

def fieldsOf : PvField → List (String × PvField)
  | .struct s => s.fields
  | _ => []

mutual
def fillUnmarkedFromPrior (bs : BitSet) : FieldDesc → ℕ → PvField → PvField → PvField
  | .struct i ms, bit, decoded, prior =>
      if bs.get bit then decoded
      else .struct ⟨i, fillMembers bs ms (bit + 1) (fieldsOf decoded) prior⟩
  | _, bit, decoded, prior => if bs.get bit then decoded else prior

/-- The loop of `fill_unmarked_from_prior`, with the decoded children that are left. -/
def fillMembers (bs : BitSet) : List Member → ℕ → List (String × PvField) → PvField →
    List (String × PvField)
  | [], _, _, _ => []
  | (name, d) :: ms, bit, children, prior =>
      (name, fillUnmarkedFromPrior bs d bit
        ((takeChild children name).1.getD (defaultValueFor d))
        ((getField (fieldsOf prior) name).getD (defaultValueFor d))) ::
      fillMembers bs ms (bit + d.totalBits) (takeChild children name).2 prior
end

mutual
/-- `leaf_bits`; what it leaves in `out` is returned. -/
def leafBits (src : BitSet) : FieldDesc → ℕ → Bool → BitSet → BitSet
  | .struct _ ms, bit, whole, out => leafBitsMembers src ms (bit + 1) (whole || src.get bit) out
  | _, bit, whole, out => if whole || src.get bit then out.set bit else out

/-- The loop of `leaf_bits` over the members. -/
def leafBitsMembers (src : BitSet) : List Member → ℕ → Bool → BitSet → BitSet
  | [], _, _, out => out
  | (_, d) :: ms, bit, whole, out =>
      leafBitsMembers src ms (bit + d.totalBits) whole (leafBits src d bit whole out)
end

/-! ### Structures and leaves -/

namespace FieldDesc

/-- The descriptors whose members have bits of their own. -/
def isStruct : FieldDesc → Bool
  | struct .. => true
  | _ => false

/-- **Induction over the structures of a descriptor and their members**, with everything else as a
leaf. -/
theorem members_induction {P : FieldDesc → Prop} {Q : List Member → Prop}
    (leaf : ∀ d, d.isStruct = false → P d) (nil : Q [])
    (cons : ∀ name d ms, P d → Q ms → Q ((name, d) :: ms))
    (struct : ∀ (i : String) (ms : List Member), Q ms → P (.struct i ms)) (d : FieldDesc) :
    P d := by
  induction d using compound_members_induction (Q := Q) with
  | leaf d hd => exact leaf d (by cases d <;> first | rfl | simp [cacheable] at hd)
  | nil => exact nil
  | cons name d ms hd hms => exact cons name d ms hd hms
  | compound k i ms ih =>
    cases k with
    | struct => exact struct i ms ih
    | structArray => exact leaf _ rfl
    | union => exact leaf _ rfl
    | unionArray => exact leaf _ rfl

lemma struct_induction {P : FieldDesc → Prop} (leaf : ∀ d, d.isStruct = false → P d)
    (struct : ∀ (i : String) (ms : List Member), (∀ m ∈ ms, P m.2) → P (.struct i ms))
    (d : FieldDesc) : P d :=
  members_induction (Q := fun ms => ∀ m ∈ ms, P m.2) leaf (by simp)
    (fun _ _ _ hd hms => List.forall_mem_cons.2 ⟨hd, hms⟩) struct d

lemma totalBits_of_leaf {d : FieldDesc} (h : d.isStruct = false) : d.totalBits = 1 := by
  cases d <;> first | rfl | simp [isStruct] at h

end FieldDesc

section

variable {d : FieldDesc} (hd : d.isStruct = false) (bs : BitSet) (bit : ℕ)

include hd

lemma encodePvFieldWithBitset_leaf (conv : ScalarConv) (order : ByteOrder) (v : PvField) :
    encodePvFieldWithBitset conv order bs v d bit =
      if bs.get bit then encodePvField conv order v d else [] := by
  have hany : bs.anyIn bit (bit + d.totalBits) = bs.get bit := by
    rw [totalBits_of_leaf hd, Bool.eq_iff_iff, BitSet.anyIn_iff]
    constructor
    · rintro ⟨i, h₁, h₂, hget⟩
      obtain rfl : i = bit := by omega
      exact hget
    · exact fun hget => ⟨bit, le_rfl, Nat.lt_succ_self bit, hget⟩
  have hmarked : encodeMarked conv order bs d v bit = encodePvField conv order v d := by
    cases d <;> first | rfl | simp [isStruct] at hd
  rw [encodePvFieldWithBitset, hany, hmarked]

lemma decodeWith_leaf {σ : Type} (field : FieldDesc → Decoder σ PvField) :
    decodeWith field bs d bit = if bs.get bit then field d else pure (defaultValueFor d) := by
  cases d <;> first | rfl | simp [isStruct] at hd

lemma decodePvFieldWithBitsetInto_leaf (order : ByteOrder) (dst : PvField) :
    decodePvFieldWithBitsetInto order bs d dst bit =
      if bs.get bit then decodePvFieldCached order d else pure dst := by
  cases d <;> first | rfl | simp [isStruct] at hd

lemma fillUnmarkedFromPrior_leaf (decoded prior : PvField) :
    fillUnmarkedFromPrior bs d bit decoded prior = if bs.get bit then decoded else prior := by
  cases d <;> first | rfl | simp [isStruct] at hd

lemma leafBits_leaf (whole : Bool) (out : BitSet) :
    leafBits bs d bit whole out = if whole || bs.get bit then out.set bit else out := by
  cases d <;> first | rfl | simp [isStruct] at hd

end

/-! ### The bits that are spelled out -/

mutual
/-- Bit `j` is that of a field that is marked, by itself or with a structure around it, and is not
a structure. -/
def leafMark (p : ℕ → Bool) : FieldDesc → ℕ → Bool → ℕ → Bool
  | .struct _ ms, bit, whole, j => leafMarkMembers p ms (bit + 1) (whole || p bit) j
  | _, bit, whole, j => decide (j = bit) && (whole || p bit)

def leafMarkMembers (p : ℕ → Bool) : List Member → ℕ → Bool → ℕ → Bool
  | [], _, _, _ => false
  | (_, d) :: ms, bit, whole, j =>
      leafMark p d bit whole j || leafMarkMembers p ms (bit + d.totalBits) whole j
end

lemma leafMark_leaf {d} (hd : d.isStruct = false) (p : ℕ → Bool) (bit : ℕ) (whole : Bool) (j : ℕ)
    : leafMark p d bit whole j = (decide (j = bit) && (whole || p bit)) := by
  cases d <;> first | rfl | simp [isStruct] at hd

/-- **The bits that are spelled out**, one by one. -/
theorem get_leafBits (src : BitSet) (d : FieldDesc) :
    ∀ bit whole out j, (leafBits src d bit whole out).get j =
      (out.get j || leafMark src.get d bit whole j) := by
  induction d using members_induction
    (Q := fun ms => ∀ bit whole out j, (leafBitsMembers src ms bit whole out).get j =
      (out.get j || leafMarkMembers src.get ms bit whole j)) with
  | leaf d hd =>
    intro bit whole out j
    rw [leafBits_leaf hd, leafMark_leaf hd]
    cases whole || src.get bit with
    | false => simp
    | true => simp [BitSet.get_set, Bool.or_comm]
  | nil => simp [leafBitsMembers, leafMarkMembers]
  | cons name d ms hm hms bit whole out j =>
    rw [leafBitsMembers, leafMarkMembers, hms, hm, Bool.or_assoc]
  | struct i ms ih =>
    intro bit whole out j
    rw [leafBits, leafMark, ih]

lemma leafMarkMembers_span {p ms}
    (hms : ∀ m ∈ ms, ∀ bit whole j, leafMark p m.2 bit whole j = true →
      bit ≤ j ∧ j < bit + m.2.totalBits) :
    ∀ {bit whole j}, leafMarkMembers p ms bit whole j = true →
      bit ≤ j ∧ j < bit + totalBitsMembers ms := by
  induction ms with
  | nil =>
    intro bit whole j h
    cases h
  | cons m ms ih =>
    obtain ⟨hm, hms⟩ := List.forall_mem_cons.1 hms
    intro bit whole j h
    rw [leafMarkMembers, Bool.or_eq_true] at h
    rw [totalBitsMembers]
    rcases h with h | h
    · have := hm bit whole j h
      omega
    · have := ih hms h
      omega

lemma leafMark_span (p : ℕ → Bool) (d : FieldDesc) :
    ∀ bit whole j, leafMark p d bit whole j = true → bit ≤ j ∧ j < bit + d.totalBits := by
  induction d using struct_induction with
  | leaf d hd =>
    intro bit whole j h
    rw [leafMark_leaf hd, Bool.and_eq_true, decide_eq_true_iff] at h
    rw [totalBits_of_leaf hd]
    omega
  | struct i ms ih =>
    intro bit whole j h
    have hspan := leafMarkMembers_span ih h
    rw [totalBits]
    omega

lemma leafMark_behind {p d bit j whole} (h : bit + d.totalBits ≤ j)
    : leafMark p d bit whole j = false := by
  rw [Bool.eq_false_iff]
  intro hmark
  have := leafMark_span p d bit whole j hmark
  omega

lemma leafMarkMembers_before {p ms bit j whole} (h : j < bit)
    : leafMarkMembers p ms bit whole j = false := by
  rw [Bool.eq_false_iff]
  intro hmark
  have := leafMarkMembers_span (fun m _ => leafMark_span p m.2) hmark
  omega

end Pva
