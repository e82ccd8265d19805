/-
**Values and their codec.**

`PvField` (`pvdata/structure.rs`) is the value space of pvData.  A value is encoded under a
descriptor, which alone decides the shape of the bytes: a value of another kind is converted,
selected for, or replaced by the default.

The encoder calls itself with a part of the value, with the default of a missing member, and with
the same value under another descriptor, when a bare value stands where a union or a self-describing
value should.  The last call never leads to another of its kind, so the model recurses over the
value alone: each kind of value has its typed arms, and the generic arms are entered with those at
hand.  Depth is counted in the levels that are left.

Main result: `Pva.encodePvField_eq`.
-/

import EpicsRs.PvaScalar
import EpicsRs.PvaTypeDesc

set_option autoImplicit false

namespace Pva

open ByteReader List

/-! ### Values -/

/-- `PvStructure`, over the values `F` of its fields. -/
structure PvStructureOf (F : Type) where
  structId : String
  fields : List (String × F)

/-- `UnionItem`, and the fields of `PvField::Union`. -/
structure UnionItemOf (F : Type) where
  selector : Int32
  variantName : String
  value : F

/-- `VariantValue`. -/
structure VariantValueOf (F : Type) where
  desc : Option FieldDesc
  value : F

inductive PvField where
  | scalar (v : ScalarValue)
  | scalarArray (items : List ScalarValue)
  | scalarArrayTyped (arr : TypedScalarArray)
  | struct (s : PvStructureOf PvField)
  | structArray (items : List (Option (PvStructureOf PvField)))
  | union (u : UnionItemOf PvField)
  | unionArray (items : List (Option (UnionItemOf PvField)))
  | variant (v : VariantValueOf PvField)
  | variantArray (items : List (Option (VariantValueOf PvField)))
  | null

abbrev PvStructure : Type := PvStructureOf PvField

abbrev UnionItem : Type := UnionItemOf PvField

abbrev VariantValue : Type := VariantValueOf PvField

/-- **Induction over a value**, with the values inside lists at hand. -/
theorem PvField.induction {P : PvField → Prop} (scalar : ∀ v, P (.scalar v))
    (scalarArray : ∀ items, P (.scalarArray items))
    (scalarArrayTyped : ∀ arr, P (.scalarArrayTyped arr))
    (struct : ∀ s : PvStructure, (∀ f ∈ s.fields, P f.2) → P (.struct s))
    (structArray : ∀ items : List (Option PvStructure),
      (∀ s, some s ∈ items → ∀ f ∈ s.fields, P f.2) → P (.structArray items))
    (union : ∀ u : UnionItem, P u.value → P (.union u))
    (unionArray : ∀ items : List (Option UnionItem),
      (∀ u, some u ∈ items → P u.value) → P (.unionArray items))
    (variant : ∀ v : VariantValue, P v.value → P (.variant v))
    (variantArray : ∀ items : List (Option VariantValue),
      (∀ v, some v ∈ items → P v.value) → P (.variantArray items))
    (null : P .null) (v : PvField) : P v := by
  have hcons : ∀ {α : Type} {Q : α → Prop} (x : Option α) (xs : List (Option α)),
      (∀ a, x = some a → Q a) → (∀ a, some a ∈ xs → Q a) → ∀ a, some a ∈ x :: xs → Q a := by
    intro α Q x xs hx hxs a ha
    rcases mem_cons.1 ha with ha | ha
    · exact hx a ha.symm
    · exact hxs a ha
  refine @PvField.rec P (fun s => ∀ f ∈ s.fields, P f.2)
    (fun items => ∀ s, some s ∈ items → ∀ f ∈ s.fields, P f.2) (fun u => P u.value)
    (fun items => ∀ u, some u ∈ items → P u.value) (fun v => P v.value)
    (fun items => ∀ v, some v ∈ items → P v.value) (fun fs => ∀ f ∈ fs, P f.2)
    (fun s => ∀ s', s = some s' → ∀ f ∈ s'.fields, P f.2) (fun u => ∀ u', u = some u' → P u'.value)
    (fun v => ∀ v', v = some v' → P v'.value) (fun f => P f.2)
    scalar scalarArray scalarArrayTyped struct structArray union unionArray variant variantArray
    null (fun _ _ h => h) (by simp) hcons (fun _ _ _ h => h) (by simp) hcons (fun _ _ h => h)
    (by simp) hcons (by simp) ?_ (by simp) ?_ (by simp) ?_ (by simp) ?_ (fun _ _ h => h) v
  · intro f fs hf hfs f' hf'
    rcases mem_cons.1 hf' with rfl | hf'
    · exact hf
    · exact hfs f' hf'
  · rintro s hs _ ⟨⟩
    exact hs
  · rintro u hu _ ⟨⟩
    exact hu
  · rintro v hv _ ⟨⟩
    exact hv

/-! ### Structures -/

section

variable {α β : Type}

def getField (fields : List (String × α)) (name : String) : Option α :=
  (fields.find? fun f => f.1 = name).map Prod.snd

/-- `member_at`: by position when the name is there, by name otherwise. -/
def memberAt (fields : List (String × α)) (i : ℕ) (name : String) : Option α :=
  match fields[i]? with
  | some (n, v) => if n = name then some v else getField fields name
  | none => getField fields name

lemma getField_map (g : α → β) (fields : List (String × α)) (name : String) :
    getField (fields.map fun f => (f.1, g f.2)) name = (getField fields name).map g := by
  simp only [getField, find?_map, Function.comp_def, Option.map_map]

lemma memberAt_map (g : α → β) (fields : List (String × α)) (i : ℕ) (name : String) :
    memberAt (fields.map fun f => (f.1, g f.2)) i name = (memberAt fields i name).map g := by
  unfold memberAt
  rw [getElem?_map, getField_map]
  cases fields[i]? with
  | none => rfl
  | some f =>
    by_cases h : f.1 = name
    · simp [h]
    · simp [h]

lemma mem_of_getField {fields name} {v : α} (h : getField fields name = some v)
    : (name, v) ∈ fields := by
  obtain ⟨f, hf, rfl⟩ := Option.map_eq_some_iff.1 h
  have hname : f.1 = name := by simpa using find?_some hf
  rw [← hname]
  exact mem_of_find?_eq_some hf

lemma mem_of_memberAt {fields i name} {v : α} (h : memberAt fields i name = some v)
    : (name, v) ∈ fields := by
  unfold memberAt at h
  cases hi : fields[i]? with
  | none =>
    rw [hi] at h
    exact mem_of_getField h
  | some f =>
    rw [hi] at h
    by_cases hn : f.1 = name
    · simp only [hn, if_true, Option.some.injEq] at h
      rw [← hn, ← h]
      exact mem_of_getElem? hi
    · simp only [hn, if_false] at h
      exact mem_of_getField h

end

/-! ### Defaults -/

mutual
def defaultValueFor : FieldDesc → PvField
  | .scalar st => .scalar (zeroScalar st)
  | .scalarArray _ => .scalarArray []
  | .struct i ms => .struct ⟨i, defaultMembers ms⟩
  | .structArray .. => .structArray []
  | .union .. => .union ⟨-1, "", .null⟩
  | .unionArray .. => .unionArray []
  | .variant => .variant ⟨none, .null⟩
  | .variantArray => .variantArray []

def defaultMembers : List Member → List (String × PvField)
  | [] => []
  | (name, d) :: ms => (name, defaultValueFor d) :: defaultMembers ms
end

lemma defaultMembers_eq (ms : List Member) :
    defaultMembers ms = ms.map fun m => (m.1, defaultValueFor m.2) := by
  induction ms with
  | nil => rfl
  | cons m ms ih => rw [defaultMembers, ih]; rfl

mutual
/-- The bytes of the default of a descriptor; `encodePvField_default` is the equation. -/
def encodeDefault (order : ByteOrder) : FieldDesc → List UInt8
  | .scalar st => encodeScalarValue (zeroScalar st) order
  | .scalarArray _ | .structArray .. | .unionArray .. | .variantArray => encodeSize 0 order
  | .struct _ ms => encodeDefaults order ms
  | .union .. | .variant => [0xFF]

def encodeDefaults (order : ByteOrder) : List Member → List UInt8
  | [] => []
  | (_, d) :: ms => encodeDefault order d ++ encodeDefaults order ms
end

/-! ### Bare values -/

/-- `usize::try_from(selector).ok().and_then(|idx| variants.get(idx))`: the variant that a selector
selects, with its index. -/
def selectVariant (variants : List Member) (selector : Int32) : Option (ℕ × Member) :=
  if 0 ≤ selector then
    variants[selector.toInt.toNat]?.map fun m => (selector.toInt.toNat, m)
  else none

def valueFitsDesc : PvField → FieldDesc → Bool
  | .scalar v, .scalar st => decide (v.st = st)
  | .scalarArray items, .scalarArray st => items.all fun v => decide (v.st = st)
  | .scalarArrayTyped arr, .scalarArray st => decide (arr.st = st)
  | .struct _, .struct .. => true
  | .structArray _, .structArray .. => true
  | .union _, .union .. => true
  | .unionArray _, .unionArray .. => true
  | .variant _, .variant => true
  | .variantArray _, .variantArray => true
  | _, _ => false

mutual
def wireDescriptor : PvField → Option FieldDesc
  | .scalar v => some (.scalar v.st)
  | .scalarArray items => items.head?.map fun v => .scalarArray v.st
  | .scalarArrayTyped arr => some (.scalarArray arr.st)
  | .struct ⟨i, fs⟩ => (wireFields fs).map (.struct i)
  | .structArray items => (wireElement items).map fun e => .structArray e.1 e.2
  | .union _ | .unionArray _ => none
  | .variant ⟨some _, _⟩ => some .variant
  | .variant ⟨none, _⟩ => none
  | .variantArray _ => some .variantArray
  | .null => none

/-- The descriptors of the fields of a structure, if all can be recovered. -/
def wireFields : List (String × PvField) → Option (List Member)
  | [] => some []
  | (name, v) :: fs => do
      let d ← wireDescriptor v
      let ms ← wireFields fs
      pure ((name, d) :: ms)

/-- The schema of the first element of a structure array that is present. -/
def wireElement : List (Option (PvStructureOf PvField)) → Option (String × List Member)
  | [] => none
  | none :: items => wireElement items
  | some ⟨i, fs⟩ :: _ => (wireFields fs).map fun ms => (i, ms)
end

/-! ### Encoding -/

abbrev Encoder : Type := FieldDesc → List UInt8

def encodeLen (n : ℕ) (order : ByteOrder) : List UInt8 := encodeSize (UInt32.ofNat n) order

/-- The loop of `encode_structure_fields` from the member at index `i` on. -/
def encodeFieldsFrom (order : ByteOrder) (fields : List (String × Encoder)) :
    ℕ → List Member → List UInt8
  | _, [] => []
  | i, (name, d) :: ms =>
      (match memberAt fields i name with
        | some enc => enc d
        | none => encodeDefault order d) ++ encodeFieldsFrom order fields (i + 1) ms

/-- `encode_structure_fields`, over the encoders of the fields. -/
def encodeStructureFieldsWith (order : ByteOrder) (fields : List (String × Encoder))
    (ms : List Member) : List UInt8 :=
  encodeFieldsFrom order fields 0 ms

/-- `encode_pv_field_generic`; `again` encodes the same value under another descriptor. -/
def encodePvFieldGeneric (conv : ScalarConv) (order : ByteOrder) (again : Encoder)
    (value : PvField) : FieldDesc → List UInt8
  | .scalar st =>
      match value with
      | .scalar v => encodeScalarValue (coerceScalar conv v st) order
      | _ => encodeScalarValue (zeroScalar st) order
  | .scalarArray st =>
      match value with
      | .scalarArray items =>
          encodeLen items.length order ++
            items.flatMap fun v => encodeScalarValue (coerceScalar conv v st) order
      | .scalarArrayTyped arr =>
          encodeLen arr.toScalarValues.length order ++
            arr.toScalarValues.flatMap fun v => encodeScalarValue (coerceScalar conv v st) order
      | _ => encodeSize 0 order
  | .struct _ ms => encodeDefaults order ms
  | .structArray .. => encodeSize 0 order
  | .union _ variants =>
      match value with
      | .null => [0xFF]
      | other =>
          match variants.findIdx? fun m => valueFitsDesc other m.2 with
          | some idx => encodeLen idx order ++ again (variants[idx]?.getD ("", .variant)).2
          | none => [0xFF]
  | .unionArray .. => encodeSize 0 order
  | .variant =>
      match value with
      | .null => [0xFF]
      | other =>
          match wireDescriptor other with
          | some d => encodeTypeDesc order d ++ again d
          | none => [0xFF]
  | .variantArray => encodeSize 0 order

section Typed

variable (conv : ScalarConv) (order : ByteOrder)

/-- The arm `(Scalar, Scalar)`. -/
def typedScalar (v : ScalarValue) : FieldDesc → Option (List UInt8)
  | .scalar st =>
      some (if v.st = st then encodeScalarValue v order
        else encodeScalarValue (coerceScalar conv v st) order)
  | _ => none

/-- The arm `(ScalarArray, ScalarArray)`. -/
def typedItems (items : List ScalarValue) : FieldDesc → Option (List UInt8)
  | .scalarArray st =>
      if items.all fun v => decide (v.st = st) then
        some (encodeLen items.length order ++ items.flatMap fun v => encodeScalarValue v order)
      else none
  | _ => none

/-- The arm `(ScalarArray, ScalarArrayTyped)`. -/
def typedArray (arr : TypedScalarArray) : FieldDesc → Option (List UInt8)
  | .scalarArray st =>
      if arr.st = st then
        some (encodeLen arr.items.length order ++ encodeTypedScalarArray arr order)
      else none
  | _ => none

/-- The arm `(Structure, Structure)`. -/
def typedStruct (fields : List (String × Encoder)) : FieldDesc → Option (List UInt8)
  | .struct _ ms => some (encodeStructureFieldsWith order fields ms)
  | _ => none

/-- The arm `(StructureArray, StructureArray)`. -/
def typedStructArray (items : List (Option (List (String × Encoder)))) :
    FieldDesc → Option (List UInt8)
  | .structArray _ ms =>
      some (encodeLen items.length order ++ items.flatMap fun item =>
        match item with
        | none => [0x00]
        | some fields => 0x01 :: encodeStructureFieldsWith order fields ms)
  | _ => none

/-- The arm `(Union, Union)`. -/
def typedUnion (selector : Int32) (enc : Encoder) : FieldDesc → Option (List UInt8)
  | .union _ variants =>
      some (match selectVariant variants selector with
        | some (idx, m) => encodeLen idx order ++ enc m.2
        | none => [0xFF])
  | _ => none

/-- The arm `(UnionArray, UnionArray)`. -/
def typedUnionArray (items : List (Option (Int32 × Encoder))) : FieldDesc → Option (List UInt8)
  | .unionArray _ variants =>
      some (encodeLen items.length order ++ items.flatMap fun item =>
        match item.bind fun it => (selectVariant variants it.1).map fun sel => (sel, it.2) with
        | some ((idx, m), enc) => 0x01 :: (encodeLen idx order ++ enc m.2)
        | none => [0x00])
  | _ => none

/-- The arm `(Variant, Variant)`. -/
def typedVariant (desc : Option FieldDesc) (enc : Encoder) : FieldDesc → Option (List UInt8)
  | .variant =>
      some (match desc with
        | none => [0xFF]
        | some d => encodeTypeDesc order d ++ enc d)
  | _ => none

/-- The arm `(VariantArray, VariantArray)`. -/
def typedVariantArray (items : List (Option (Option FieldDesc × Encoder))) :
    FieldDesc → Option (List UInt8)
  | .variantArray =>
      some (encodeLen items.length order ++ items.flatMap fun item =>
        match item.bind fun it => it.1.map fun d => (d, it.2) with
        | some (d, enc) => 0x01 :: (encodeTypeDesc order d ++ enc d)
        | none => [0x00])
  | _ => none

/-- The typed arms first, the generic ones after.  A bare value goes through the generic arms a
second time at most, and then without another turn. -/
def encodeWith (value : PvField) (typed : FieldDesc → Option (List UInt8)) : Encoder := fun d =>
  (typed d).getD (encodePvFieldGeneric conv order
    (fun d' => (typed d').getD (encodePvFieldGeneric conv order (fun _ => []) value d')) value d)

mutual
def encodePvField : PvField → Encoder
  | .scalar v => encodeWith conv order (.scalar v) (typedScalar conv order v)
  | .scalarArray items => encodeWith conv order (.scalarArray items) (typedItems order items)
  | .scalarArrayTyped arr => encodeWith conv order (.scalarArrayTyped arr) (typedArray order arr)
  | .struct ⟨i, fs⟩ =>
      encodeWith conv order (.struct ⟨i, fs⟩) (typedStruct order (fieldEncoders fs))
  | .structArray items =>
      encodeWith conv order (.structArray items) (typedStructArray order (elementEncoders items))
  | .union ⟨sel, name, v⟩ =>
      encodeWith conv order (.union ⟨sel, name, v⟩) (typedUnion order sel (encodePvField v))
  | .unionArray items =>
      encodeWith conv order (.unionArray items) (typedUnionArray order (unionEncoders items))
  | .variant ⟨d, v⟩ =>
      encodeWith conv order (.variant ⟨d, v⟩) (typedVariant order d (encodePvField v))
  | .variantArray items =>
      encodeWith conv order (.variantArray items) (typedVariantArray order (variantEncoders items))
  | .null => encodeWith conv order .null fun _ => none

def fieldEncoders : List (String × PvField) → List (String × Encoder)
  | [] => []
  | (name, v) :: fs => (name, encodePvField v) :: fieldEncoders fs

def elementEncoders :
    List (Option (PvStructureOf PvField)) → List (Option (List (String × Encoder)))
  | [] => []
  | none :: items => none :: elementEncoders items
  | some ⟨_, fs⟩ :: items => some (fieldEncoders fs) :: elementEncoders items

def unionEncoders : List (Option (UnionItemOf PvField)) → List (Option (Int32 × Encoder))
  | [] => []
  | none :: items => none :: unionEncoders items
  | some ⟨sel, _, v⟩ :: items => some (sel, encodePvField v) :: unionEncoders items

def variantEncoders :
    List (Option (VariantValueOf PvField)) → List (Option (Option FieldDesc × Encoder))
  | [] => []
  | none :: items => none :: variantEncoders items
  | some ⟨d, v⟩ :: items => some (d, encodePvField v) :: variantEncoders items
end

end Typed

/-! ### The equation of the source -/

section

variable {conv : ScalarConv} {order : ByteOrder}

lemma fieldEncoders_eq (fs : List (String × PvField)) :
    fieldEncoders conv order fs = fs.map fun f => (f.1, encodePvField conv order f.2) := by
  induction fs with
  | nil => rw [fieldEncoders]; rfl
  | cons f fs ih => rw [fieldEncoders, ih]; rfl

lemma elementEncoders_eq (items : List (Option PvStructure)) :
    elementEncoders conv order items =
      items.map (Option.map fun s => s.fields.map fun f => (f.1, encodePvField conv order f.2)) := by
  induction items with
  | nil => rw [elementEncoders]; rfl
  | cons item items ih =>
    cases item with
    | none => rw [elementEncoders, ih]; rfl
    | some s => rw [elementEncoders, ih, fieldEncoders_eq]; rfl

lemma unionEncoders_eq (items : List (Option UnionItem)) :
    unionEncoders conv order items =
      items.map (Option.map fun u => (u.selector, encodePvField conv order u.value)) := by
  induction items with
  | nil => rw [unionEncoders]; rfl
  | cons item items ih =>
    cases item with
    | none => rw [unionEncoders, ih]; rfl
    | some u => rw [unionEncoders, ih]; rfl

lemma variantEncoders_eq (items : List (Option VariantValue)) :
    variantEncoders conv order items =
      items.map (Option.map fun v => (v.desc, encodePvField conv order v.value)) := by
  induction items with
  | nil => rw [variantEncoders]; rfl
  | cons item items ih =>
    cases item with
    | none => rw [variantEncoders, ih]; rfl
    | some v => rw [variantEncoders, ih]; rfl

end

/-- `encode_structure_fields` from index `i` on: a member that the value lacks is encoded as its
default. -/
def encodeStructureFieldsFrom (conv : ScalarConv) (order : ByteOrder) (s : PvStructure) :
    ℕ → List Member → List UInt8
  | _, [] => []
  | i, (name, d) :: ms =>
      (match memberAt s.fields i name with
        | some v => encodePvField conv order v d
        | none => encodePvField conv order (defaultValueFor d) d) ++
        encodeStructureFieldsFrom conv order s (i + 1) ms

def encodeStructureFields (conv : ScalarConv) (order : ByteOrder) (s : PvStructure)
    (ms : List Member) : List UInt8 :=
  encodeStructureFieldsFrom conv order s 0 ms

/-- The typed arms of `encode_pv_field`, as the source lists them. -/
def typedArm (conv : ScalarConv) (order : ByteOrder) : FieldDesc → PvField → Option (List UInt8)
  | .scalar st, .scalar v =>
      some (if v.st = st then encodeScalarValue v order
        else encodeScalarValue (coerceScalar conv v st) order)
  | .scalarArray st, .scalarArrayTyped arr =>
      if arr.st = st then
        some (encodeLen arr.items.length order ++ encodeTypedScalarArray arr order)
      else none
  | .scalarArray st, .scalarArray items =>
      if items.all fun v => decide (v.st = st) then
        some (encodeLen items.length order ++ items.flatMap fun v => encodeScalarValue v order)
      else none
  | .struct _ ms, .struct s => some (encodeStructureFields conv order s ms)
  | .structArray _ ms, .structArray items =>
      some (encodeLen items.length order ++ items.flatMap fun item =>
        match item with
        | none => [0x00]
        | some s => 0x01 :: encodeStructureFields conv order s ms)
  | .union _ variants, .union u =>
      some (match selectVariant variants u.selector with
        | some (idx, m) => encodeLen idx order ++ encodePvField conv order u.value m.2
        | none => [0xFF])
  | .unionArray _ variants, .unionArray items =>
      some (encodeLen items.length order ++ items.flatMap fun item =>
        match item.bind fun u =>
          (selectVariant variants u.selector).map fun sel => (sel, u.value) with
        | some ((idx, m), v) => 0x01 :: (encodeLen idx order ++ encodePvField conv order v m.2)
        | none => [0x00])
  | .variant, .variant v =>
      some (match v.desc with
        | none => [0xFF]
        | some d => encodeTypeDesc order d ++ encodePvField conv order v.value d)
  | .variantArray, .variantArray items =>
      some (encodeLen items.length order ++ items.flatMap fun item =>
        match item.bind fun v => v.desc.map fun d => (d, v.value) with
        | some (d, v) => 0x01 :: (encodeTypeDesc order d ++ encodePvField conv order v d)
        | none => [0x00])
  | _, _ => none

section

variable {conv : ScalarConv} {order : ByteOrder}

lemma encodeFieldsFrom_positional (g : Member → Encoder) (ms : List Member) :
    ∀ fields : List (String × Encoder),
      encodeFieldsFrom order (fields ++ ms.map fun m => (m.1, g m)) fields.length ms =
        ms.flatMap fun m => g m m.2 := by
  induction ms with
  | nil => exact fun _ => rfl
  | cons m ms ih =>
    intro fields
    have hfound : memberAt (fields ++ (m :: ms).map fun m => (m.1, g m)) fields.length m.1 =
        some (g m) := by
      simp [memberAt]
    have hrest := ih (fields ++ [(m.1, g m)])
    rw [length_append, append_assoc] at hrest
    rw [encodeFieldsFrom, hfound]
    exact congrArg _ hrest

lemma encodeDefaults_eq (ms : List Member) :
    encodeDefaults order ms = ms.flatMap fun m => encodeDefault order m.2 := by
  induction ms with
  | nil => rfl
  | cons m ms ih => rw [encodeDefaults, ih]; rfl

/-- **What stands for a missing member is the encoding of its default.** -/
theorem encodePvField_default (d : FieldDesc) :
    encodePvField conv order (defaultValueFor d) d = encodeDefault order d := by
  induction d using FieldDesc.compound_induction with
  | leaf d hd =>
    cases d with
    | scalar st => simp [defaultValueFor, encodePvField, encodeWith, typedScalar, encodeDefault,
        zeroScalar]
    | scalarArray st => simp [defaultValueFor, encodePvField, encodeWith, typedItems,
        encodeDefault, encodeLen]
    | variant => rfl
    | variantArray => rfl
    | _ => simp [FieldDesc.cacheable] at hd
  | compound k i ms ih =>
    cases k with
    | struct =>
      have hfields : fieldEncoders conv order (defaultMembers ms) =
          ms.map fun m => (m.1, encodePvField conv order (defaultValueFor m.2)) := by
        rw [fieldEncoders_eq, defaultMembers_eq, map_map]
        rfl
      simp only [Compound.desc, defaultValueFor, encodePvField, encodeWith, typedStruct,
        Option.getD_some, encodeStructureFieldsWith, hfields, encodeDefault, encodeDefaults_eq]
      exact (encodeFieldsFrom_positional _ ms []).trans
        (flatMap_congr fun m hm => ih m hm)
    | structArray => rfl
    | union => rfl
    | unionArray => rfl

lemma encodeStructureFields_eq (s : PvStructure) (ms : List Member) :
    encodeStructureFieldsWith order (s.fields.map fun f => (f.1, encodePvField conv order f.2)) ms =
      encodeStructureFields conv order s ms := by
  have h : ∀ i, encodeFieldsFrom order
      (s.fields.map fun f => (f.1, encodePvField conv order f.2)) i ms =
      encodeStructureFieldsFrom conv order s i ms := by
    induction ms with
    | nil => exact fun _ => rfl
    | cons m ms ih =>
      intro i
      rw [encodeFieldsFrom, encodeStructureFieldsFrom, ih, memberAt_map]
      cases memberAt s.fields i m.1 with
      | none => simp only [Option.map_none, encodePvField_default]
      | some v => rfl
  exact h 0

lemma encodePvField_eq_encodeWith (v : PvField) :
    encodePvField conv order v = encodeWith conv order v fun d => typedArm conv order d v := by
  cases v with
  | scalar _ | scalarArray _ | scalarArrayTyped _ | union _ | variant _ | null =>
    rw [encodePvField]
    congr 1
    funext d
    cases d <;> rfl
  | struct s =>
    rw [encodePvField, fieldEncoders_eq]
    congr 1
    funext d
    cases d with
    | struct i ms => exact congrArg some (encodeStructureFields_eq s ms)
    | _ => rfl
  | structArray items =>
    rw [encodePvField, elementEncoders_eq]
    congr 1
    funext d
    cases d with
    | structArray i ms =>
      simp only [typedStructArray, typedArm, length_map, flatMap_map]
      congr 2
      refine flatMap_congr fun item _ => ?_
      cases item with
      | none => rfl
      | some s => exact congrArg _ (encodeStructureFields_eq s ms)
    | _ => rfl
  | unionArray items =>
    rw [encodePvField, unionEncoders_eq]
    congr 1
    funext d
    cases d with
    | unionArray i vs =>
      simp only [typedUnionArray, typedArm, length_map, flatMap_map]
      congr 2
      refine flatMap_congr fun item _ => ?_
      cases item with
      | none => rfl
      | some u =>
        simp only [Option.map_some, Option.bind_some]
        cases selectVariant vs u.selector <;> rfl
    | _ => rfl
  | variantArray items =>
    rw [encodePvField, variantEncoders_eq]
    congr 1
    funext d
    cases d with
    | variantArray =>
      simp only [typedVariantArray, typedArm, length_map, flatMap_map]
      congr 2
      refine flatMap_congr fun item _ => ?_
      cases item with
      | none => rfl
      | some v =>
        obtain ⟨d, v⟩ := v
        cases d <;> rfl
    | _ => rfl

/-- The descriptors under which the generic arms turn to another descriptor. -/
def reroutes : FieldDesc → Bool
  | .union .. | .variant => true
  | _ => false

lemma encodePvFieldGeneric_congr {a b v d}
    (h : reroutes d = true →
      ∀ d', valueFitsDesc v d' = true ∨ wireDescriptor v = some d' → a d' = b d') :
    encodePvFieldGeneric conv order a v d = encodePvFieldGeneric conv order b v d := by
  cases d with
  | union i vs =>
    cases v with
    | null => rfl
    | _ =>
      simp only [encodePvFieldGeneric]
      split
      · next idx hidx =>
          obtain ⟨hlt, hfit, -⟩ := findIdx?_eq_some_iff_getElem.1 hidx
          simp only [getElem?_eq_getElem hlt]
          exact congrArg _ (h rfl _ (Or.inl hfit))
      · rfl
  | variant =>
    cases v with
    | null => rfl
    | _ =>
      simp only [encodePvFieldGeneric]
      split
      · next d' hd' => exact congrArg _ (h rfl _ (Or.inr hd'))
      · rfl
  | _ => rfl

/-- A value that fits a union or a self-describing type is a union or a self-describing value, and
has its typed arm there. -/
lemma typedArm_isSome_of_fits {v d} (hr : reroutes d = true) (h : valueFitsDesc v d = true)
    : (typedArm conv order d v).isSome := by
  cases d <;> simp only [reroutes, Bool.false_eq_true] at hr <;>
    cases v <;> simp only [valueFitsDesc, Bool.false_eq_true] at h <;> rfl

lemma typedArm_isSome_of_wireDescriptor {v d} (hr : reroutes d = true)
    (h : wireDescriptor v = some d) : (typedArm conv order d v).isSome := by
  cases d with
  | union i vs =>
    cases v with
    | struct s => simp [wireDescriptor] at h
    | structArray items => simp [wireDescriptor] at h
    | variant v => obtain ⟨d, v⟩ := v; cases d <;> simp [wireDescriptor] at h
    | _ => simp [wireDescriptor] at h
  | variant =>
    cases v with
    | variant v => rfl
    | struct s => simp [wireDescriptor] at h
    | structArray items => simp [wireDescriptor] at h
    | _ => simp [wireDescriptor] at h
  | _ => simp [reroutes] at hr

/-- **The encoder obeys the equation of the source**: the typed arms, and for what they do not
match the generic ones, which may encode the same value under another descriptor. -/
theorem encodePvField_eq (v : PvField) (d : FieldDesc) :
    encodePvField conv order v d =
      (typedArm conv order d v).getD
        (encodePvFieldGeneric conv order (encodePvField conv order v) v d) := by
  rw [encodePvField_eq_encodeWith, encodeWith]
  congr 1
  refine encodePvFieldGeneric_congr fun _ d' hd' => ?_
  rw [encodeWith]
  cases hr : reroutes d' with
  | true =>
    -- a second turn would need a typed arm that does not match, and it does
    have hsome : (typedArm conv order d' v).isSome :=
      hd'.elim (typedArm_isSome_of_fits hr) (typedArm_isSome_of_wireDescriptor hr)
    obtain ⟨out, hout⟩ := Option.isSome_iff_exists.1 hsome
    rw [hout]
    rfl
  | false =>
    rw [encodePvFieldGeneric_congr (d := d') fun h => by rw [hr] at h; cases h]

end

/-! ### Decoding -/

/-- The presence byte of an array element: `0x00` is an absent one, `0x01` a present one. -/
def decodePresence {α : Type} (what : String) (absent : α) (present : Decoder TypeCache α) :
    Decoder TypeCache α := do
  let presence ← getU8
  if presence = 0x00 then pure absent
  else if presence = 0x01 then present
  else fail (.presence what presence)

/-- `variants.get(sel as usize).ok_or_else(..)` and the value of the variant. -/
def decodeSelected (what : String) (variants : List Member)
    (field : FieldDesc → Decoder TypeCache PvField) (sel : Int32) : Decoder TypeCache UnionItem := do
  let m ← orFault (.selector what sel) (selectVariant variants sel)
  let v ← field m.2.2
  pure ⟨sel, m.2.1, v⟩

/-- What a turn of the loop over a structure array pushes; `if let PvField::Structure(s)` drops
anything else. -/
def pushStructure : PvField → List (Option PvStructure)
  | .struct s => [some s]
  | _ => []

/-- The element of a union array behind its presence byte: a null selector is an absent element. -/
def decodeUnionItem (order : ByteOrder) (variants : List Member)
    (field : FieldDesc → Decoder TypeCache PvField) : Decoder TypeCache (Option UnionItem) := do
  match ← decodeSize order with
  | none => pure none
  | some sel => do
      let u ← decodeSelected "union array" variants field sel.toInt32
      pure (some u)

/-- A descriptor, or the null type code, and a value under the descriptor: the arm of a variant,
and the element of a variant array behind its presence byte. -/
def decodeAny (order : ByteOrder) (field : FieldDesc → Decoder TypeCache PvField) :
    Decoder TypeCache (Option VariantValue) := do
  match ← decodeTypeDescCachedOpt order with
  | none => pure none
  | some inner => do
      let v ← field inner
      pure (some ⟨some inner, v⟩)

/-- One level of `decode_pv_field_at_depth`, over the decoder `field` of the next. -/
def decodeLevel (order : ByteOrder) (field : FieldDesc → Decoder TypeCache PvField) :
    FieldDesc → Decoder TypeCache PvField
  | .scalar st => do
      let v ← decodeScalarValue st order
      pure (.scalar v)
  | .scalarArray st => do
      let n ← decodeSizeNonnull order "scalar array length"
      let arr ← decodeTypedScalarArray st n.toNat order
      pure (.scalarArrayTyped arr)
  | .struct i ms => do
      let fs ← each (fun m => do
        let v ← field m.2
        pure (m.1, v)) ms
      pure (.struct ⟨i, fs⟩)
  | .structArray i ms => do
      let n ← decodeSizeNonnull order "structure array length"
      let items ← times (decodePresence "structure array" [none] (do
        let v ← field (.struct i ms)
        pure (pushStructure v))) n.toNat
      pure (.structArray items.flatten)
  | .union _ variants => do
      match ← decodeSize order with
      | none => pure (.union ⟨-1, "", .null⟩)
      | some sel => do
          let u ← decodeSelected "union" variants field sel.toInt32
          pure (.union u)
  | .unionArray _ variants => do
      let n ← decodeSizeNonnull order "union array length"
      let items ← times
        (decodePresence "union array" none (decodeUnionItem order variants field)) n.toNat
      pure (.unionArray items)
  | .variant => do
      let any ← decodeAny order field
      pure (.variant (any.getD ⟨none, .null⟩))
  | .variantArray => do
      let n ← decodeSizeNonnull order "variant array length"
      let items ← times (decodePresence "variant array" none (decodeAny order field)) n.toNat
      pure (.variantArray items)

/-- `decode_pv_field_at_depth`, with `room` levels left. -/
def decodePvFieldAtDepth (order : ByteOrder) : ℕ → FieldDesc → Decoder TypeCache PvField
  | 0, _ => fail .fieldNesting
  | room + 1, d => decodeLevel order (decodePvFieldAtDepth order room) d

def decodePvFieldCached (order : ByteOrder) (d : FieldDesc) : Decoder TypeCache PvField :=
  decodePvFieldAtDepth order (maxFieldDepth + 1) d

/-- `decode_pv_field`: a cache of its own, thrown away afterwards. -/
def decodePvField {σ : Type} (order : ByteOrder) (d : FieldDesc) : Decoder σ PvField :=
  zoom (fun _ => TypeCache.empty) (fun _ s => s) (decodePvFieldCached order d)

end Pva
