/-
**Every value is encoded as one that matches.**

What the encoder emits for a value that does not match its descriptor is what it would emit for
another one that does: scalars converted, the members of a structure in order and the missing ones
at their defaults, a bare value as the variant that it fits or behind a descriptor of its own, and a
default for what cannot be used.  `conform` is that other value, and the decoder reads it.

Main result: `Pva.decodePvField_encodePvField_conform`.
-/

import EpicsRs.PvaValueRoundTrip

set_option autoImplicit false

namespace Pva

open ByteReader List FieldDesc PvField

/-! ### Conforming -/

abbrev Shaper : Type := FieldDesc → PvField

mutual
/-- What stands for a value that cannot be used: the default, as the decoder builds it. -/
def conformDefault : FieldDesc → PvField
  | .scalar st => .scalar (zeroScalar st)
  | .scalarArray st => .scalarArrayTyped ⟨st, []⟩
  | .struct i ms => .struct ⟨i, conformDefaults ms⟩
  | .structArray .. => .structArray []
  | .union .. => .union nullUnion
  | .unionArray .. => .unionArray []
  | .variant => .variant ⟨none, .null⟩
  | .variantArray => .variantArray []

def conformDefaults : List Member → List (String × PvField)
  | [] => []
  | (name, d) :: ms => (name, conformDefault d) :: conformDefaults ms
end

/-- The members of a structure from index `i` on, in the order of the descriptor. -/
def conformFieldsFrom (fields : List (String × Shaper)) : ℕ → List Member → List (String × PvField)
  | _, [] => []
  | i, (name, d) :: ms =>
      (name, match memberAt fields i name with
        | some shape => shape d
        | none => conformDefault d) :: conformFieldsFrom fields (i + 1) ms

section

variable (conv : ScalarConv)

def coerceElem (st : ScalarType) (v : ScalarValue) : st.Elem :=
  st_coerceScalar conv v st ▸ (coerceScalar conv v st).val

def coerceItems (st : ScalarType) (items : List ScalarValue) : PvField :=
  .scalarArrayTyped ⟨st, items.map (coerceElem conv st)⟩

/-- What the generic arms make of a value; `again` is the value under another descriptor. -/
def conformGeneric (again : Shaper) (value : PvField) : Shaper
  | .scalar st =>
      match value with
      | .scalar v => .scalar (coerceScalar conv v st)
      | _ => .scalar (zeroScalar st)
  | .scalarArray st =>
      match value with
      | .scalarArray items => coerceItems conv st items
      | .scalarArrayTyped arr => coerceItems conv st arr.toScalarValues
      | _ => .scalarArrayTyped ⟨st, []⟩
  | .union _ variants =>
      match value with
      | .null => .union nullUnion
      | other =>
          match variants.findIdx? fun m => valueFitsDesc other m.2 with
          | some idx =>
              let m := variants[idx]?.getD ("", .variant)
              .union ⟨Int32.ofNat idx, m.1, again m.2⟩
          | none => .union nullUnion
  | .variant =>
      match value with
      | .null => .variant ⟨none, .null⟩
      | other =>
          match wireDescriptor other with
          | some d => .variant ⟨some d, again d⟩
          | none => .variant ⟨none, .null⟩
  | d => conformDefault d

/-- The typed arms first, the generic ones after, as in `encodeWith`. -/
def conformWith (value : PvField) (typed : FieldDesc → Option PvField) : Shaper := fun d =>
  (typed d).getD (conformGeneric conv
    (fun d' => (typed d').getD (conformGeneric conv (fun _ => .null) value d')) value d)

def shapedScalar (v : ScalarValue) : FieldDesc → Option PvField
  | .scalar st => some (.scalar (coerceScalar conv v st))
  | _ => none

/-- Scalars that are all of the type of the array. -/
def shapedItems (items : List ScalarValue) : FieldDesc → Option PvField
  | .scalarArray st =>
      if items.all fun v => decide (v.st = st) then some (coerceItems conv st items) else none
  | _ => none

def shapedArray (arr : TypedScalarArray) : FieldDesc → Option PvField
  | .scalarArray st => if arr.st = st then some (.scalarArrayTyped arr) else none
  | _ => none

def shapedStruct (fields : List (String × Shaper)) : FieldDesc → Option PvField
  | .struct i ms => some (.struct ⟨i, conformFieldsFrom fields 0 ms⟩)
  | _ => none

def shapedStructArray (items : List (Option (List (String × Shaper)))) :
    FieldDesc → Option PvField
  | .structArray i ms =>
      some (.structArray (items.map (Option.map fun fields => ⟨i, conformFieldsFrom fields 0 ms⟩)))
  | _ => none

/-- The variant that a selector selects, under the name and the type of the descriptor. -/
def shapedItem (variants : List Member) (selector : Int32) (shape : Shaper) : Option UnionItem :=
  (selectVariant variants selector).map fun m => ⟨selector, m.2.1, shape m.2.2⟩

def shapedUnion (selector : Int32) (shape : Shaper) : FieldDesc → Option PvField
  | .union _ variants => some (.union ((shapedItem variants selector shape).getD nullUnion))
  | _ => none

def shapedUnionArray (items : List (Option (Int32 × Shaper))) : FieldDesc → Option PvField
  | .unionArray _ variants =>
      some (.unionArray (items.map fun item => item.bind fun u => shapedItem variants u.1 u.2))
  | _ => none

def shapedAny (desc : Option FieldDesc) (shape : Shaper) : Option VariantValue :=
  desc.map fun d => ⟨some d, shape d⟩

def shapedVariant (desc : Option FieldDesc) (shape : Shaper) : FieldDesc → Option PvField
  | .variant => some (.variant ((shapedAny desc shape).getD ⟨none, .null⟩))
  | _ => none

def shapedVariantArray (items : List (Option (Option FieldDesc × Shaper))) :
    FieldDesc → Option PvField
  | .variantArray =>
      some (.variantArray (items.map fun item => item.bind fun v => shapedAny v.1 v.2))
  | _ => none

mutual
/-- **The value that a peer sees** when this one is encoded under a descriptor. -/
def conform : PvField → Shaper
  | .scalar v => conformWith conv (.scalar v) (shapedScalar conv v)
  | .scalarArray items => conformWith conv (.scalarArray items) (shapedItems conv items)
  | .scalarArrayTyped arr => conformWith conv (.scalarArrayTyped arr) (shapedArray arr)
  | .struct ⟨i, fs⟩ => conformWith conv (.struct ⟨i, fs⟩) (shapedStruct (fieldShapers fs))
  | .structArray items =>
      conformWith conv (.structArray items) (shapedStructArray (elementShapers items))
  | .union ⟨sel, name, v⟩ => conformWith conv (.union ⟨sel, name, v⟩) (shapedUnion sel (conform v))
  | .unionArray items =>
      conformWith conv (.unionArray items) (shapedUnionArray (unionShapers items))
  | .variant ⟨d, v⟩ => conformWith conv (.variant ⟨d, v⟩) (shapedVariant d (conform v))
  | .variantArray items =>
      conformWith conv (.variantArray items) (shapedVariantArray (variantShapers items))
  | .null => conformWith conv .null fun _ => none

def fieldShapers : List (String × PvField) → List (String × Shaper)
  | [] => []
  | (name, v) :: fs => (name, conform v) :: fieldShapers fs

def elementShapers :
    List (Option (PvStructureOf PvField)) → List (Option (List (String × Shaper)))
  | [] => []
  | none :: items => none :: elementShapers items
  | some ⟨_, fs⟩ :: items => some (fieldShapers fs) :: elementShapers items

def unionShapers : List (Option (UnionItemOf PvField)) → List (Option (Int32 × Shaper))
  | [] => []
  | none :: items => none :: unionShapers items
  | some ⟨sel, _, v⟩ :: items => some (sel, conform v) :: unionShapers items

/-- What the elements of an array of self-describing values become. -/
def variantShapers :
    List (Option (VariantValueOf PvField)) → List (Option (Option FieldDesc × Shaper))
  | [] => []
  | none :: items => none :: variantShapers items
  | some ⟨d, v⟩ :: items => some (d, conform v) :: variantShapers items
end

end

section

variable {conv : ScalarConv}

lemma fieldShapers_eq (fs : List (String × PvField)) :
    fieldShapers conv fs = fs.map fun f => (f.1, conform conv f.2) := by
  induction fs with
  | nil => rw [fieldShapers]; rfl
  | cons f fs ih => rw [fieldShapers, ih]; rfl

lemma elementShapers_eq (items : List (Option PvStructure)) :
    elementShapers conv items =
      items.map (Option.map fun s => s.fields.map fun f => (f.1, conform conv f.2)) := by
  induction items with
  | nil => rw [elementShapers]; rfl
  | cons item items ih =>
    cases item with
    | none => rw [elementShapers, ih]; rfl
    | some s => rw [elementShapers, ih, fieldShapers_eq]; rfl

lemma unionShapers_eq (items : List (Option UnionItem)) :
    unionShapers conv items =
      items.map (Option.map fun u => (u.selector, conform conv u.value)) := by
  induction items with
  | nil => rw [unionShapers]; rfl
  | cons item items ih =>
    cases item with
    | none => rw [unionShapers, ih]; rfl
    | some u => rw [unionShapers, ih]; rfl

lemma variantShapers_eq (items : List (Option VariantValue)) :
    variantShapers conv items =
      items.map (Option.map fun v => (v.desc, conform conv v.value)) := by
  induction items with
  | nil => rw [variantShapers]; rfl
  | cons item items ih =>
    cases item with
    | none => rw [variantShapers, ih]; rfl
    | some v => rw [variantShapers, ih]; rfl

end

/-! ### What the parts are encoded as -/

section

variable {conv : ScalarConv} {order : ByteOrder} {fs : List (String × PvField)} {ms : List Member}

lemma encodeStructureFieldsFrom_positional (h : Forall₂ (fun f m => f.1 = m.1) fs ms)
    (i : String) :
    ∀ pre : List (String × PvField),
      encodeStructureFieldsFrom conv order ⟨i, pre ++ fs⟩ pre.length ms =
        (zipWith (fun f m => encodePvField conv order f.2 m.2) fs ms).flatten := by
  induction h with
  | nil => exact fun _ => rfl
  | @cons f m fs ms hname _ ih =>
    intro pre
    have hfound : memberAt (pre ++ f :: fs) pre.length m.1 = some f.2 := by
      simp [memberAt, hname]
    have hrest := ih (pre ++ [f])
    rw [length_append, append_assoc] at hrest
    rw [encodeStructureFieldsFrom, hfound, zipWith_cons_cons, flatten_cons]
    exact congrArg _ hrest

lemma encodePvField_struct (h : Forall₂ (fun f m => f.1 = m.1) fs ms) (i : String) :
    encodePvField conv order (.struct ⟨i, fs⟩) (.struct i ms) =
      (zipWith (fun f m => encodePvField conv order f.2 m.2) fs ms).flatten := by
  rw [encodePvField_of_typedArm rfl]
  exact encodeStructureFieldsFrom_positional h i []

lemma encodeScalar_cast {w} {st : ScalarType} (h : w.st = st) :
    encodeScalar order st (h ▸ w.val) = encodeScalarValue w order := by
  subst h
  rfl

variable (st : ScalarType)

lemma encodePvField_coerceItems (items : List ScalarValue) :
    encodePvField conv order (coerceItems conv st items) (.scalarArray st) =
      encodeLen items.length order ++
        items.flatMap fun v => encodeScalarValue (coerceScalar conv v st) order := by
  have hitems : (items.map (coerceElem conv st)).flatMap (encodeScalar order st) =
      items.flatMap fun v => encodeScalarValue (coerceScalar conv v st) order := by
    rw [flatMap_map]
    exact flatMap_congr fun v _ => encodeScalar_cast (st_coerceScalar conv v st)
  rw [← hitems, ← encodeTypedScalarArray_eq, ← length_map (f := coerceElem conv st)]
  exact encodePvField_of_typedArm (if_pos rfl)

/-- The value matches the descriptor, and `out` is its encoding. -/
def Shows (conv : ScalarConv) (order : ByteOrder) (d : FieldDesc) (out : List UInt8)
    (w : PvField) : Prop :=
  matchesDesc w d = true ∧ encodePvField conv order w d = out

lemma shows_scalar (v : ScalarValue) (st : ScalarType) :
    Shows conv order (.scalar st) (encodeScalarValue (coerceScalar conv v st) order)
      (.scalar (coerceScalar conv v st)) := by
  have hst := st_coerceScalar conv v st
  refine ⟨by simp [matchesDesc, hst], encodePvField_of_typedArm ?_⟩
  simp [typedArm, hst]

lemma shows_zeroScalar : Shows conv order (.scalar st) (encodeScalarValue (zeroScalar st) order)
      (.scalar (zeroScalar st)) := by
  have hzero : coerceScalar conv (zeroScalar st) st = zeroScalar st := coerceScalar_self conv _
  rw [← hzero]
  exact shows_scalar (zeroScalar st) st

lemma shows_coerceItems (items : List ScalarValue) : Shows conv order (.scalarArray st)
      (encodeLen items.length order ++
        items.flatMap fun v => encodeScalarValue (coerceScalar conv v st) order)
      (coerceItems conv st items) :=
  ⟨by simp [matchesDesc, coerceItems], encodePvField_coerceItems st items⟩

lemma shows_nullUnion (i : String) (variants : List Member) :
    Shows conv order (.union i variants) [0xFF] (.union nullUnion) := by
  refine ⟨matchesDesc_union.2 (Or.inr rfl), encodePvField_of_typedArm ?_⟩
  simp [typedArm, nullUnion, selectVariant_neg_one]

lemma shows_struct {out i} (h : Forall₂ (fun f m => f.1 = m.1 ∧ matchesDesc f.2 m.2 = true) fs ms)
    (hout : (zipWith (fun f m => encodePvField conv order f.2 m.2) fs ms).flatten = out) :
    Shows conv order (.struct i ms) out (.struct ⟨i, fs⟩) := by
  refine ⟨matchesDesc_struct.2 ⟨rfl, h⟩, ?_⟩
  rw [encodePvField_struct (h.imp fun _ _ hfm => hfm.1), hout]

/-- **The default matches**, and is encoded as the default of the source. -/
theorem shows_conformDefault (d : FieldDesc) :
    Shows conv order d (encodeDefault order d) (conformDefault d) := by
  induction d using compound_induction with
  | leaf d hd =>
    cases d with
    | scalar st => exact shows_zeroScalar st
    | scalarArray st => exact shows_coerceItems st []
    | variant => exact ⟨rfl, encodePvField_of_typedArm rfl⟩
    | variantArray => exact ⟨rfl, encodePvField_of_typedArm rfl⟩
    | _ => simp [cacheable] at hd
  | compound k i ms ih =>
    cases k with
    | struct =>
      suffices h : Forall₂ (fun f m => f.1 = m.1 ∧ matchesDesc f.2 m.2 = true)
          (conformDefaults ms) ms ∧
          (zipWith (fun f m => encodePvField conv order f.2 m.2)
            (conformDefaults ms) ms).flatten = encodeDefaults order ms from
        shows_struct h.1 h.2
      induction ms with
      | nil => exact ⟨Forall₂.nil, rfl⟩
      | cons m ms ihms =>
        obtain ⟨hm, hms⟩ := forall_mem_cons.1 ih
        obtain ⟨hmatch, hout⟩ := ihms hms
        refine ⟨Forall₂.cons ⟨rfl, hm.1⟩ hmatch, ?_⟩
        rw [conformDefaults, encodeDefaults, zipWith_cons_cons, flatten_cons, hout]
        exact congrArg (· ++ _) hm.2
    | structArray => exact ⟨rfl, encodePvField_of_typedArm rfl⟩
    | union => exact shows_nullUnion i ms
    | unionArray => exact ⟨rfl, encodePvField_of_typedArm rfl⟩

lemma shows_union {u : UnionItem} {i variants idx m out} (hsel : selectVariant variants u.selector = some (idx, m))
    (hname : u.variantName = m.1) (h : Shows conv order m.2 out u.value) :
    Shows conv order (.union i variants) (encodeLen idx order ++ out) (.union u) := by
  refine ⟨matchesDesc_union.2 (Or.inl ⟨idx, m, hsel, hname, h.1⟩), encodePvField_of_typedArm ?_⟩
  simp [typedArm, hsel, h.2]

lemma shows_variant {d v out} (h : Shows conv order d out v) :
    Shows conv order .variant (encodeTypeDesc order d ++ out) (.variant ⟨some d, v⟩) :=
  ⟨h.1, encodePvField_of_typedArm (by simp [typedArm, h.2])⟩

/-- An array of structures, element by element: `w` is what an item becomes, and `out` what was
emitted for it. -/
lemma shows_structArray {α : Type} {items : List α} {w : α → Option PvStructure} {out i}
    (h : ∀ x ∈ items, w x = none ∧ out x = [0x00] ∨
      ∃ s o, w x = some s ∧ out x = 0x01 :: o ∧ Shows conv order (.struct i ms) o (.struct s)) :
    Shows conv order (.structArray i ms) (encodeLen items.length order ++ items.flatMap out)
    (.structArray (items.map w)) := by
  constructor
  · refine matchesElements_iff.2 fun s hs => ?_
    obtain ⟨x, hx, hw⟩ := mem_map.1 hs
    rcases h x hx with ⟨hnone, -⟩ | ⟨s', o, hsome, -, hshows⟩
    · rw [hnone] at hw
      cases hw
    · obtain rfl : s' = s := Option.some.inj (hsome.symm.trans hw)
      exact hshows.1
  · rw [encodePvField_of_typedArm rfl, length_map, flatMap_map]
    refine congrArg _ (flatMap_congr fun x hx => ?_)
    rcases h x hx with ⟨hnone, hout⟩ | ⟨s, o, hsome, hout, hshows⟩
    · rw [hnone, hout]
    · have henc : encodeStructureFields conv order s ms = o := by
        rw [← hshows.2, encodePvField_of_typedArm rfl]
      rw [hsome, hout, ← henc]

lemma shows_unionArray {α : Type} {items : List α} {w : α → Option UnionItem} {out i variants}
    (h : ∀ x ∈ items, w x = none ∧ out x = [0x00] ∨
      ∃ u idx m o, w x = some u ∧ selectVariant variants u.selector = some (idx, m) ∧
        u.variantName = m.1 ∧ out x = 0x01 :: (encodeLen idx order ++ o) ∧
        Shows conv order m.2 o u.value) :
    Shows conv order (.unionArray i variants) (encodeLen items.length order ++ items.flatMap out)
    (.unionArray (items.map w)) := by
  constructor
  · refine matchesUnions_iff.2 fun u hu => ?_
    obtain ⟨x, hx, hw⟩ := mem_map.1 hu
    rcases h x hx with ⟨hnone, -⟩ | ⟨u', idx, m, o, hsome, hsel, hname, -, hshows⟩
    · rw [hnone] at hw
      cases hw
    · obtain rfl : u' = u := Option.some.inj (hsome.symm.trans hw)
      exact ⟨idx, m, hsel, hname, hshows.1⟩
  · rw [encodePvField_of_typedArm rfl, length_map, flatMap_map]
    refine congrArg _ (flatMap_congr fun x hx => ?_)
    rcases h x hx with ⟨hnone, hout⟩ | ⟨u, idx, m, o, hsome, hsel, -, hout, hshows⟩
    · rw [hnone, hout]
      rfl
    · rw [hsome, hout]
      simp only [Option.bind_some, hsel, Option.map_some, hshows.2]

lemma shows_variantArray {α : Type} {items : List α} {w : α → Option VariantValue} {out}
    (h : ∀ x ∈ items, w x = none ∧ out x = [0x00] ∨
      ∃ d v o, w x = some ⟨some d, v⟩ ∧ out x = 0x01 :: (encodeTypeDesc order d ++ o) ∧
        Shows conv order d o v) :
    Shows conv order .variantArray (encodeLen items.length order ++ items.flatMap out)
    (.variantArray (items.map w)) := by
  constructor
  · refine matchesVariants_iff.2 fun v hv => ?_
    obtain ⟨x, hx, hw⟩ := mem_map.1 hv
    rcases h x hx with ⟨hnone, -⟩ | ⟨d, v', o, hsome, -, hshows⟩
    · rw [hnone] at hw
      cases hw
    · obtain rfl : ⟨some d, v'⟩ = v := Option.some.inj (hsome.symm.trans hw)
      exact ⟨d, rfl, hshows.1⟩
  · rw [encodePvField_of_typedArm rfl, length_map, flatMap_map]
    refine congrArg _ (flatMap_congr fun x hx => ?_)
    rcases h x hx with ⟨hnone, hout⟩ | ⟨d, v, o, hsome, hout, hshows⟩
    · rw [hnone, hout]
      rfl
    · rw [hsome, hout]
      simp only [Option.bind_some, Option.map_some, hshows.2]

end

/-! ### Every value conforms -/

section

variable (conv : ScalarConv) (order : ByteOrder)

/-- Under every descriptor within the limits, what the shaper gives shows what the encoder emits,
as long as nothing in it is cut. -/
def Conforming (enc : Encoder) (shape : Shaper) : Prop :=
  ∀ d, d.nodes ≤ maxFieldNodes → fits (shape d) = true → Shows conv order d (enc d) (shape d)

/-- So does what the descriptor makes of the value. -/
def Conforms (v : PvField) : Prop :=
  Conforming conv order (encodePvField conv order v) (conform conv v)

/-- A typed arm of the encoder and the value for it: both apply or neither does. -/
def ArmConforms (d : FieldDesc) (out : Option (List UInt8)) (w : Option PvField) : Prop :=
  out = none ∧ w = none ∨
    ∃ out' w', out = some out' ∧ w = some w' ∧ (fits w' = true → Shows conv order d out' w')

end

section

variable {conv : ScalarConv} {order : ByteOrder}
variable {d : FieldDesc}

lemma armConforms_none : ArmConforms conv order d none none := Or.inl ⟨rfl, rfl⟩

lemma armConforms_some {out w} (h : fits w = true → Shows conv order d out w) :
    ArmConforms conv order d (some out) (some w) := Or.inr ⟨out, w, rfl, rfl, h⟩

lemma selectVariant_ofNat {variants} {idx : ℕ} {m} (hidx : idx < 2 ^ 31)
    (hm : variants[idx]? = some m) : selectVariant variants (Int32.ofNat idx) = some (idx, m) := by
  have hint : (Int32.ofNat idx).toInt = idx := Int32.toInt_ofNat_of_lt hidx
  have hpos : (0 : Int32) ≤ Int32.ofNat idx := by
    rw [Int32.le_iff_toInt_le, hint]
    exact Int.natCast_nonneg idx
  simp [selectVariant, hpos, hint, hm]

lemma length_le_nodesMembers (ms : List Member) : ms.length ≤ nodesMembers ms := by
  induction ms with
  | nil => exact Nat.zero_le _
  | cons m ms ih =>
    have hpos := m.2.nodes_pos
    rw [length_cons, nodesMembers]
    omega

lemma nodes_le_of_admitted (h : d.admitted = true) : d.nodes ≤ maxFieldNodes := by
  simp only [admitted, Bool.and_eq_true, decide_eq_true_eq] at h
  exact h.2

/-! A bare value where a union or a self-describing value should be. -/

variable {v : PvField}

lemma encodePvFieldGeneric_union {a} (hnull : v ≠ .null) (i : String) (variants : List Member)
    : encodePvFieldGeneric conv order a v (.union i variants) =
      match variants.findIdx? fun m => valueFitsDesc v m.2 with
      | some idx => encodeLen idx order ++ a (variants[idx]?.getD ("", .variant)).2
      | none => [0xFF] := by
  cases v <;> first | rfl | exact absurd rfl hnull

lemma conformGeneric_union {b} (hnull : v ≠ .null) (i : String) (variants : List Member)
    : conformGeneric conv b v (.union i variants) =
      match variants.findIdx? fun m => valueFitsDesc v m.2 with
      | some idx => .union ⟨Int32.ofNat idx, (variants[idx]?.getD ("", .variant)).1,
          b (variants[idx]?.getD ("", .variant)).2⟩
      | none => .union nullUnion := by
  cases v <;> first | rfl | exact absurd rfl hnull

lemma encodePvFieldGeneric_variant {a} :
    encodePvFieldGeneric conv order a v .variant =
      match wireDescriptor v with
      | some d => encodeTypeDesc order d ++ a d
      | none => [0xFF] := by
  cases v <;> rfl

lemma conformGeneric_variant {b} :
    conformGeneric conv b v .variant =
      match wireDescriptor v with
      | some d => .variant ⟨some d, b d⟩
      | none => .variant ⟨none, .null⟩ := by
  cases v <;> rfl

lemma shows_conformGeneric {a b} (hd : d.nodes ≤ maxFieldNodes)
    (hfit : fits (conformGeneric conv b v d) = true)
    (hagain : reroutes d = true → ∀ d', d'.nodes ≤ maxFieldNodes → valueFitsDesc v d' = true ∨ wireDescriptor v = some d' → fits (b d') = true → Shows conv order d' (a d') (b d')) :
    Shows conv order d (encodePvFieldGeneric conv order a v d) (conformGeneric conv b v d) := by
  cases d with
  | scalar st =>
    cases v with
    | scalar v => exact shows_scalar v st
    | _ => exact shows_zeroScalar st
  | scalarArray st =>
    cases v with
    | scalarArray items => exact shows_coerceItems st items
    | scalarArrayTyped arr => exact shows_coerceItems st arr.toScalarValues
    | _ => exact shows_conformDefault (.scalarArray st)
  | union i variants =>
    by_cases hnull : v = .null
    · subst hnull
      exact shows_nullUnion i variants
    · rw [conformGeneric_union hnull] at hfit ⊢
      rw [encodePvFieldGeneric_union hnull]
      cases hidx : variants.findIdx? fun m => valueFitsDesc v m.2 with
      | none => exact shows_nullUnion i variants
      | some idx =>
        obtain ⟨hlt, hfits, -⟩ := findIdx?_eq_some_iff_getElem.1 hidx
        have hget := getElem?_eq_getElem hlt
        have hlen := length_le_nodesMembers variants
        have hnode := nodes_le_nodesMembers (getElem_mem hlt)
        simp only [nodes, maxFieldNodes] at hd
        simp only [hidx, hget, Option.getD_some] at hfit ⊢
        have hv := (all_union.1 hfit).2
        exact shows_union (selectVariant_ofNat (by omega) hget) rfl
          (hagain rfl _ (by rw [maxFieldNodes]; omega) (Or.inl hfits) hv)
  | variant =>
    rw [conformGeneric_variant] at hfit ⊢
    rw [encodePvFieldGeneric_variant]
    cases hd' : wireDescriptor v with
    | none => exact shows_conformDefault .variant
    | some d' =>
      simp only [hd'] at hfit ⊢
      obtain ⟨htop, hv⟩ := all_variant.1 hfit
      exact shows_variant (hagain rfl _ (nodes_le_of_admitted htop) (Or.inr hd') hv)
  | struct i ms => exact shows_conformDefault (.struct i ms)
  | structArray i ms => exact shows_conformDefault (.structArray i ms)
  | unionArray i ms => exact shows_conformDefault (.unionArray i ms)
  | variantArray => exact shows_conformDefault .variantArray

/-- **The typed arms conform, so the whole does**: a bare value is encoded as the variant that it
fits, or behind the descriptor of its own. -/
theorem conforming_with {typed}
    (h : ∀ d, d.nodes ≤ maxFieldNodes → ArmConforms conv order d (typedArm conv order d v) (typed d)) :
    Conforming conv order (encodePvField conv order v) (conformWith conv v typed) := by
  -- one turn of the arms, when the next one is known to conform
  have hturn : ∀ (b : Shaper) (d : FieldDesc), d.nodes ≤ maxFieldNodes →
      (reroutes d = true → typedArm conv order d v = none → ∀ d', d'.nodes ≤ maxFieldNodes →
        valueFitsDesc v d' = true ∨ wireDescriptor v = some d' → fits (b d') = true →
        Shows conv order d' (encodePvField conv order v d') (b d')) →
      fits ((typed d).getD (conformGeneric conv b v d)) = true →
      Shows conv order d (encodePvField conv order v d)
        ((typed d).getD (conformGeneric conv b v d)) := by
    intro b d hd hagain hfit
    rw [encodePvField_eq]
    rcases h d hd with ⟨hout, hw⟩ | ⟨out, w, hout, hw, hshows⟩
    · rw [hw] at hfit
      rw [hout, hw]
      exact shows_conformGeneric hd hfit fun hr => hagain hr hout
    · rw [hw] at hfit
      rw [hout, hw]
      exact hshows hfit
  intro d hd hfit
  refine hturn _ d hd (fun _ _ d' hd' hv hfit' => ?_) hfit
  -- the second turn finds a typed arm
  refine hturn _ d' hd' (fun hr hnone => ?_) hfit'
  have hsome : (typedArm conv order d' v).isSome :=
    hv.elim (typedArm_isSome_of_fits hr) (typedArm_isSome_of_wireDescriptor hr)
  rw [hnone] at hsome
  cases hsome

lemma conformFieldsFrom_shows {s} (ih : ∀ f ∈ s.fields, Conforms conv order f.2) {ms}
    (hms : ∀ m ∈ ms, m.2.nodes ≤ maxFieldNodes) :
    ∀ i, (∀ f ∈ conformFieldsFrom (s.fields.map fun f => (f.1, conform conv f.2)) i ms,
        fits f.2 = true) →
      Forall₂ (fun f m => f.1 = m.1 ∧ matchesDesc f.2 m.2 = true)
    (conformFieldsFrom (s.fields.map fun f => (f.1, conform conv f.2)) i ms) ms ∧
      (zipWith (fun f m => encodePvField conv order f.2 m.2)
    (conformFieldsFrom (s.fields.map fun f => (f.1, conform conv f.2)) i ms) ms).flatten =
        encodeStructureFieldsFrom conv order s i ms := by
  induction ms with
  | nil => exact fun _ _ => ⟨Forall₂.nil, rfl⟩
  | cons m ms ihms =>
    obtain ⟨name, d⟩ := m
    obtain ⟨hm, hms⟩ := forall_mem_cons.1 hms
    intro i hfit
    rw [conformFieldsFrom, memberAt_map] at hfit ⊢
    obtain ⟨hhead, htail⟩ := forall_mem_cons.1 hfit
    obtain ⟨hmatch, hout⟩ := ihms hms (i + 1) htail
    rw [encodeStructureFieldsFrom, zipWith_cons_cons, flatten_cons, hout]
    cases hfound : memberAt s.fields i name with
    | none =>
      have hshows : Shows conv order d (encodeDefault order d) (conformDefault d) :=
        shows_conformDefault d
      refine ⟨Forall₂.cons ⟨rfl, hshows.1⟩ hmatch, congrArg (· ++ _) ?_⟩
      exact hshows.2.trans (encodePvField_default d).symm
    | some v =>
      rw [hfound] at hhead
      have hshows := ih _ (mem_of_memberAt hfound) d hm hhead
      exact ⟨Forall₂.cons ⟨rfl, hshows.1⟩ hmatch, congrArg (· ++ _) hshows.2⟩

lemma shows_conformStruct {s} (ih : ∀ f ∈ s.fields, Conforms conv order f.2) {i ms}
    (hms : ∀ m ∈ ms, m.2.nodes ≤ maxFieldNodes)
    (hfit : ∀ f ∈ conformFieldsFrom (s.fields.map fun f => (f.1, conform conv f.2)) 0 ms,
      fits f.2 = true) :
    Shows conv order (.struct i ms) (encodeStructureFields conv order s ms)
    (.struct ⟨i, conformFieldsFrom (s.fields.map fun f => (f.1, conform conv f.2)) 0 ms⟩) :=
  have h := conformFieldsFrom_shows ih hms 0 hfit
  shows_struct h.1 h.2

lemma nodes_le_of_compound {k : Compound} {i ms} (h : (k.desc i ms).nodes ≤ maxFieldNodes)
    : ∀ m ∈ ms, m.2.nodes ≤ maxFieldNodes := by
  intro m hm
  have hle := nodes_le_nodesMembers hm
  rw [nodes_desc] at h
  omega

lemma conforming_scalar (v : ScalarValue) :
    Conforms conv order (.scalar v) := by
  refine conforming_with fun d _ => ?_
  cases d with
  | scalar st =>
    refine armConforms_some fun _ => ?_
    -- a value of the right type is not converted
    by_cases hst : v.st = st
    · have hself : coerceScalar conv v st = v := if_pos hst
      have hshows : Shows conv order (.scalar st) (encodeScalarValue v order) (.scalar v) := by
        rw [← hself]
        exact shows_scalar v st
      rwa [if_pos hst, hself]
    · rw [if_neg hst]
      exact shows_scalar v st
  | _ => exact armConforms_none

lemma conforming_scalarArray (items : List ScalarValue) :
    Conforms conv order (.scalarArray items) := by
  refine conforming_with fun d _ => ?_
  cases d with
  | scalarArray st =>
    simp only [typedArm, shapedItems]
    split_ifs with hall
    · refine armConforms_some fun _ => ?_
      have hself : (items.flatMap fun v => encodeScalarValue v order) =
          items.flatMap fun v => encodeScalarValue (coerceScalar conv v st) order := by
        refine flatMap_congr fun v hv => ?_
        have hst : v.st = st := by simpa using all_eq_true.1 hall v hv
        rw [show coerceScalar conv v st = v from if_pos hst]
      rw [hself]
      exact shows_coerceItems st items
    · exact armConforms_none
  | _ => exact armConforms_none

lemma conforming_scalarArrayTyped (arr : TypedScalarArray) :
    Conforms conv order (.scalarArrayTyped arr) := by
  refine conforming_with fun d _ => ?_
  cases d with
  | scalarArray st =>
    simp only [typedArm, shapedArray]
    split_ifs with hst
    · refine armConforms_some fun _ => ⟨by simp [matchesDesc, hst], ?_⟩
      exact encodePvField_of_typedArm (if_pos hst)
    · exact armConforms_none
  | _ => exact armConforms_none

lemma conforming_struct {s : PvStructure}
    (ih : ∀ f ∈ s.fields, Conforms conv order f.2) :
    Conforms conv order (.struct s) := by
  rw [Conforms, conform, fieldShapers_eq]
  refine conforming_with fun d hd => ?_
  cases d with
  | struct i ms =>
    refine armConforms_some fun hfit => ?_
    exact shows_conformStruct ih (nodes_le_of_compound (k := .struct) hd)
      (all_struct.1 hfit).2
  | _ => exact armConforms_none

lemma conforming_structArray {items : List (Option PvStructure)}
    (ih : ∀ s, some s ∈ items → ∀ f ∈ s.fields, Conforms conv order f.2) :
    Conforms conv order (.structArray items) := by
  rw [Conforms, conform, elementShapers_eq]
  refine conforming_with fun d hd => ?_
  cases d with
  | structArray i ms =>
    refine armConforms_some fun hfit => ?_
    rw [map_map] at hfit ⊢
    have hfits := (all_structArray.1 hfit).2
    refine shows_structArray fun item hitem => ?_
    cases item with
    | none => exact Or.inl ⟨rfl, rfl⟩
    | some s =>
      refine Or.inr ⟨_, _, rfl, rfl, shows_conformStruct (ih s hitem)
        (nodes_le_of_compound (k := .structArray) hd) ?_⟩
      exact hfits _ (mem_map.2 ⟨some s, hitem, rfl⟩)
  | _ => exact armConforms_none

lemma conforming_union {u : UnionItem}
    (ih : Conforms conv order u.value) :
    Conforms conv order (.union u) := by
  refine conforming_with fun d hd => ?_
  cases d with
  | union i variants =>
    refine armConforms_some fun hfit => ?_
    -- a selector that chooses no variant is sent as the null one
    cases hsel : selectVariant variants u.selector with
    | none =>
      simp only [shapedItem, hsel]
      exact shows_nullUnion i variants
    | some m =>
      obtain ⟨idx, m⟩ := m
      simp only [shapedItem, hsel, Option.map_some, Option.getD_some] at hfit ⊢
      have hm := mem_of_getElem? (selectVariant_eq_some hsel).2
      have hshows := ih m.2 (nodes_le_of_compound (k := .union) hd m hm)
        (all_union.1 hfit).2
      exact shows_union hsel rfl hshows
  | _ => exact armConforms_none

lemma conforming_unionArray {items : List (Option UnionItem)}
    (ih : ∀ u, some u ∈ items → Conforms conv order u.value) :
    Conforms conv order (.unionArray items) := by
  rw [Conforms, conform, unionShapers_eq]
  refine conforming_with fun d hd => ?_
  cases d with
  | unionArray i variants =>
    refine armConforms_some fun hfit => ?_
    rw [map_map] at hfit ⊢
    have hfits := (all_unionArray.1 hfit).2
    refine shows_unionArray fun item hitem => ?_
    cases item with
    | none => exact Or.inl ⟨rfl, rfl⟩
    | some u =>
      -- an element whose selector chooses no variant is sent as an absent one
      cases hsel : selectVariant variants u.selector with
      | none => exact Or.inl ⟨by simp [shapedItem, hsel], by simp [hsel]⟩
      | some m =>
        obtain ⟨idx, m⟩ := m
        have hfit' := hfits ⟨u.selector, m.1, conform conv u.value m.2⟩
          (mem_map.2 ⟨some u, hitem, by simp [shapedItem, hsel]⟩)
        have hm := mem_of_getElem? (selectVariant_eq_some hsel).2
        have hshows := ih u hitem m.2 (nodes_le_of_compound (k := .unionArray) hd m hm)
          hfit'
        exact Or.inr ⟨⟨u.selector, m.1, conform conv u.value m.2⟩, idx, m, _,
          by simp [shapedItem, hsel], hsel, rfl, by simp [hsel], hshows⟩
  | _ => exact armConforms_none

lemma conforming_variant {v : VariantValue}
    (ih : Conforms conv order v.value) :
    Conforms conv order (.variant v) := by
  refine conforming_with fun d hd => ?_
  cases d with
  | variant =>
    refine armConforms_some fun hfit => ?_
    obtain ⟨desc, v⟩ := v
    cases desc with
    | none => exact shows_conformDefault .variant
    | some d =>
      obtain ⟨htop, hv⟩ := all_variant.1 hfit
      exact shows_variant (ih d (nodes_le_of_admitted htop) hv)
  | _ => exact armConforms_none

lemma conforming_variantArray {items : List (Option VariantValue)}
    (ih : ∀ v, some v ∈ items → Conforms conv order v.value) :
    Conforms conv order (.variantArray items) := by
  rw [Conforms, conform, variantShapers_eq]
  refine conforming_with fun d hd => ?_
  cases d with
  | variantArray =>
    refine armConforms_some fun hfit => ?_
    rw [map_map] at hfit ⊢
    obtain ⟨htop, hfits⟩ := all_variantArray.1 hfit
    simp only [topFits, Bool.and_eq_true, all_eq_true] at htop
    refine shows_variantArray fun item hitem => ?_
    cases item with
    | none => exact Or.inl ⟨rfl, rfl⟩
    | some v =>
      obtain ⟨desc, v⟩ := v
      cases desc with
      | none => exact Or.inl ⟨rfl, rfl⟩
      | some d =>
        -- the descriptor in front of the element is one that the decoder admits
        have hadm := htop.2 (some ⟨some d, conform conv v d⟩)
          (mem_map.2 ⟨_, hitem, rfl⟩)
        have hfit' := hfits ⟨some d, conform conv v d⟩ (mem_map.2 ⟨_, hitem, rfl⟩)
        have hshows := ih _ hitem d (nodes_le_of_admitted hadm) hfit'
        exact Or.inr ⟨d, _, _, rfl, rfl, hshows⟩
  | _ => exact armConforms_none

lemma conforming_null :
    Conforms conv order .null := by
  refine conforming_with fun d _ => ?_
  cases d <;> exact armConforms_none

theorem conforming (conv : ScalarConv) (order : ByteOrder) (v : PvField) :
    Conforms conv order v := by
  induction v using induction with
  | scalar v => exact conforming_scalar v
  | scalarArray items => exact conforming_scalarArray items
  | scalarArrayTyped arr => exact conforming_scalarArrayTyped arr
  | struct s ih => exact conforming_struct ih
  | structArray items ih => exact conforming_structArray ih
  | union u ih => exact conforming_union ih
  | unionArray items ih => exact conforming_unionArray ih
  | variant v ih => exact conforming_variant ih
  | variantArray items ih => exact conforming_variantArray ih
  | null => exact conforming_null

end

/-- **Encoding never desynchronises a stream**: whatever the value is, the decoder reads the value
that the descriptor makes of it and stops where the encoder stopped. -/
theorem decodePvField_encodePvField_conform (conv : ScalarConv) (order : ByteOrder)
    (d : FieldDesc) (v : PvField) (hd : d.nodes ≤ maxFieldNodes)
    (hl : withinLimits (conform conv v d) = true) (suffix : List UInt8) :
    decodePvField order d (encodePvField conv order v d ++ suffix) () =
      (.ok (conform conv v d, suffix), ()) := by
  simp only [withinLimits, Bool.and_eq_true, decide_eq_true_eq] at hl
  obtain ⟨hmatch, henc⟩ := conforming conv order v d hd hl.1
  rw [← henc]
  exact zoom_eq_ok (reads_decodePvFieldAtDepth conv order TypeCache.empty _ d maxFieldDepth hmatch
    hl.1 hl.2 suffix)

/-- A structure with its members out of order and none of them of the kind that `sampleDesc` asks
for: a bare integer for the union, bare booleans for the self-describing value, and nothing for the
rows. -/
def strayValue : PvField :=
  .struct ⟨"", [("rows", .null), ("value", .scalar ⟨.int, (7 : Int32)⟩),
    ("any", .scalarArray [⟨.boolean, true⟩])]⟩

def strayConformed : PvField :=
  .struct ⟨"sample_t", [("value", .union ⟨0, "i", .scalar ⟨.int, (7 : Int32)⟩⟩),
    ("any", .variant ⟨some (.scalarArray .boolean), .scalarArrayTyped ⟨.boolean, [true]⟩⟩),
    ("rows", .structArray [])]⟩

theorem decodePvField_encodePvField_stray :
    sampleDesc.nodes ≤ maxFieldNodes ∧
      withinLimits (conform ScalarConv.never strayValue sampleDesc) = true ∧
      conform ScalarConv.never strayValue sampleDesc = strayConformed ∧
      decodePvField .little sampleDesc
        (encodePvField ScalarConv.never .little strayValue sampleDesc ++ [0x2A]) () =
          (.ok (strayConformed, [0x2A]), ()) :=
  ⟨by decide, by decide, rfl, decodePvField_encodePvField_conform ScalarConv.never .little sampleDesc
    strayValue (by decide) (by decide) [0x2A]⟩

end Pva
