/-
**Values that match their descriptor are read back.**

A value matches a descriptor when it is built the way the decoder builds values under it.  It is
read back whenever the wire can carry it: no length is cut to 32 bits, the descriptors inside it are
admitted, and the nesting is within the depth of the decoder.  An element of an array of structures
is one level below the array and its members another; what is absent costs nothing.

Main result: `Pva.decodePvField_encodePvField`.
-/

import EpicsRs.PvaValue
import EpicsRs.PvaDescInline

set_option autoImplicit false

namespace Pva

open ByteReader List PvField

/-! ### Matching -/

/-- What the decoder puts where nothing is selected. -/
def PvField.isNull : PvField → Bool
  | .null => true
  | _ => false

lemma PvField.isNull_iff {v : PvField} : v.isNull = true ↔ v = .null := by
  cases v <;> simp [isNull]

mutual
/-- The value is built as the descriptor says. -/
def matchesDesc : PvField → FieldDesc → Bool
  | .scalar v, .scalar st => decide (v.st = st)
  | .scalarArrayTyped arr, .scalarArray st => decide (arr.st = st)
  | .struct ⟨j, fs⟩, .struct i ms => decide (j = i) && matchesFields fs ms
  | .structArray items, .structArray i ms => matchesElements i ms items
  | .union ⟨sel, name, v⟩, .union _ variants =>
      match selectVariant variants sel with
      | some (_, m) => decide (name = m.1) && matchesDesc v m.2
      | none => decide (sel = -1) && decide (name = "") && v.isNull
  | .unionArray items, .unionArray _ variants => matchesUnions variants items
  | .variant ⟨some d, v⟩, .variant => matchesDesc v d
  | .variant ⟨none, v⟩, .variant => v.isNull
  | .variantArray items, .variantArray => matchesVariants items
  | _, _ => false

def matchesFields : List (String × PvField) → List Member → Bool
  | [], [] => true
  | (n, v) :: fs, (name, d) :: ms => decide (n = name) && matchesDesc v d && matchesFields fs ms
  | _, _ => false

/-- The elements of a structure array that are present are structures of its schema. -/
def matchesElements (i : String) (ms : List Member) : List (Option (PvStructureOf PvField)) → Bool
  | [] => true
  | none :: items => matchesElements i ms items
  | some ⟨j, fs⟩ :: items =>
      decide (j = i) && matchesFields fs ms && matchesElements i ms items

/-- The elements of a union array that are present select a variant. -/
def matchesUnions (variants : List Member) : List (Option (UnionItemOf PvField)) → Bool
  | [] => true
  | none :: items => matchesUnions variants items
  | some ⟨sel, name, v⟩ :: items =>
      (match selectVariant variants sel with
        | some (_, m) => decide (name = m.1) && matchesDesc v m.2
        | none => false) && matchesUnions variants items

/-- The elements of a variant array that are present have a descriptor. -/
def matchesVariants : List (Option (VariantValueOf PvField)) → Bool
  | [] => true
  | none :: items => matchesVariants items
  | some ⟨some d, v⟩ :: items => matchesDesc v d && matchesVariants items
  | some ⟨none, _⟩ :: _ => false
end

/-- A union that selects one of its variants. -/
def SelectsIn (variants : List Member) (u : UnionItem) : Prop :=
  ∃ idx m, selectVariant variants u.selector = some (idx, m) ∧ u.variantName = m.1 ∧
    matchesDesc u.value m.2 = true

def nullUnion : UnionItem := ⟨-1, "", .null⟩

lemma matchesFields_iff {fs ms} :
    matchesFields fs ms = true ↔
      Forall₂ (fun f m => f.1 = m.1 ∧ matchesDesc f.2 m.2 = true) fs ms := by
  induction fs generalizing ms with
  | nil => cases ms <;> simp [matchesFields]
  | cons f fs ih => cases ms <;> simp [matchesFields, ih, and_assoc]

lemma matchesDesc_struct {s : PvStructure} {i} {ms : List Member} :
    matchesDesc (.struct s) (.struct i ms) = true ↔ s.structId = i ∧
      Forall₂ (fun f m => f.1 = m.1 ∧ matchesDesc f.2 m.2 = true) s.fields ms := by
  simp [matchesDesc, matchesFields_iff]

lemma matchesElements_iff {i ms} {items : List (Option PvStructure)} :
    matchesElements i ms items = true ↔
      ∀ s, some s ∈ items → matchesDesc (.struct s) (.struct i ms) = true := by
  induction items with
  | nil => simp [matchesElements]
  | cons item items ih =>
    cases item with
    | none => simp [matchesElements, ih]
    | some s => simp [matchesElements, ih, matchesDesc]

lemma selectVariant_neg_one (variants : List Member) : selectVariant variants (-1) = none := by
  simp [selectVariant]

lemma matchesDesc_union {u : UnionItem} {i} {variants : List Member} :
    matchesDesc (.union u) (.union i variants) = true ↔ SelectsIn variants u ∨ u = nullUnion := by
  obtain ⟨sel, name, v⟩ := u
  simp only [matchesDesc, SelectsIn, nullUnion]
  cases hsel : selectVariant variants sel with
  | none => simp [isNull_iff, and_assoc]
  | some m =>
    obtain ⟨idx, n, d⟩ := m
    have hne : sel ≠ -1 := by
      rintro rfl
      cases hsel
    simp [hne]

lemma matchesUnions_iff {variants} {items : List (Option UnionItem)} :
    matchesUnions variants items = true ↔ ∀ u, some u ∈ items → SelectsIn variants u := by
  induction items with
  | nil => simp [matchesUnions]
  | cons item items ih =>
    cases item with
    | none => simp [matchesUnions, ih]
    | some u =>
      have hhead : (match selectVariant variants u.selector with
          | some (_, m) => decide (u.variantName = m.1) && matchesDesc u.value m.2
          | none => false) = true ↔ SelectsIn variants u := by
        unfold SelectsIn
        cases selectVariant variants u.selector with
        | none => simp
        | some m => obtain ⟨idx, n, d⟩ := m; simp
      rw [matchesUnions, Bool.and_eq_true, ih, hhead]
      simp

lemma matchesVariants_iff {items : List (Option VariantValue)} :
    matchesVariants items = true ↔
      ∀ v, some v ∈ items → ∃ d, v.desc = some d ∧ matchesDesc v.value d = true := by
  induction items with
  | nil => simp [matchesVariants]
  | cons item items ih =>
    cases item with
    | none => simp [matchesVariants, ih]
    | some v =>
      obtain ⟨d, v⟩ := v
      cases d <;> simp [matchesVariants, ih]

/-! ### What the wire can carry -/

mutual
/-- The predicate holds of the value and of every value inside it. -/
def PvField.all (p : PvField → Bool) : PvField → Bool
  | .struct ⟨i, fs⟩ => p (.struct ⟨i, fs⟩) && PvField.allFields p fs
  | .structArray items => p (.structArray items) && PvField.allElements p items
  | .union ⟨sel, name, v⟩ => p (.union ⟨sel, name, v⟩) && PvField.all p v
  | .unionArray items => p (.unionArray items) && PvField.allUnions p items
  | .variant ⟨d, v⟩ => p (.variant ⟨d, v⟩) && PvField.all p v
  | .variantArray items => p (.variantArray items) && PvField.allVariants p items
  | v => p v

def PvField.allFields (p : PvField → Bool) : List (String × PvField) → Bool
  | [] => true
  | (_, v) :: fs => PvField.all p v && PvField.allFields p fs

def PvField.allElements (p : PvField → Bool) : List (Option (PvStructureOf PvField)) → Bool
  | [] => true
  | none :: items => PvField.allElements p items
  | some ⟨_, fs⟩ :: items => PvField.allFields p fs && PvField.allElements p items

def PvField.allUnions (p : PvField → Bool) : List (Option (UnionItemOf PvField)) → Bool
  | [] => true
  | none :: items => PvField.allUnions p items
  | some ⟨_, _, v⟩ :: items => PvField.all p v && PvField.allUnions p items

def PvField.allVariants (p : PvField → Bool) : List (Option (VariantValueOf PvField)) → Bool
  | [] => true
  | none :: items => PvField.allVariants p items
  | some ⟨_, v⟩ :: items => PvField.all p v && PvField.allVariants p items
end

namespace PvField

variable {p : PvField → Bool}

lemma allFields_iff {fs} :
    allFields p fs = true ↔ ∀ f ∈ fs, f.2.all p = true := by
  induction fs with
  | nil => simp [allFields]
  | cons f fs ih => simp [allFields, ih]

lemma all_struct {s : PvStructure} :
    (struct s).all p = true ↔ p (.struct s) = true ∧ ∀ f ∈ s.fields, f.2.all p = true := by
  simp [all, allFields_iff]

lemma all_structArray {items : List (Option PvStructure)} :
    (structArray items).all p = true ↔ p (.structArray items) = true ∧
      ∀ s, some s ∈ items → ∀ f ∈ s.fields, f.2.all p = true := by
  have h : allElements p items = true ↔
      ∀ s, some s ∈ items → ∀ f ∈ s.fields, f.2.all p = true := by
    induction items with
    | nil => simp [allElements]
    | cons item items ih => cases item <;> simp [allElements, ih, allFields_iff]
  simp [all, h]

lemma all_union {u : UnionItem} :
    (union u).all p = true ↔ p (.union u) = true ∧ u.value.all p = true := by
  simp [all]

lemma all_unionArray {items : List (Option UnionItem)} :
    (unionArray items).all p = true ↔ p (.unionArray items) = true ∧
      ∀ u, some u ∈ items → u.value.all p = true := by
  have h : allUnions p items = true ↔ ∀ u, some u ∈ items → u.value.all p = true := by
    induction items with
    | nil => simp [allUnions]
    | cons item items ih => cases item <;> simp [allUnions, ih]
  simp [all, h]

lemma all_variant {v : VariantValue} :
    (variant v).all p = true ↔ p (.variant v) = true ∧ v.value.all p = true := by
  simp [all]

lemma all_variantArray {items : List (Option VariantValue)} :
    (variantArray items).all p = true ↔ p (.variantArray items) = true ∧
      ∀ v, some v ∈ items → v.value.all p = true := by
  have h : allVariants p items = true ↔ ∀ v, some v ∈ items → v.value.all p = true := by
    induction items with
    | nil => simp [allVariants]
    | cons item items ih => cases item <;> simp [allVariants, ih]
  simp [all, h]

end PvField

/-- A descriptor that the decoder of descriptors admits when it is sent inline. -/
def FieldDesc.admitted (d : FieldDesc) : Bool :=
  decide (d.wireDepth ≤ maxFieldDepth) && d.labelsFit && decide (d.nodes ≤ maxFieldNodes)

/-- No length at the top of the value is cut to 32 bits, and the descriptors there are admitted. -/
def PvField.topFits : PvField → Bool
  | .scalar v => v.st.elemFits v.val
  | .scalarArray items => decide (items.length < 2 ^ 32) && items.all fun v => v.st.elemFits v.val
  | .scalarArrayTyped arr =>
      decide (arr.items.length < 2 ^ 32) && arr.items.all fun x => arr.st.elemFits x
  | .structArray items => decide (items.length < 2 ^ 32)
  | .unionArray items => decide (items.length < 2 ^ 32)
  | .variant v => v.desc.all FieldDesc.admitted
  | .variantArray items => decide (items.length < 2 ^ 32) &&
      items.all fun item => item.all fun v => v.desc.all FieldDesc.admitted
  | .struct _ | .union _ | .null => true

/-- No length in the value is cut, and every descriptor in it is admitted. -/
def fits (v : PvField) : Bool := v.all PvField.topFits

mutual
/-- The levels of a value, as the decoder counts them. -/
def nesting : PvField → ℕ
  | .struct ⟨_, fs⟩ => nestingFields fs
  | .structArray items => nestingElements items
  | .union ⟨sel, _, v⟩ => if sel = -1 then 0 else nesting v + 1
  | .unionArray items => nestingUnions items
  | .variant ⟨some _, v⟩ => nesting v + 1
  | .variantArray items => nestingVariants items
  | _ => 0

def nestingFields : List (String × PvField) → ℕ
  | [] => 0
  | (_, v) :: fs => max (nesting v + 1) (nestingFields fs)

def nestingElements : List (Option (PvStructureOf PvField)) → ℕ
  | [] => 0
  | none :: items => nestingElements items
  | some ⟨_, fs⟩ :: items => max (nestingFields fs + 1) (nestingElements items)

def nestingUnions : List (Option (UnionItemOf PvField)) → ℕ
  | [] => 0
  | none :: items => nestingUnions items
  | some ⟨_, _, v⟩ :: items => max (nesting v + 1) (nestingUnions items)

def nestingVariants : List (Option (VariantValueOf PvField)) → ℕ
  | [] => 0
  | none :: items => nestingVariants items
  | some ⟨_, v⟩ :: items => max (nesting v + 1) (nestingVariants items)
end

section

variable {n : ℕ}

lemma nesting_struct_le {s : PvStructure} :
    nesting (.struct s) ≤ n ↔ ∀ f ∈ s.fields, nesting f.2 + 1 ≤ n := by
  obtain ⟨i, fs⟩ := s
  rw [nesting]
  induction fs with
  | nil => simp [nestingFields]
  | cons f fs ih => simp [nestingFields, ih]

lemma nesting_structArray_le {items : List (Option PvStructure)} :
    nesting (.structArray items) ≤ n ↔
      ∀ s, some s ∈ items → nesting (.struct s) + 1 ≤ n := by
  rw [nesting]
  induction items with
  | nil => simp [nestingElements]
  | cons item items ih => cases item <;> simp [nestingElements, ih, nesting]

lemma nesting_union_le {u : UnionItem} :
    nesting (.union u) ≤ n ↔ u.selector = -1 ∨ nesting u.value + 1 ≤ n := by
  rw [nesting]
  split_ifs with h <;> simp [h]

lemma nesting_unionArray_le {items : List (Option UnionItem)} :
    nesting (.unionArray items) ≤ n ↔ ∀ u, some u ∈ items → nesting u.value + 1 ≤ n := by
  rw [nesting]
  induction items with
  | nil => simp [nestingUnions]
  | cons item items ih => cases item <;> simp [nestingUnions, ih]

lemma nesting_variant_le {v : VariantValue} :
    nesting (.variant v) ≤ n ↔ ∀ d, v.desc = some d → nesting v.value + 1 ≤ n := by
  obtain ⟨d, v⟩ := v
  cases d <;> simp [nesting]

lemma nesting_variantArray_le {items : List (Option VariantValue)} :
    nesting (.variantArray items) ≤ n ↔ ∀ v, some v ∈ items → nesting v.value + 1 ≤ n := by
  rw [nesting]
  induction items with
  | nil => simp [nestingVariants]
  | cons item items ih => cases item <;> simp [nestingVariants, ih]

end

/-- **What the wire can carry**: no length is cut, the descriptors in the value are admitted, and
its levels are within the depth of the decoder. -/
def withinLimits (v : PvField) : Bool := fits v && decide (nesting v ≤ maxFieldDepth)

/-! ### The parts of a value -/

section

variable {conv : ScalarConv} {order : ByteOrder} {cache : TypeCache}
  {field : FieldDesc → Decoder TypeCache PvField}

lemma reads_absent {α : Type} (what : String) (a : α) (p : Decoder TypeCache α) :
    Reads (decodePresence what a p) [0x00] cache a cache := fun _ => rfl

variable {c : List UInt8}

lemma reads_present {α : Type} {what absent a} {p : Decoder TypeCache α} {cache' : TypeCache}
    (h : Reads p c cache a cache') :
    Reads (decodePresence what absent p) (0x01 :: c) cache a cache' := fun r => h r

variable {variants : List Member}

lemma selectVariant_eq_some {sel idx m} (h : selectVariant variants sel = some (idx, m)) :
    (UInt32.ofNat idx).toInt32 = sel ∧ variants[idx]? = some m := by
  unfold selectVariant at h
  split_ifs at h with hpos
  obtain ⟨m', hm', hpair⟩ := Option.map_eq_some_iff.1 h
  obtain ⟨rfl, rfl⟩ := Prod.mk.inj hpair
  refine ⟨?_, hm'⟩
  have hnonneg : 0 ≤ sel.toInt := by simpa using Int32.le_iff_toInt_le.1 hpos
  have hlt := sel.toInt_lt
  refine Int32.toInt_inj.1 ?_
  change (Int32.ofNat sel.toInt.toNat).toInt = sel.toInt
  rw [Int32.toInt_ofNat_of_lt (by omega)]
  omega

lemma reads_decodeSelected (what : String) {u idx m}
    (hsel : selectVariant variants u.selector = some (idx, m)) (hname : u.variantName = m.1)
    (h : Reads (field m.2) c cache u.value cache) :
    Reads (decodeSelected what variants field u.selector) c cache u cache := by
  have hmap := h.map fun v => (⟨u.selector, m.1, v⟩ : UnionItem)
  intro r
  rw [decodeSelected, hsel]
  have hu : u = ⟨u.selector, m.1, u.value⟩ := by rw [← hname]
  rw [hu]
  exact hmap r

lemma encodeTypeDesc_head (order : ByteOrder) (d : FieldDesc) :
    ∃ b t, encodeTypeDesc order d = b :: t ∧ b ≠ tagNull := by
  cases d with
  | scalar st => exact ⟨_, [], rfl, by cases st <;> decide⟩
  | scalarArray st => exact ⟨_, [], rfl, by cases st <;> decide⟩
  | struct i ms => exact ⟨_, _, rfl, by decide⟩
  | structArray i ms => exact ⟨_, _, rfl, by decide⟩
  | union i ms => exact ⟨_, _, rfl, by decide⟩
  | unionArray i ms => exact ⟨_, _, rfl, by decide⟩
  | variant => exact ⟨_, [], rfl, by decide⟩
  | variantArray => exact ⟨_, [], rfl, by decide⟩

lemma reads_decodeTypeDescCached {d} (h : d.admitted = true) :
    Reads (decodeTypeDescCached order) (encodeTypeDesc order d) cache d cache := by
  simp only [FieldDesc.admitted, Bool.and_eq_true, decide_eq_true_eq] at h
  obtain ⟨⟨hdepth, hlabels⟩, hnodes⟩ := h
  exact (reads_encodeTypeDesc order .interop cache d (maxFieldDepth + 1)
    (Nat.lt_succ_of_le hdepth) hlabels (le_trans d.height_le_wireDepth hdepth) hnodes).map Prod.fst

lemma reads_decodeTypeDescCachedOpt {d} (h : d.admitted = true) :
    Reads (decodeTypeDescCachedOpt order) (encodeTypeDesc order d) cache (some d) cache := by
  have hdesc : Reads (decodeTypeDescCached order) (encodeTypeDesc order d) cache d cache :=
    reads_decodeTypeDescCached h
  obtain ⟨b, t, henc, hb⟩ := encodeTypeDesc_head order d
  intro r
  rw [henc, cons_append, decodeTypeDescCachedOpt_cons hb, ← cons_append, ← henc]
  exact hdesc.map some r

lemma reads_decodeAny {d} (hd : d.admitted = true) {v} (h : Reads (field d) c cache v cache) :
    Reads (decodeAny order field) (encodeTypeDesc order d ++ c) cache (some ⟨some d, v⟩) cache :=
  (reads_decodeTypeDescCachedOpt hd).bind (h.map fun v => some (⟨some d, v⟩ : VariantValue))

/-- The members of a structure, in order: `pre` are the fields in front of them. -/
lemma reads_fields {fs ms}
    (h : Forall₂ (fun f m => f.1 = m.1 ∧
      Reads (field m.2) (encodePvField conv order f.2 m.2) cache f.2 cache) fs ms) (i : String) :
    ∀ pre : List (String × PvField),
      Reads (each (fun m => field m.2 >>= fun v => pure (m.1, v)) ms)
    (encodeStructureFieldsFrom conv order ⟨i, pre ++ fs⟩ pre.length ms) cache fs cache := by
  induction h with
  | nil => exact fun _ => Reads.pure [] cache
  | @cons f m fs ms hfm _ ih =>
    obtain ⟨name, v⟩ := f
    obtain ⟨hname, hv⟩ := hfm
    intro pre
    have hfound : memberAt (pre ++ (name, v) :: fs) pre.length m.1 = some v := by
      simp only at hname
      simp [memberAt, hname]
    have hrest := ih (pre ++ [(name, v)])
    rw [length_append, append_assoc] at hrest
    have hhead := hv.map fun v => (m.1, v)
    simp only at hname
    rw [encodeStructureFieldsFrom, hfound, hname]
    rw [hname] at hrest
    exact hhead.bind (hrest.map (_ :: ·))

lemma reads_struct {s} {ms : List Member}
    (h : Forall₂ (fun f m => f.1 = m.1 ∧
      Reads (field m.2) (encodePvField conv order f.2 m.2) cache f.2 cache) s.fields ms) :
    Reads (decodeLevel order field (.struct s.structId ms)) (encodeStructureFields conv order s ms)
      cache (.struct s) cache :=
  (reads_fields h s.structId []).map fun fs => struct ⟨s.structId, fs⟩

lemma reads_structArray {items : List (Option PvStructure)} {i} {ms : List Member}
    (hlen : items.length < 2 ^ 32)
    (h : ∀ s, some s ∈ items →
      Reads (field (.struct i ms)) (encodeStructureFields conv order s ms) cache (.struct s) cache) :
    Reads (decodeLevel order field (.structArray i ms))
    (encodeLen items.length order ++ items.flatMap fun item =>
        match item with
        | none => [0x00]
        | some s => 0x01 :: encodeStructureFields conv order s ms)
      cache (.structArray items) cache := by
  refine (reads_decodeSizeNonnull _ order _ cache).bind ?_
  simp only [UInt32.toNat_ofNat_of_lt' hlen]
  have hitems : ∀ item ∈ items, Reads (decodePresence "structure array" [none] (do
      let v ← field (.struct i ms)
      pure (pushStructure v)))
      (match item with
        | none => [0x00]
        | some s => 0x01 :: encodeStructureFields conv order s ms) cache [item] cache := by
    intro item hitem
    cases item with
    | none => exact reads_absent _ _ _
    | some s => exact reads_present ((h s hitem).map pushStructure)
  have hall := (Reads.timesMap hitems).map fun items => structArray items.flatten
  rwa [← flatMap_def, flatMap_singleton'] at hall

lemma reads_union {u : UnionItem} {i idx m}
    (hsel : selectVariant variants u.selector = some (idx, m)) (hname : u.variantName = m.1)
    (h : Reads (field m.2) c cache u.value cache) :
    Reads (decodeLevel order field (.union i variants)) (encodeLen idx order ++ c) cache (.union u)
      cache := by
  have hu := (reads_decodeSelected "union" hsel hname h).map union
  rw [← (selectVariant_eq_some hsel).1] at hu
  exact (reads_decodeSize (UInt32.ofNat idx) order cache).bind hu

lemma reads_nullUnion (i : String) (variants : List Member) :
    Reads (decodeLevel order field (.union i variants)) [0xFF] cache (.union nullUnion) cache :=
  fun _ => rfl

lemma reads_unionArray {items : List (Option UnionItem)} {i} (hlen : items.length < 2 ^ 32)
    (h : ∀ u, some u ∈ items → ∃ idx m, selectVariant variants u.selector = some (idx, m) ∧
      u.variantName = m.1 ∧
      Reads (field m.2) (encodePvField conv order u.value m.2) cache u.value cache) :
    Reads (decodeLevel order field (.unionArray i variants))
    (encodeLen items.length order ++ items.flatMap fun item =>
        match item.bind fun u =>
          (selectVariant variants u.selector).map fun sel => (sel, u.value) with
        | some ((idx, m), v) => 0x01 :: (encodeLen idx order ++ encodePvField conv order v m.2)
        | none => [0x00])
      cache (.unionArray items) cache := by
  refine (reads_decodeSizeNonnull _ order _ cache).bind ?_
  simp only [UInt32.toNat_ofNat_of_lt' hlen]
  refine (Reads.times fun item hitem => ?_).map unionArray
  cases item with
  | none => exact reads_absent _ _ _
  | some u =>
    obtain ⟨idx, m, hsel, hname, hu⟩ := h u hitem
    simp only [Option.bind_some, hsel, Option.map_some]
    refine reads_present ?_
    have hsome := (reads_decodeSelected "union array" hsel hname hu).map some
    rw [← (selectVariant_eq_some hsel).1] at hsome
    exact (reads_decodeSize (UInt32.ofNat idx) order cache).bind hsome

lemma reads_variantArray {items : List (Option VariantValue)} (hlen : items.length < 2 ^ 32)
    (h : ∀ v, some v ∈ items → ∃ d, v.desc = some d ∧ d.admitted = true ∧
      Reads (field d) (encodePvField conv order v.value d) cache v.value cache) :
    Reads (decodeLevel order field .variantArray)
      (encodeLen items.length order ++ items.flatMap fun item =>
        match item.bind fun v => v.desc.map fun d => (d, v.value) with
        | some (d, v) => 0x01 :: (encodeTypeDesc order d ++ encodePvField conv order v d)
        | none => [0x00])
      cache (.variantArray items) cache := by
  refine (reads_decodeSizeNonnull _ order _ cache).bind ?_
  simp only [UInt32.toNat_ofNat_of_lt' hlen]
  refine (Reads.times fun item hitem => ?_).map variantArray
  cases item with
  | none => exact reads_absent _ _ _
  | some v =>
    obtain ⟨desc, v⟩ := v
    obtain ⟨d, rfl, hd, hv⟩ := h _ hitem
    exact reads_present (reads_decodeAny hd hv)

end

/-! ### The round trip -/

section

variable {conv : ScalarConv} {order : ByteOrder} {cache : TypeCache}

/-- The value is read back under every descriptor that it matches, when its levels are there. -/
def ReadsBack (conv : ScalarConv) (order : ByteOrder) (cache : TypeCache) (v : PvField) : Prop :=
  ∀ d n, matchesDesc v d = true → fits v = true → nesting v ≤ n →
    Reads (decodePvFieldAtDepth order (n + 1) d) (encodePvField conv order v d) cache v cache

lemma encodePvField_of_typedArm {v d out} (h : typedArm conv order d v = some out)
    : encodePvField conv order v d = out := by
  rw [encodePvField_eq, h]
  rfl

/-- One level down: what is read back with `n` levels left is read back by the decoder of the next
level. -/
lemma ReadsBack.next {v} (h : ReadsBack conv order cache v) {d n} (hm : matchesDesc v d = true)
    (hf : fits v = true) (hn : nesting v + 1 ≤ n) :
    Reads (decodePvFieldAtDepth order n d) (encodePvField conv order v d) cache v cache := by
  obtain ⟨n, rfl⟩ := Nat.exists_eq_add_one_of_ne_zero (by omega : n ≠ 0)
  exact h d n hm hf (by omega)

lemma readsBack_struct {s : PvStructure} (ih : ∀ f ∈ s.fields, ReadsBack conv order cache f.2) :
    ReadsBack conv order cache (.struct s) := by
  intro d n hm hf hn
  cases d with
  | struct i ms =>
    obtain ⟨rfl, hfields⟩ := matchesDesc_struct.1 hm
    have hfit := (all_struct.1 hf).2
    rw [nesting_struct_le] at hn
    rw [encodePvField_of_typedArm rfl]
    have hfields' := (forall₂_and_left _ _).2
      ⟨fun f hf => (⟨ih f hf, hfit f hf, hn f hf⟩ : _ ∧ _ ∧ _), hfields⟩
    refine reads_struct (hfields'.imp fun f m h => ?_)
    obtain ⟨⟨hback, hfit, hn⟩, hname, hval⟩ := h
    exact ⟨hname, hback.next hval hfit hn⟩
  | _ => simp [matchesDesc] at hm

lemma readsBack_scalar (v : ScalarValue) : ReadsBack conv order cache (.scalar v) := by
  intro d n hm hf _
  cases d with
  | scalar st =>
    obtain rfl : v.st = st := by simpa [matchesDesc] using hm
    have hfit : v.st.elemFits v.val = true := hf
    have henc : encodePvField conv order (.scalar v) (.scalar v.st) =
        encodeScalarValue v order := encodePvField_of_typedArm (by simp [typedArm])
    rw [henc]
    exact ((reads_decodeScalar hfit cache).map fun x => (⟨v.st, x⟩ : ScalarValue)).map
      scalar
  | _ => simp [matchesDesc] at hm

lemma readsBack_scalarArray (items : List ScalarValue) :
    ReadsBack conv order cache (.scalarArray items) := by
  -- no descriptor is matched: the decoder builds the typed arrays only
  intro d n hm
  cases d <;> simp [matchesDesc] at hm

lemma readsBack_scalarArrayTyped (arr : TypedScalarArray) :
    ReadsBack conv order cache (.scalarArrayTyped arr) := by
  intro d n hm hf _
  cases d with
  | scalarArray st =>
    obtain rfl : arr.st = st := by simpa [matchesDesc] using hm
    obtain ⟨hlen, hitems⟩ : arr.items.length < 2 ^ 32 ∧
        ∀ x ∈ arr.items, arr.st.elemFits x = true := by
      simpa [fits, PvField.all, PvField.topFits] using hf
    have henc : encodePvField conv order (.scalarArrayTyped arr) (.scalarArray arr.st) =
        encodeLen arr.items.length order ++ encodeTypedScalarArray arr order :=
      encodePvField_of_typedArm (by simp [typedArm])
    rw [henc]
    refine (reads_decodeSizeNonnull _ order _ cache).bind ?_
    simp only [UInt32.toNat_ofNat_of_lt' hlen]
    exact (reads_decodeTypedScalarArray hitems cache).map scalarArrayTyped
  | _ => simp [matchesDesc] at hm

lemma readsBack_structArray {items : List (Option PvStructure)}
    (ih : ∀ s, some s ∈ items → ∀ f ∈ s.fields, ReadsBack conv order cache f.2) :
    ReadsBack conv order cache (.structArray items) := by
  intro d n hm hf hn
  cases d with
  | structArray i ms =>
    obtain ⟨htop, hfit⟩ := all_structArray.1 hf
    have hlen : items.length < 2 ^ 32 := by simpa [topFits] using htop
    rw [nesting_structArray_le] at hn
    have hmatch := matchesElements_iff.1 hm
    rw [encodePvField_of_typedArm rfl]
    refine reads_structArray hlen fun s hs => ?_
    -- an element is read as a structure is, one level further down
    have hback := (readsBack_struct (ih s hs)).next (hmatch s hs)
      (all_struct.2 ⟨rfl, hfit s hs⟩) (hn s hs)
    rwa [encodePvField_of_typedArm rfl] at hback
  | _ => simp [matchesDesc] at hm

lemma readsBack_union {u : UnionItem} (ih : ReadsBack conv order cache u.value) :
    ReadsBack conv order cache (.union u) := by
  intro d n hm hf hn
  cases d with
  | union i variants =>
    rcases matchesDesc_union.1 hm with ⟨idx, m, hsel, hname, hval⟩ | rfl
    · rw [nesting_union_le] at hn
      -- the null selector chooses no variant
      have hne : u.selector ≠ -1 := by
        intro hneg
        rw [hneg, selectVariant_neg_one] at hsel
        cases hsel
      rw [encodePvField_of_typedArm rfl]
      simp only [hsel]
      exact reads_union hsel hname
        (ih.next hval (all_union.1 hf).2 (hn.resolve_left hne))
    · rw [encodePvField_of_typedArm rfl]
      exact reads_nullUnion i variants
  | _ => simp [matchesDesc] at hm

lemma readsBack_unionArray {items : List (Option UnionItem)}
    (ih : ∀ u, some u ∈ items → ReadsBack conv order cache u.value) :
    ReadsBack conv order cache (.unionArray items) := by
  intro d n hm hf hn
  cases d with
  | unionArray i variants =>
    obtain ⟨htop, hfit⟩ := all_unionArray.1 hf
    have hlen : items.length < 2 ^ 32 := by simpa [topFits] using htop
    rw [nesting_unionArray_le] at hn
    rw [encodePvField_of_typedArm rfl]
    refine reads_unionArray hlen fun u hu => ?_
    obtain ⟨idx, m, hsel, hname, hval⟩ := matchesUnions_iff.1 hm u hu
    exact ⟨idx, m, hsel, hname, (ih u hu).next hval (hfit u hu) (hn u hu)⟩
  | _ => simp [matchesDesc] at hm

lemma readsBack_variant {v : VariantValue} (ih : ReadsBack conv order cache v.value) :
    ReadsBack conv order cache (.variant v) := by
  intro d n hm hf hn
  cases d with
  | variant =>
    obtain ⟨desc, v⟩ := v
    cases desc with
    | none =>
      obtain rfl : v = .null := isNull_iff.1 hm
      exact fun _ => rfl
    | some d =>
      obtain ⟨htop, hfit⟩ := all_variant.1 hf
      have hback := ih.next hm hfit (nesting_variant_le.1 hn d rfl)
      exact (reads_decodeAny (by simpa [topFits] using htop) hback).map
        fun any => variant (any.getD ⟨none, .null⟩)
  | _ => simp [matchesDesc] at hm

lemma readsBack_variantArray {items : List (Option VariantValue)}
    (ih : ∀ v, some v ∈ items → ReadsBack conv order cache v.value) :
    ReadsBack conv order cache (.variantArray items) := by
  intro d n hm hf hn
  cases d with
  | variantArray =>
    obtain ⟨htop, hfit⟩ := all_variantArray.1 hf
    simp only [topFits, Bool.and_eq_true, decide_eq_true_eq, all_eq_true] at htop
    rw [nesting_variantArray_le] at hn
    rw [encodePvField_of_typedArm rfl]
    refine reads_variantArray htop.1 fun v hv => ?_
    obtain ⟨d, hd, hval⟩ := matchesVariants_iff.1 hm v hv
    have hadm := htop.2 _ hv
    simp only [Option.all_some, hd] at hadm
    exact ⟨d, hd, hadm, (ih v hv).next hval (hfit v hv) (hn v hv)⟩
  | _ => simp [matchesDesc] at hm

lemma readsBack_null : ReadsBack conv order cache .null := by
  intro d n hm
  cases d <;> simp [matchesDesc] at hm

/-- **A value is read back** when its levels are there. -/
theorem reads_decodePvFieldAtDepth (conv : ScalarConv) (order : ByteOrder) (cache : TypeCache)
    (v : PvField) : ReadsBack conv order cache v := by
  induction v using induction with
  | scalar v => exact readsBack_scalar v
  | scalarArray items => exact readsBack_scalarArray items
  | scalarArrayTyped arr => exact readsBack_scalarArrayTyped arr
  | struct s ih => exact readsBack_struct ih
  | structArray items ih => exact readsBack_structArray ih
  | union u ih => exact readsBack_union ih
  | unionArray items ih => exact readsBack_unionArray ih
  | variant v ih => exact readsBack_variant ih
  | variantArray items ih => exact readsBack_variantArray ih
  | null => exact readsBack_null

end

/-- **The round trip**: a value that matches its descriptor and is within the limits is read back
from its encoding, in both byte orders and whatever stands behind it. -/
theorem decodePvField_encodePvField (conv : ScalarConv) (order : ByteOrder) (d : FieldDesc)
    (v : PvField) (hm : matchesDesc v d = true) (hl : withinLimits v = true)
    (suffix : List UInt8) :
    decodePvField order d (encodePvField conv order v d ++ suffix) () = (.ok (v, suffix), ()) := by
  simp only [withinLimits, Bool.and_eq_true, decide_eq_true_eq] at hl
  exact zoom_eq_ok (reads_decodePvFieldAtDepth conv order TypeCache.empty v d maxFieldDepth hm hl.1
    hl.2 suffix)

/-- A structure with a union, a self-describing value and an array of structures. -/
def sampleDesc : FieldDesc :=
  .struct "sample_t" [("value", .union "" [("i", .scalar .int), ("s", .scalar .string)]),
    ("any", .variant), ("rows", .structArray "row_t" [("x", .scalarArray .ushort)])]

/-- A value of `sampleDesc`: the string of the union, two shorts behind a descriptor, and two rows
of which the first is absent. -/
def sampleValue : PvField :=
  .struct ⟨"sample_t", [("value", .union ⟨1, "s", .scalar ⟨.string, [104, 105]⟩⟩),
    ("any", .variant ⟨some (.scalarArray .short),
      .scalarArrayTyped ⟨.short, ([-2, 7] : List Int16)⟩⟩),
    ("rows", .structArray [none,
      some ⟨"row_t", [("x", .scalarArrayTyped ⟨.ushort, ([513] : List UInt16)⟩)]⟩])]⟩

theorem decodePvField_encodePvField_sample :
    matchesDesc sampleValue sampleDesc = true ∧ withinLimits sampleValue = true ∧
      decodePvField .big sampleDesc
        (encodePvField ScalarConv.never .big sampleValue sampleDesc ++ [0x2A]) () =
          (.ok (sampleValue, [0x2A]), ()) :=
  ⟨by decide, by decide, decodePvField_encodePvField ScalarConv.never .big sampleDesc sampleValue
    (by decide) (by decide) [0x2A]⟩

end Pva
