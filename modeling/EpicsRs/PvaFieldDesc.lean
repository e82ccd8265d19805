/-
**Type descriptors, and how large a descriptor is.**

`FieldDesc` (`pvdata/field.rs`) is the type language of pvData: twelve scalar types and their
arrays, structures and unions and their arrays, and the two self-describing types.  Four of the
eight constructors carry members and differ in the tags they are announced with and in little else,
so they share one view, `Compound`, and one induction principle with two cases.

A descriptor is measured in several ways, and the limits of the decoders are limits on different
ones of them: the height and the number of nodes of the resolved tree, and the nesting of the bytes
that announce it, where an array of structures costs two levels and not one.

Main results:

* `Pva.FieldDesc.compound_members_induction` — the induction principle;
* `Pva.TreeMetrics.measure_eq` — the loop counts the height and the nodes;
* `Pva.FieldDesc.height_le_wireDepth`, `Pva.FieldDesc.totalBits_le_nodes` — how the sizes compare.
-/

import EpicsRs.Utf8Lossy

set_option autoImplicit false

namespace Pva

open List

/-! ### Scalar types -/

inductive ScalarType where
  | boolean | byte | short | int | long
  | ubyte | ushort | uint | ulong
  | float | double | string
deriving DecidableEq, Repr

namespace ScalarType

def typeCode : ScalarType → UInt8
  | boolean => 0x00
  | byte => 0x20
  | short => 0x21
  | int => 0x22
  | long => 0x23
  | ubyte => 0x24
  | ushort => 0x25
  | uint => 0x26
  | ulong => 0x27
  | float => 0x42
  | double => 0x43
  | string => 0x60

def fromTypeCode (code : UInt8) : Option ScalarType :=
  match code with
  | 0x00 => some boolean
  | 0x20 => some byte
  | 0x21 => some short
  | 0x22 => some int
  | 0x23 => some long
  | 0x24 => some ubyte
  | 0x25 => some ushort
  | 0x26 => some uint
  | 0x27 => some ulong
  | 0x42 => some float
  | 0x43 => some double
  | 0x60 => some string
  | _ => none

def arrayTypeCode (st : ScalarType) : UInt8 := st.typeCode ||| 0x08

def fromArrayTypeCode (code : UInt8) : Option ScalarType :=
  if code &&& 0x08 ≠ 0 then fromTypeCode (code &&& ~~~0x08) else none

end ScalarType

/-! ### Descriptors -/

/-- `FieldDesc`.  The members of a structure are the list that `StructFields` wraps; the number of
positions that it caches beside the list is `FieldDesc.totalBits`. -/
inductive FieldDesc where
  | scalar (st : ScalarType)
  | scalarArray (st : ScalarType)
  | struct (structId : String) (fields : List (String × FieldDesc))
  | structArray (structId : String) (fields : List (String × FieldDesc))
  | union (structId : String) (variants : List (String × FieldDesc))
  | unionArray (structId : String) (variants : List (String × FieldDesc))
  | variant
  | variantArray
deriving Repr, Inhabited

abbrev Member : Type := String × FieldDesc

inductive Compound where
  | struct | structArray | union | unionArray
deriving DecidableEq, Repr

def Compound.desc : Compound → String → List Member → FieldDesc
  | struct => FieldDesc.struct
  | structArray => FieldDesc.structArray
  | union => FieldDesc.union
  | unionArray => FieldDesc.unionArray

def Compound.isArray : Compound → Bool
  | struct | union => false
  | structArray | unionArray => true

/-- The element of an array, and every other compound itself: the arms of the decoder that read a
body only know structures and unions. -/
def Compound.element : Compound → Compound
  | struct | structArray => struct
  | union | unionArray => union

namespace FieldDesc

/-- `EncodeTypeCache::cacheable`: the compounds. -/
def cacheable : FieldDesc → Bool
  | struct .. | structArray .. | union .. | unionArray .. => true
  | _ => false

@[simp] lemma cacheable_desc (k : Compound) (structId : String) (ms : List Member) :
    (k.desc structId ms).cacheable = true := by
  cases k <;> rfl

/-- **Induction over a descriptor and the members of its compounds**, with the four compounds as one
case. -/
theorem compound_members_induction {P : FieldDesc → Prop} {Q : List Member → Prop}
    (leaf : ∀ d, d.cacheable = false → P d) (nil : Q [])
    (cons : ∀ name d ms, P d → Q ms → Q ((name, d) :: ms))
    (compound : ∀ (k : Compound) (structId : String) (ms : List Member),
      Q ms → P (k.desc structId ms)) (d : FieldDesc) : P d :=
  @FieldDesc.rec P Q (fun m => P m.2)
    (fun st => leaf (scalar st) rfl) (fun st => leaf (scalarArray st) rfl)
    (compound .struct) (compound .structArray) (compound .union) (compound .unionArray)
    (leaf variant rfl) (leaf variantArray rfl) nil (fun m => cons m.1 m.2) (fun _ _ h => h) d

/-- **Induction over a descriptor**, with the four compounds as one case. -/
theorem compound_induction {P : FieldDesc → Prop} (leaf : ∀ d, d.cacheable = false → P d)
    (compound : ∀ (k : Compound) (structId : String) (ms : List Member),
      (∀ m ∈ ms, P m.2) → P (k.desc structId ms)) (d : FieldDesc) : P d :=
  compound_members_induction (Q := fun ms => ∀ m ∈ ms, P m.2) leaf (by simp)
    (fun _ _ _ hd hms => forall_mem_cons.2 ⟨hd, hms⟩) compound d

/-! ### Equality -/

mutual
/-- The derived `PartialEq`. -/
def beq : FieldDesc → FieldDesc → Bool
  | scalar a, scalar b => a == b
  | scalarArray a, scalarArray b => a == b
  | struct i a, struct j b => i == j && beqMembers a b
  | structArray i a, structArray j b => i == j && beqMembers a b
  | union i a, union j b => i == j && beqMembers a b
  | unionArray i a, unionArray j b => i == j && beqMembers a b
  | variant, variant => true
  | variantArray, variantArray => true
  | _, _ => false

def beqMembers : List Member → List Member → Bool
  | [], [] => true
  | (n, a) :: as, (m, b) :: bs => n == m && beq a b && beqMembers as bs
  | _, _ => false
end

lemma beq_iff (a : FieldDesc) : ∀ b, beq a b = true ↔ a = b := by
  induction a using compound_members_induction
    (Q := fun as => ∀ bs, beqMembers as bs = true ↔ as = bs) with
  | leaf a ha =>
    intro b
    cases a <;> cases b <;> simp_all [beq, cacheable]
  | nil bs => cases bs <;> simp [beqMembers]
  | cons n a as ha has bs =>
    cases bs with
    | nil => simp [beqMembers]
    | cons b bs =>
      obtain ⟨m, b⟩ := b
      simp only [beqMembers, Bool.and_eq_true, beq_iff_eq, ha, has, cons.injEq,
        Prod.mk.injEq]
  | compound k i as ih =>
    intro b
    cases k <;> cases b <;> simp [Compound.desc, beq, ih]

instance : DecidableEq FieldDesc := fun a b => decidable_of_iff _ (beq_iff a b)

/-! ### Sizes -/

mutual
/-- The nesting of a resolved descriptor in edges; a leaf is `0`. -/
def height : FieldDesc → ℕ
  | struct _ ms | structArray _ ms | union _ ms | unionArray _ ms => heightMembers ms
  | _ => 0

def heightMembers : List Member → ℕ
  | [] => 0
  | (_, d) :: ms => max (height d + 1) (heightMembers ms)
end

mutual
def nodes : FieldDesc → ℕ
  | struct _ ms | structArray _ ms | union _ ms | unionArray _ ms => nodesMembers ms + 1
  | _ => 1

def nodesMembers : List Member → ℕ
  | [] => 0
  | (_, d) :: ms => nodes d + nodesMembers ms
end

mutual
/-- `FieldDesc::total_bits`: a structure takes a position of its own and those of its members,
everything else takes one. -/
def totalBits : FieldDesc → ℕ
  | struct _ ms => 1 + totalBitsMembers ms
  | _ => 1

def totalBitsMembers : List Member → ℕ
  | [] => 0
  | (_, d) :: ms => totalBits d + totalBitsMembers ms
end

mutual
/-- The levels of recursion that the inline encoding of a descriptor costs below its own: one for
a structure or a union, and two for an array of them, whose element is announced by a tag of its
own. -/
def wireDepth : FieldDesc → ℕ
  | struct _ ms | union _ ms => wireDepthMembers ms
  | structArray _ ms | unionArray _ ms => wireDepthMembers ms + 1
  | _ => 0

def wireDepthMembers : List Member → ℕ
  | [] => 0
  | (_, d) :: ms => max (wireDepth d + 1) (wireDepthMembers ms)
end

/-- A label whose length survives the cut to 32 bits. -/
def labelFits (name : String) : Bool := (asBytes name).length < 2 ^ 32

mutual
/-- No label and no member count of the descriptor is cut to 32 bits when it is encoded. -/
def labelsFit : FieldDesc → Bool
  | struct i ms | structArray i ms | union i ms | unionArray i ms =>
      labelFits i && decide (ms.length < 2 ^ 32) && labelsFitMembers ms
  | _ => true

def labelsFitMembers : List Member → Bool
  | [] => true
  | (name, d) :: ms => labelFits name && labelsFit d && labelsFitMembers ms
end

variable (k : Compound) (structId : String) (ms : List Member)

@[simp] lemma height_desc : (k.desc structId ms).height = heightMembers ms := by
  cases k <;> rfl

@[simp] lemma nodes_desc : (k.desc structId ms).nodes = nodesMembers ms + 1 := by
  cases k <;> rfl

lemma wireDepth_desc :
    (k.desc structId ms).wireDepth = wireDepthMembers ms + if k.isArray then 1 else 0 := by
  cases k <;> rfl

lemma labelsFit_desc :
    (k.desc structId ms).labelsFit = true ↔
      labelFits structId = true ∧ ms.length < 2 ^ 32 ∧ labelsFitMembers ms = true := by
  cases k <;> simp [Compound.desc, labelsFit, and_assoc]

variable {structId ms} {d : FieldDesc}

lemma height_leaf (h : d.cacheable = false) : d.height = 0 := by
  cases d <;> first | rfl | simp [cacheable] at h

lemma nodes_leaf (h : d.cacheable = false) : d.nodes = 1 := by
  cases d <;> first | rfl | simp [cacheable] at h

lemma wireDepth_leaf (h : d.cacheable = false) : d.wireDepth = 0 := by
  cases d <;> first | rfl | simp [cacheable] at h

lemma totalBits_leaf (h : d.cacheable = false) : d.totalBits = 1 := by
  cases d <;> first | rfl | simp [cacheable] at h

lemma labelsFit_leaf (h : d.cacheable = false) : d.labelsFit = true := by
  cases d <;> first | rfl | simp [cacheable] at h

lemma nodes_pos (d : FieldDesc) : 0 < d.nodes := by
  cases d <;> simp [nodes]

lemma labelsFitMembers_iff :
    labelsFitMembers ms = true ↔ ∀ m ∈ ms, labelFits m.1 = true ∧ m.2.labelsFit = true := by
  induction ms with
  | nil => simp [labelsFitMembers]
  | cons m ms ih => simp [labelsFitMembers, ih]

lemma heightMembers_le_iff {n} : heightMembers ms ≤ n ↔ ∀ m ∈ ms, m.2.height + 1 ≤ n := by
  induction ms with
  | nil => simp [heightMembers]
  | cons m ms ih =>
    rw [heightMembers, max_le_iff, ih, forall_mem_cons]

lemma wireDepthMembers_le_iff {n} :
    wireDepthMembers ms ≤ n ↔ ∀ m ∈ ms, m.2.wireDepth + 1 ≤ n := by
  induction ms with
  | nil => simp [wireDepthMembers]
  | cons m ms ih =>
    rw [wireDepthMembers, max_le_iff, ih, forall_mem_cons]

lemma nodes_le_nodesMembers {m} (h : m ∈ ms) : m.2.nodes ≤ nodesMembers ms := by
  induction ms with
  | nil => simp at h
  | cons m' ms ih =>
    rcases mem_cons.1 h with rfl | h
    · exact Nat.le_add_right _ _
    · exact le_trans (ih h) (Nat.le_add_left _ _)

lemma height_le_wireDepth (d : FieldDesc) : d.height ≤ d.wireDepth := by
  induction d using compound_induction with
  | leaf d hd => rw [height_leaf hd]; exact Nat.zero_le _
  | compound k i ms ih =>
    rw [height_desc, wireDepth_desc]
    refine le_trans (heightMembers_le_iff.2 fun m hm => ?_) (Nat.le_add_right _ _)
    exact le_trans (Nat.succ_le_succ (ih m hm)) (wireDepthMembers_le_iff.1 le_rfl m hm)

lemma totalBits_le_nodes (d : FieldDesc) : d.totalBits ≤ d.nodes := by
  induction d using compound_members_induction
    (Q := fun ms => totalBitsMembers ms ≤ nodesMembers ms) with
  | leaf d hd => rw [totalBits_leaf hd, nodes_leaf hd]
  | nil => exact le_rfl
  | cons name d ms hd hms => exact Nat.add_le_add hd hms
  | compound k i ms ih =>
    cases k <;> simp only [Compound.desc, totalBits, nodes] <;> omega

end FieldDesc

/-! ### Measuring a descriptor -/

def saturatingAdd (a b : ℕ) : ℕ := min (a + b) (2 ^ 32 - 1)

structure TreeMetrics where
  height : ℕ
  nodes : ℕ
deriving DecidableEq, Repr

namespace TreeMetrics

def leaf : TreeMetrics := ⟨0, 1⟩

def of (d : FieldDesc) : TreeMetrics := ⟨d.height, d.nodes⟩

/-- The members that the loop pushes for a node of edge depth `lvl`. -/
def children (d : FieldDesc) (lvl : ℕ) : List (FieldDesc × ℕ) :=
  match d with
  | .struct _ ms | .structArray _ ms | .union _ ms | .unionArray _ ms =>
      ms.map fun m => (m.2, lvl + 1)
  | _ => []

/-- The nodes of the descriptors on the stack: what the loop has left to do. -/
def pending (stack : List (FieldDesc × ℕ)) : ℕ := (stack.map fun p => p.1.nodes).sum

/-- The deepest level that a descriptor on the stack reaches. -/
def reach (stack : List (FieldDesc × ℕ)) : ℕ :=
  stack.foldr (fun p h => max (p.2 + p.1.height) h) 0

@[simp] lemma pending_cons (p : FieldDesc × ℕ) (stack : List (FieldDesc × ℕ)) :
    pending (p :: stack) = p.1.nodes + pending stack := by
  simp [pending]

@[simp] lemma reach_cons (p : FieldDesc × ℕ) (stack : List (FieldDesc × ℕ)) :
    reach (p :: stack) = max (p.2 + p.1.height) (reach stack) := rfl

lemma pending_append (xs stack : List (FieldDesc × ℕ)) :
    pending (xs ++ stack) = pending xs + pending stack := by
  simp [pending]

lemma reach_append (xs stack : List (FieldDesc × ℕ)) :
    reach (xs ++ stack) = max (reach xs) (reach stack) := by
  induction xs with
  | nil => simp [reach]
  | cons x xs ih => rw [cons_append, reach_cons, reach_cons, ih, max_assoc]

lemma pending_reverse (xs : List (FieldDesc × ℕ)) : pending xs.reverse = pending xs := by
  simp [pending, sum_reverse]

lemma reach_reverse (xs : List (FieldDesc × ℕ)) : reach xs.reverse = reach xs := by
  induction xs with
  | nil => rfl
  | cons x xs ih =>
    rw [reverse_cons, reach_append, ih, reach_cons, reach_cons, max_comm]
    simp [reach]

lemma pending_children (d : FieldDesc) (lvl : ℕ) : pending (children d lvl) + 1 = d.nodes := by
  have h : ∀ ms : List Member,
      pending (ms.map fun m => (m.2, lvl + 1)) = FieldDesc.nodesMembers ms := by
    intro ms
    induction ms with
    | nil => rfl
    | cons m ms ih => simp [FieldDesc.nodesMembers, ih]
  cases d <;> simp only [children, FieldDesc.nodes, h] <;> rfl

lemma reach_children (d : FieldDesc) (lvl : ℕ) :
    max lvl (reach (children d lvl)) = lvl + d.height := by
  have h : ∀ ms : List Member,
      max lvl (reach (ms.map fun m => (m.2, lvl + 1))) = lvl + FieldDesc.heightMembers ms := by
    intro ms
    induction ms with
    | nil => simp [reach, FieldDesc.heightMembers]
    | cons m ms ih =>
      simp only [map_cons, reach_cons, FieldDesc.heightMembers]
      omega
  cases d <;> simp only [children, FieldDesc.height, h] <;> simp [reach]

/-- The loop of `TreeMetrics::measure`: pop a node, count it, push its members. -/
def measureLoop : List (FieldDesc × ℕ) → TreeMetrics → TreeMetrics
  | [], m => m
  | (d, lvl) :: stack, m =>
      measureLoop ((children d lvl).reverse ++ stack)
        ⟨max m.height lvl, saturatingAdd m.nodes 1⟩
termination_by stack => pending stack
decreasing_by
  have h := pending_children d lvl
  rw [pending_append, pending_reverse, pending_cons]
  dsimp only
  omega

def measure (d : FieldDesc) : TreeMetrics := measureLoop [(d, 0)] ⟨0, 0⟩

lemma measureLoop_eq (stack : List (FieldDesc × ℕ)) (m : TreeMetrics)
    (hm : m.nodes ≤ 2 ^ 32 - 1) :
    measureLoop stack m =
      ⟨max m.height (reach stack), min (m.nodes + pending stack) (2 ^ 32 - 1)⟩ := by
  induction stack, m using measureLoop.induct with
  | case1 m =>
    have hheight : max m.height (reach []) = m.height := max_eq_left (Nat.zero_le _)
    have hnodes : min (m.nodes + pending []) (2 ^ 32 - 1) = m.nodes := min_eq_left hm
    rw [measureLoop, hheight, hnodes]
  | case2 d lvl stack m ih =>
    have hn := pending_children d lvl
    have hr := reach_children d lvl
    rw [measureLoop, ih (min_le_right _ _), pending_append, pending_reverse, reach_append,
      reach_reverse]
    simp only [saturatingAdd, pending_cons, reach_cons, TreeMetrics.mk.injEq]
    omega

/-- **The loop counts the height and the nodes of a descriptor**, as far as a `u32` does. -/
theorem measure_eq (d : FieldDesc) : measure d = ⟨d.height, min d.nodes (2 ^ 32 - 1)⟩ := by
  rw [measure, measureLoop_eq _ _ (Nat.zero_le _)]
  simp [reach, pending]

end TreeMetrics

end Pva
