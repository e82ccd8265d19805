/-
**Field paths and the bits they stand for.**

`find_bit_for_path` (`pvdata/field.rs`) resolves a dotted path to the span of bits of its field,
`marked_changed_bitset` (`pvdata/encode.rs`) marks the spans of a list of paths, and
`changed_bitset_paths` walks the descriptor and reports the path of every field whose own bit is
set.  Where sibling names are distinct segments a path that the walk builds is resolved to the field
it was built at (`Pva.Leads`), so a set in which the bit of a structure comes with those below it is
what its paths mark.

Main results: `Pva.get_canonicalChangedBitset`, `Pva.get_markedWireChangedBitset`,
`Pva.markedChangedBitset_changedBitsetPaths`.
-/

import EpicsRs.DottedPath
import EpicsRs.PvaOverlay

set_option autoImplicit false

namespace Pva

open DottedPath List FieldDesc BitSet

/-! ### Paths to bits -/

namespace FieldDesc

mutual
def findBitForPath : FieldDesc → ℕ → List String → Option (ℕ × ℕ)
  | d, base, [] => some (base, base + d.totalBits)
  | .struct _ ms, base, head :: tail => findMember ms (base + 1) head tail
  | _, _, _ :: _ => none

/-- The loop of `find_bit_for_path` over the members. -/
def findMember : List Member → ℕ → String → List String → Option (ℕ × ℕ)
  | [], _, _, _ => none
  | (name, child) :: ms, offset, head, tail =>
      if name = head then findBitForPath child offset tail
      else findMember ms (offset + child.totalBits) head tail
end

def bitSpanForPath (d : FieldDesc) (path : String) : Option (ℕ × ℕ) :=
  if path.isEmpty then some (0, d.totalBits) else d.findBitForPath 0 (split path)

mutual
/-- The names of the fields of structures are segments. -/
def validNames : FieldDesc → Bool
  | .struct _ ms => validNamesMembers ms
  | _ => true

def validNamesMembers : List Member → Bool
  | [] => true
  | (name, d) :: ms => decide (IsSegment name) && validNames d && validNamesMembers ms
end

end FieldDesc

/-- `for bit in start..stop { out.set(bit) }`. -/
def setSpan (out : BitSet) (start stop : ℕ) : BitSet :=
  (List.range' start (stop - start)).foldl BitSet.set out

/-- One round of the loop of `marked_changed_bitset`. -/
def markPath (d : FieldDesc) (out : BitSet) (path : String) : BitSet :=
  if path.isEmpty then out
  else match d.bitSpanForPath path with
    | some (start, stop) => setSpan out start stop
    | none => out

def markedChangedBitset (d : FieldDesc) (markedPaths : List String) : BitSet :=
  markedPaths.foldl (markPath d) BitSet.new

mutual
/-- The `walk` of `canonical_changed_bitset`; what it leaves in `out` is returned. -/
def canonicalWalk (selection : BitSet) : FieldDesc → ℕ → BitSet → BitSet
  | .struct _ ms, bit, out => canonicalWalkMembers selection ms (bit + 1) out
  | _, bit, out => if selection.get bit then out.set bit else out

def canonicalWalkMembers (selection : BitSet) : List Member → ℕ → BitSet → BitSet
  | [], _, out => out
  | (_, child) :: ms, bit, out =>
      canonicalWalkMembers selection ms (bit + child.totalBits) (canonicalWalk selection child bit out)
end

def canonicalChangedBitset (d : FieldDesc) (selection : BitSet) : BitSet :=
  canonicalWalk selection d 0 BitSet.new

def markedWireChangedBitset (d : FieldDesc) (markedPaths : List String) (mask : BitSet) : BitSet :=
  canonicalChangedBitset d
    (((markedChangedBitset d markedPaths).iter.filter mask.get).foldl BitSet.set BitSet.new)

/-! ### Bits to paths -/

mutual
/-- The `walk` of `changed_bitset_paths`; what it pushes is returned. -/
def pathsWalk (changed : BitSet) : FieldDesc → ℕ → String → List String
  | .struct _ ms, bit, path =>
      if !path.isEmpty && changed.get bit then [path] else pathsWalkMembers changed ms (bit + 1) path
  | _, bit, path => if !path.isEmpty && changed.get bit then [path] else []

def pathsWalkMembers (changed : BitSet) : List Member → ℕ → String → List String
  | [], _, _ => []
  | (name, child) :: ms, bit, path =>
      pathsWalk changed child bit (extend path name) ++
        pathsWalkMembers changed ms (bit + child.totalBits) path
end

def changedBitsetPaths (d : FieldDesc) (changed : BitSet) : List String := pathsWalk changed d 0 ""

mutual
/-- Whenever the bit of a structure is set, so are those of everything below it. -/
def nodeAligned (b : BitSet) : FieldDesc → ℕ → Bool
  | .struct _ ms, bit =>
      (!b.get bit || (List.range' bit (1 + FieldDesc.totalBitsMembers ms)).all b.get) &&
        nodeAlignedMembers b ms (bit + 1)
  | _, _ => true

def nodeAlignedMembers (b : BitSet) : List Member → ℕ → Bool
  | [], _ => true
  | (_, d) :: ms, bit => nodeAligned b d bit && nodeAlignedMembers b ms (bit + d.totalBits)
end

/-! ### What a list of paths marks -/

lemma get_setSpan (out : BitSet) (start stop i : ℕ) :
    (setSpan out start stop).get i = true ↔ (start ≤ i ∧ i < stop) ∨ out.get i = true := by
  rw [setSpan, get_foldl_set, Bool.or_eq_true, decide_eq_true_iff, mem_range'_1]
  refine or_congr_left ⟨fun h => ⟨h.1, by omega⟩, fun h => ⟨h.1, by omega⟩⟩

/-- Bit `i` is in the span of the field that the path names. -/
def FieldDesc.Covers (d : FieldDesc) (path : String) (i : ℕ) : Prop :=
  ∃ start stop, d.bitSpanForPath path = some (start, stop) ∧ start ≤ i ∧ i < stop

lemma get_markPath (d : FieldDesc) (out : BitSet) (path : String) (i : ℕ) :
    (markPath d out path).get i = true ↔ (path ≠ "" ∧ d.Covers path i) ∨ out.get i = true := by
  rw [markPath]
  by_cases hpath : path = ""
  · rw [if_pos (String.isEmpty_iff.2 hpath)]
    simp [hpath]
  · rw [if_neg (fun h => hpath (String.isEmpty_iff.1 h))]
    cases hspan : d.bitSpanForPath path with
    | none => simp [Covers, hspan]
    | some span =>
      obtain ⟨start, stop⟩ := span
      simp [get_setSpan, Covers, hspan, hpath]

theorem get_markedChangedBitset (d : FieldDesc) (paths : List String) (i : ℕ) :
    (markedChangedBitset d paths).get i = true ↔ ∃ path ∈ paths, path ≠ "" ∧ d.Covers path i := by
  have hfold : ∀ out : BitSet, (paths.foldl (markPath d) out).get i = true ↔
      (∃ path ∈ paths, path ≠ "" ∧ d.Covers path i) ∨ out.get i = true := by
    induction paths with
    | nil => simp
    | cons path paths ih =>
      intro out
      rw [foldl_cons, ih, get_markPath, exists_mem_cons_iff, ← or_assoc]
      exact or_congr_left or_comm
  rw [markedChangedBitset, hfold, get_new]
  simp

/-! ### What a frame carries -/

/-- Bit `i` is that of a field that is not a structure. -/
def FieldDesc.leafBit (d : FieldDesc) (i : ℕ) : Bool := leafMark (fun _ => true) d 0 true i

lemma get_canonicalWalk (selection : BitSet) (d : FieldDesc) :
    ∀ bit out i, (canonicalWalk selection d bit out).get i =
      (out.get i || (leafMark (fun _ => true) d bit true i && selection.get i)) := by
  induction d using struct_induction with
  | leaf d hd =>
    intro bit out i
    have hwalk : canonicalWalk selection d bit out =
        if selection.get bit then out.set bit else out := by
      cases d <;> first | rfl | simp [isStruct] at hd
    rw [hwalk, leafMark_leaf hd]
    by_cases hi : i = bit
    · subst hi
      cases selection.get i <;> simp [get_set]
    · cases selection.get bit <;> simp [get_set, hi]
  | struct j ms ih =>
    intro bit out i
    rw [canonicalWalk, leafMark, Bool.true_or]
    generalize bit + 1 = bit
    induction ms generalizing bit out with
    | nil => simp [canonicalWalkMembers, leafMarkMembers]
    | cons m ms ihms =>
      obtain ⟨hm, hms⟩ := forall_mem_cons.1 ih
      rw [canonicalWalkMembers, leafMarkMembers, ihms hms, hm, Bool.or_assoc,
        Bool.and_or_distrib_right]

/-- **A wholly assigned value**: the fields that are selected. -/
theorem get_canonicalChangedBitset (d : FieldDesc) (selection : BitSet) (i : ℕ) :
    (canonicalChangedBitset d selection).get i = (d.leafBit i && selection.get i) := by
  rw [canonicalChangedBitset, get_canonicalWalk, get_new, Bool.false_or, leafBit]

/-- **A value with marked paths**: the fields that are selected, and that some path covers. -/
theorem get_markedWireChangedBitset (d : FieldDesc) (paths : List String) (mask : BitSet) (i : ℕ) :
    (markedWireChangedBitset d paths mask).get i = true ↔
      (d.leafBit i && mask.get i) = true ∧ ∃ path ∈ paths, path ≠ "" ∧ d.Covers path i := by
  rw [markedWireChangedBitset, get_canonicalChangedBitset, get_foldl_set, get_new,
    Bool.or_false, Bool.and_eq_true, Bool.and_eq_true, decide_eq_true_iff, mem_filter,
    mem_iter, get_markedChangedBitset, and_assoc]
  exact and_congr_right fun _ => and_comm

/-! ### Where a path leads -/

namespace FieldDesc

variable {d : FieldDesc}

lemma findBitForPath_nil (d : FieldDesc) (base : ℕ) :
    d.findBitForPath base [] = some (base, base + d.totalBits) := by
  cases d <;> rfl

lemma validNamesMembers_iff {ms} :
    validNamesMembers ms = true ↔ ∀ m ∈ ms, IsSegment m.1 ∧ m.2.validNames = true := by
  induction ms with
  | nil => simp [validNamesMembers]
  | cons m ms ih => simp [validNamesMembers, ih]

lemma bitSpanForPath_join {segs} (hne : segs ≠ []) (hsegs : ∀ s ∈ segs, IsSegment s) :
    d.bitSpanForPath (join segs) = d.findBitForPath 0 segs := by
  have hempty : ¬ (join segs).isEmpty = true :=
    fun h => join_ne_empty hne hsegs (String.isEmpty_iff.1 h)
  rw [bitSpanForPath, if_neg hempty, split_join hne hsegs]

end FieldDesc

/-- From the root, the names lead to the field `d` at `bit`: what is below it is found through
them. -/
def Leads (root : FieldDesc) (segs : List String) (d : FieldDesc) (bit : ℕ) : Prop :=
  ∀ tail, root.findBitForPath 0 (segs ++ tail) = d.findBitForPath bit tail

def LeadsMembers (root : FieldDesc) (segs : List String) (ms : List Member) (bit : ℕ) : Prop :=
  ∀ name ∈ ms.map Prod.fst, ∀ tail,
    root.findBitForPath 0 (segs ++ name :: tail) = FieldDesc.findMember ms bit name tail

lemma leads_root (root : FieldDesc) : Leads root [] root 0 := fun _ => rfl

section

variable {root : FieldDesc} {segs : List String} {bit : ℕ}

lemma Leads.members {i} {ms : List Member} (h : Leads root segs (.struct i ms) bit) :
    LeadsMembers root segs ms (bit + 1) := by
  intro name _ tail
  rw [h (name :: tail), findBitForPath]

lemma LeadsMembers.head {name d ms} (h : LeadsMembers root segs ((name, d) :: ms) bit)
    : Leads root (segs ++ [name]) d bit := by
  intro tail
  rw [append_assoc, singleton_append, h name mem_cons_self tail,
    findMember, if_pos rfl]

lemma LeadsMembers.tail {name d ms} (h : LeadsMembers root segs ((name, d) :: ms) bit)
    (hname : name ∉ ms.map Prod.fst) :
    LeadsMembers root segs ms (bit + d.totalBits) := by
  intro other hother tail
  have hne : name ≠ other := fun h => hname (h ▸ hother)
  rw [h other (mem_cons_of_mem _ hother) tail, findMember, if_neg hne]

lemma Leads.covers_iff {d} (h : Leads root segs d bit) (hne : segs ≠ [])
    (hsegs : ∀ s ∈ segs, IsSegment s) (i : ℕ) :
    root.Covers (join segs) i ↔ bit ≤ i ∧ i < bit + d.totalBits := by
  have hspan : root.bitSpanForPath (join segs) = some (bit, bit + d.totalBits) := by
    rw [bitSpanForPath_join hne hsegs, ← findBitForPath_nil, ← h [],
      append_nil]
  simp [Covers, hspan]

end

/-! ### The paths of a set of bits -/

section

variable (root : FieldDesc) (b : BitSet)

/-- What the paths mark that are reported below a field: the set bits of its span, but for that of
the root, which has no path. -/
def Reports (segs : List String) (d : FieldDesc) (bit : ℕ) : Prop :=
  ∀ i, (∃ path ∈ pathsWalk b d bit (join segs), path ≠ "" ∧ root.Covers path i) ↔
    (bit ≤ i ∧ i < bit + d.totalBits) ∧ b.get i = true ∧ (segs = [] → i ≠ bit)

def ReportsMembers (segs : List String) (ms : List Member) (bit : ℕ) : Prop :=
  ∀ i, (∃ path ∈ pathsWalkMembers b ms bit (join segs), path ≠ "" ∧ root.Covers path i) ↔
    (bit ≤ i ∧ i < bit + FieldDesc.totalBitsMembers ms) ∧ b.get i = true

end

section

variable {root d : FieldDesc} {b : BitSet} {segs : List String} {bit : ℕ}

lemma pathsWalk_leaf (hd : d.isStruct = false) (path : String) :
    pathsWalk b d bit path = if !path.isEmpty && b.get bit then [path] else [] := by
  cases d <;> first | rfl | simp [isStruct] at hd

lemma pathsWalk_of_get {path} (hpath : path ≠ "") (hget : b.get bit = true) :
    pathsWalk b d bit path = [path] := by
  have hcond : (!path.isEmpty && b.get bit) = true := by
    rw [hget, Bool.and_true, Bool.not_eq_true', Bool.eq_false_iff, Ne, String.isEmpty_iff]
    exact hpath
  cases d <;> simp only [pathsWalk, hcond, if_true]

lemma nodeAligned_get (h : nodeAligned b d bit = true) (hget : b.get bit = true) {i} (h₁ : bit ≤ i)
    (h₂ : i < bit + d.totalBits) : b.get i = true := by
  by_cases hd : d.isStruct = true
  · cases d with
    | struct name ms =>
      rw [nodeAligned, hget, Bool.and_eq_true] at h
      refine all_eq_true.1 (by simpa using h.1) i (mem_range'_1.2 ⟨h₁, ?_⟩)
      rwa [totalBits] at h₂
    | _ => simp [isStruct] at hd
  · rw [totalBits_of_leaf (Bool.eq_false_iff.2 hd)] at h₂
    obtain rfl : i = bit := by omega
    exact hget

lemma reports_of_get (hlead : Leads root segs d bit) (hne : segs ≠ [])
    (hsegs : ∀ s ∈ segs, IsSegment s) (haligned : nodeAligned b d bit = true)
    (hget : b.get bit = true) : Reports root b segs d bit := by
  intro i
  have hpath := join_ne_empty hne hsegs
  rw [pathsWalk_of_get hpath hget, exists_mem_cons_iff]
  simp only [not_mem_nil, false_and, exists_false, or_false, hlead.covers_iff hne hsegs]
  constructor
  · rintro ⟨-, h₁, h₂⟩
    exact ⟨⟨h₁, h₂⟩, nodeAligned_get haligned hget h₁ h₂, fun h => absurd h hne⟩
  · rintro ⟨hspan, -, -⟩
    exact ⟨hpath, hspan⟩

lemma reportsMembers_cons {name ms} (hsegs : ∀ s ∈ segs, IsSegment s)
    (hhead : Reports root b (segs ++ [name]) d bit)
    (htail : ReportsMembers root b segs ms (bit + d.totalBits)) :
    ReportsMembers root b segs ((name, d) :: ms) bit := by
  intro i
  have hsnoc : segs ++ [name] ≠ [] := by simp
  simp only [pathsWalkMembers, extend_join hsegs, mem_append, or_and_right, exists_or]
  rw [hhead i, htail i, totalBitsMembers]
  constructor
  · rintro (⟨hspan, hget, -⟩ | ⟨hspan, hget⟩)
    · exact ⟨⟨hspan.1, by omega⟩, hget⟩
    · exact ⟨⟨by omega, by omega⟩, hget⟩
  · rintro ⟨⟨h₁, h₂⟩, hget⟩
    by_cases hi : i < bit + d.totalBits
    · exact Or.inl ⟨⟨h₁, hi⟩, hget, fun h => absurd h hsnoc⟩
    · exact Or.inr ⟨⟨by omega, by omega⟩, hget⟩

lemma pathsWalk_of_clear {i} {ms : List Member} {path} (hget : b.get bit = false) :
    pathsWalk b (.struct i ms) bit path = pathsWalkMembers b ms (bit + 1) path := by
  rw [pathsWalk, hget, Bool.and_false, if_neg Bool.false_ne_true]

lemma reports_struct {j ms} (hget : b.get bit = false)
    (hms : ReportsMembers root b segs ms (bit + 1)) : Reports root b segs (.struct j ms) bit := by
  intro i
  rw [pathsWalk_of_clear hget, hms i, totalBits]
  constructor
  · rintro ⟨⟨h₁, h₂⟩, hi⟩
    exact ⟨⟨by omega, by omega⟩, hi, fun _ => by omega⟩
  · rintro ⟨⟨h₁, h₂⟩, hi, -⟩
    have hne : i ≠ bit := by
      rintro rfl
      rw [hget] at hi
      exact Bool.false_ne_true hi
    exact ⟨⟨by omega, by omega⟩, hi⟩

lemma reports_leaf (hd : d.isStruct = false) (hget : b.get bit = false) :
    Reports root b segs d bit := by
  intro i
  rw [pathsWalk_leaf hd, hget, Bool.and_false, if_neg Bool.false_ne_true,
    totalBits_of_leaf hd]
  constructor
  · rintro ⟨path, hpath, -⟩
    exact absurd hpath not_mem_nil
  · rintro ⟨⟨h₁, h₂⟩, hi, -⟩
    obtain rfl : i = bit := by omega
    exact absurd hi (by simp [hget])

/-- **The walk reports the set bits of every field that names lead to.** -/
theorem reports (d : FieldDesc) : ∀ {segs bit}, d.validNames = true →
    distinctNames d = true → nodeAligned b d bit = true → Leads root segs d bit →
    (∀ s ∈ segs, IsSegment s) → (segs = [] → b.get bit = false) → Reports root b segs d bit := by
  induction d using struct_induction with
  | leaf d hd =>
    intro segs bit _ _ haligned hlead hsegs hroot
    cases hget : b.get bit with
    | true => exact reports_of_get hlead (fun h => by simp [hroot h] at hget) hsegs haligned hget
    | false => exact reports_leaf hd hget
  | struct j ms ih =>
    intro segs bit hvalid hdistinct haligned hlead hsegs hroot
    cases hget : b.get bit with
    | true => exact reports_of_get hlead (fun h => by simp [hroot h] at hget) hsegs haligned hget
    | false =>
      refine reports_struct hget ?_
      have hms := hlead.members
      rw [validNames, validNamesMembers_iff] at hvalid
      rw [distinctNames, Bool.and_eq_true, decide_eq_true_iff, distinctNamesMembers_iff]
        at hdistinct
      rw [nodeAligned, Bool.and_eq_true] at haligned
      obtain ⟨hnodup, hdistinct⟩ := hdistinct
      replace haligned := haligned.2
      -- over the members that are left, with the bit of the first of them
      generalize bit + 1 = bit at hms haligned ⊢
      clear hlead hroot hget
      induction ms generalizing bit with
      | nil =>
        intro i
        simp only [pathsWalkMembers, totalBitsMembers]
        constructor
        · rintro ⟨path, hpath, -⟩
          exact absurd hpath not_mem_nil
        · rintro ⟨⟨h₁, h₂⟩, -⟩
          omega
      | cons m ms ihms =>
        obtain ⟨name, d⟩ := m
        obtain ⟨⟨hname, hvd⟩, hvms⟩ := forall_mem_cons.1 hvalid
        obtain ⟨hdd, hdms⟩ := forall_mem_cons.1 hdistinct
        obtain ⟨hd, hih⟩ := forall_mem_cons.1 ih
        rw [map_cons, nodup_cons] at hnodup
        rw [nodeAlignedMembers, Bool.and_eq_true] at haligned
        have hsnoc : ∀ s ∈ segs ++ [name], IsSegment s := by
          intro s hs
          rcases mem_append.1 hs with hs | hs
          · exact hsegs s hs
          · rw [mem_singleton.1 hs]
            exact hname
        refine reportsMembers_cons hsegs ?_ ?_
        · exact hd hvd hdd haligned.1 hms.head hsnoc (fun h => by simp at h)
        · exact ihms hih hvms hnodup.2 hdms (bit + d.totalBits) (hms.tail hnodup.1) haligned.2

end

/-- **The paths of a set of bits mark that set**, if the root is not in it and the bit of a structure
comes with those of everything below it. -/
theorem markedChangedBitset_changedBitsetPaths (d : FieldDesc) (b : BitSet)
    (hvalid : d.validNames = true) (hdistinct : distinctNames d = true)
    (hspan : ∀ i, b.get i = true → i < d.totalBits) (hroot : b.get 0 = false)
    (haligned : nodeAligned b d 0 = true) (i : ℕ) :
    (markedChangedBitset d (changedBitsetPaths d b)).get i = b.get i := by
  have hreports : Reports d b [] d 0 :=
    reports d hvalid hdistinct haligned (leads_root d) (forall_mem_nil _) (fun _ => hroot)
  rw [Bool.eq_iff_iff, get_markedChangedBitset]
  refine (hreports i).trans ⟨fun h => h.2.1, fun h => ?_⟩
  have hne : i ≠ 0 := by
    rintro rfl
    rw [hroot] at h
    exact Bool.false_ne_true h
  exact ⟨⟨Nat.zero_le i, by rw [Nat.zero_add]; exact hspan i h⟩, h, fun _ => hne⟩

def alarmDesc : FieldDesc :=
  .struct "" [("value", .scalar .double),
    ("alarm", .struct "alarm_t" [("severity", .scalar .int), ("status", .scalar .int)])]

theorem markedChangedBitset_changedBitsetPaths_alarm :
    changedBitsetPaths alarmDesc ⟨[0x1E]⟩ = ["value", "alarm"] ∧
      (markedChangedBitset alarmDesc (changedBitsetPaths alarmDesc ⟨[0x1E]⟩)).get 4 = true := by
  refine ⟨by decide, ?_⟩
  have hspan : ∀ i, get ⟨[0x1E]⟩ i = true → i < alarmDesc.totalBits := by
    intro i hi
    have hlt := lt_of_get hi
    have hi8 : i < 8 := by
      rw [length_singleton] at hlt
      omega
    have hsmall : ∀ j < 8, get ⟨[0x1E]⟩ j = true → j < alarmDesc.totalBits := by decide
    exact hsmall i hi8 hi
  rw [markedChangedBitset_changedBitsetPaths alarmDesc ⟨[0x1E]⟩ (by decide) (by decide) hspan
    (by decide) (by decide) 4]
  decide

end Pva
