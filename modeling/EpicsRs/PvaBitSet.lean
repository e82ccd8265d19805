/-
**Bit sets.**

`proto/bitset.rs`: a set of bit numbers, with bit `i` in byte `i / 8` at position `i % 8`, and its
wire form, a byte count and the bytes up to the last one that is not zero.  On a big-endian
connection the bytes of every full word of eight are reversed.  Every operation is characterised by
`BitSet.get`.

Main results: `Pva.BitSet.reads_decode`, `Pva.BitSet.built_is_set`.
-/

import EpicsRs.PvaProto

set_option autoImplicit false

namespace Pva

open ByteReader List

structure BitSet where
  bytes : List UInt8
deriving DecidableEq

namespace BitSet

/-! ### The set -/

def new : BitSet := ⟨[]⟩

/-- `1 << k`. -/
def mask (k : ℕ) : UInt8 := 1 <<< UInt8.ofNat k

/-- `Vec::resize` with zeroes, to at least `n` bytes. -/
def grow (bytes : List UInt8) (n : ℕ) : List UInt8 :=
  bytes ++ List.replicate (n - bytes.length) 0

def set (b : BitSet) (i : ℕ) : BitSet :=
  ⟨(grow b.bytes (i / 8 + 1)).modify (i / 8) fun x => x ||| mask (i % 8)⟩

/-- `BitSet::clear`; bytes at the end that become zero stay. -/
def clear (b : BitSet) (i : ℕ) : BitSet :=
  ⟨b.bytes.modify (i / 8) fun x => x &&& ~~~mask (i % 8)⟩

def get (b : BitSet) (i : ℕ) : Bool :=
  match b.bytes[i / 8]? with
  | none => false
  | some x => decide (x &&& mask (i % 8) ≠ 0)

def anyIn (b : BitSet) (start stop : ℕ) : Bool :=
  let stop := min stop (b.bytes.length * 8)
  if stop ≤ start then false
  else
    let first := start / 8
    let last := (stop - 1) / 8
    let lo : UInt8 := 0xFF <<< UInt8.ofNat (start % 8)
    let hi : UInt8 := 0xFF >>> UInt8.ofNat (7 - (stop - 1) % 8)
    let byteAt := fun k => b.bytes[k]?.getD 0
    if first = last then decide (byteAt first &&& lo &&& hi ≠ 0)
    else decide (byteAt first &&& lo ≠ 0) ||
      ((b.bytes.take last).drop (first + 1)).any (fun x => decide (x ≠ 0)) ||
      decide (byteAt last &&& hi ≠ 0)

def iter (b : BitSet) : List ℕ :=
  b.bytes.zipIdx.flatMap fun xk =>
    (List.range 8).filterMap fun j =>
      if xk.1 &&& mask j ≠ 0 then some (xk.2 * 8 + j) else none

def unionInto (a b : BitSet) : BitSet := b.iter.foldl set a

/-- `BitSet::union_with`: the bytes that both have are joined, the others of the longer one stay. -/
def unionWith (a b : BitSet) : BitSet :=
  ⟨List.zipWith (· ||| ·) (grow a.bytes b.bytes.length) b.bytes ++
    (grow a.bytes b.bytes.length).drop b.bytes.length⟩

/-- `u8::count_ones`. -/
def countOnes (x : UInt8) : ℕ := (List.range 8).countP fun j => x &&& mask j ≠ 0

def count (b : BitSet) : ℕ := (b.bytes.map countOnes).sum

def isEmpty (b : BitSet) : Bool := b.bytes.all (· == 0)

/-! ### Bit by bit -/

lemma toNat_mask {k} (h : k < 8) : (mask k).toNat = 2 ^ k := by
  have hk : (UInt8.ofNat k).toNat = k := UInt8.toNat_ofNat_of_lt' (by simp [UInt8.size]; omega)
  have hlt : 2 ^ k < 2 ^ 8 := Nat.pow_lt_pow_right (by decide) h
  simp only [mask, UInt8.toNat_shiftLeft, hk, Nat.mod_eq_of_lt h, UInt8.toNat_one,
    Nat.one_shiftLeft, Nat.mod_eq_of_lt hlt]

lemma and_mask_ne_zero {k} (h : k < 8) (x : UInt8) :
    x &&& mask k ≠ 0 ↔ x.toNat.testBit k = true := by
  rw [ne_eq, ← UInt8.toNat_inj, UInt8.toNat_and, toNat_mask h, Nat.and_two_pow]
  cases x.toNat.testBit k <;> simp

/-- The byte that holds bit `i`; bytes past the end are zero. -/
def byteOf (b : BitSet) (i : ℕ) : UInt8 := b.bytes[i / 8]?.getD 0

lemma get_eq (b : BitSet) (i : ℕ) : b.get i = (b.byteOf i).toNat.testBit (i % 8) := by
  have hlt : i % 8 < 8 := Nat.mod_lt _ (by decide)
  unfold get byteOf
  cases b.bytes[i / 8]? with
  | none => simp
  | some x =>
    rw [Bool.eq_iff_iff, decide_eq_true_iff]
    exact and_mask_ne_zero hlt x

lemma get_new (i : ℕ) : new.get i = false := by
  simp [get, new]

lemma getD_grow (bytes : List UInt8) (n k : ℕ) :
    (grow bytes n)[k]?.getD 0 = bytes[k]?.getD 0 := by
  unfold grow
  by_cases h : k < bytes.length
  · rw [getElem?_append_left h]
  · rw [getElem?_append_right (by omega), getElem?_replicate,
      getElem?_eq_none (by omega)]
    split_ifs <;> rfl

lemma length_grow (bytes : List UInt8) (n : ℕ) : (grow bytes n).length = max bytes.length n := by
  simp only [grow, length_append, length_replicate]
  omega

lemma length_set (b : BitSet) (i : ℕ) :
    (b.set i).bytes.length = max b.bytes.length (i / 8 + 1) := by
  simp only [set, length_modify, length_grow]

lemma byteOf_set (b : BitSet) (i j : ℕ) :
    (b.set i).byteOf j = if i / 8 = j / 8 then b.byteOf j ||| mask (i % 8) else b.byteOf j := by
  have hget := getD_grow b.bytes (i / 8 + 1) (j / 8)
  simp only [byteOf, set, getElem?_modify]
  cases hj : (grow b.bytes (i / 8 + 1))[j / 8]? with
  | none =>
    have hlen := getElem?_eq_none_iff.1 hj
    rw [length_grow] at hlen
    rw [hj] at hget
    rw [if_neg (by omega), ← hget]
    rfl
  | some x =>
    rw [hj] at hget
    rw [← hget]
    split_ifs <;> rfl

lemma get_set (b : BitSet) (i j : ℕ) : (b.set i).get j = (decide (j = i) || b.get j) := by
  have hi : i % 8 < 8 := Nat.mod_lt _ (by decide)
  rw [get_eq, get_eq, byteOf_set]
  by_cases h : i / 8 = j / 8
  · rw [if_pos h, UInt8.toNat_or, toNat_mask hi, Nat.testBit_or, Nat.testBit_two_pow, Bool.or_comm]
    have heq : i % 8 = j % 8 ↔ j = i := by omega
    simp only [heq]
  · have hne : j ≠ i := by
      rintro rfl
      exact h rfl
    simp [h, hne]

lemma byteOf_clear (b : BitSet) (i j : ℕ) :
    (b.clear i).byteOf j = if i / 8 = j / 8 then b.byteOf j &&& ~~~mask (i % 8) else b.byteOf j := by
  simp only [byteOf, clear, getElem?_modify]
  cases b.bytes[j / 8]? with
  | none => simp
  | some x => split_ifs <;> rfl

lemma get_clear (b : BitSet) (i j : ℕ) : (b.clear i).get j = (decide (j ≠ i) && b.get j) := by
  have hi : i % 8 < 8 := Nat.mod_lt _ (by decide)
  have hj : j % 8 < 8 := Nat.mod_lt _ (by decide)
  rw [get_eq, get_eq, byteOf_clear]
  by_cases h : i / 8 = j / 8
  · have heq : i % 8 = j % 8 ↔ j = i := by omega
    have hnot : (~~~mask (i % 8)).toNat = 2 ^ 8 - (2 ^ (i % 8) + 1) := by
      rw [UInt8.toNat_not, toNat_mask hi]
      simp only [UInt8.size]
      omega
    rw [if_pos h, UInt8.toNat_and, Nat.testBit_and, hnot,
      Nat.testBit_two_pow_sub_succ (Nat.pow_lt_pow_right (by decide) hi), Nat.testBit_two_pow,
      Bool.and_comm]
    simp [hj, heq]
  · have hne : j ≠ i := by
      rintro rfl
      exact h rfl
    simp [h, hne]

lemma ne_zero_iff (x : UInt8) : x ≠ 0 ↔ ∃ j < 8, x.toNat.testBit j = true := by
  constructor
  · intro hx
    have hne : x.toNat ≠ 0 := fun h => hx (UInt8.toNat_inj.1 h)
    obtain ⟨j, hj⟩ := Nat.exists_testBit_of_ne_zero hne
    refine ⟨j, ?_, hj⟩
    by_contra hlt
    have hbound : x.toNat < 2 ^ j :=
      lt_of_lt_of_le x.toNat_lt (Nat.pow_le_pow_right (by decide) (by omega))
    rw [Nat.testBit_lt_two_pow hbound] at hj
    cases hj
  · rintro ⟨j, -, hj⟩ rfl
    simp at hj

/-- `0xFF << k`: the bits from `k` on. -/
lemma testBit_lo {k j : ℕ} (hk : k < 8) :
    ((0xFF : UInt8) <<< UInt8.ofNat k).toNat.testBit j = (decide (k ≤ j) && decide (j < 8)) := by
  have hkn : (UInt8.ofNat k).toNat = k := UInt8.toNat_ofNat_of_lt' (by simp [UInt8.size]; omega)
  have hff : (0xFF : UInt8).toNat = 2 ^ 8 - 1 := by decide
  rw [UInt8.toNat_shiftLeft, hkn, Nat.mod_eq_of_lt hk, hff, Nat.testBit_mod_two_pow,
    Nat.testBit_shiftLeft, Nat.testBit_two_pow_sub_one]
  by_cases hkj : k ≤ j
  · by_cases hj : j < 8
    · have : j - k < 8 := by omega
      simp [hkj, hj, this]
    · simp [hj]
  · simp [hkj]

/-- `0xFF >> (7 - m)`: the bits up to `m`. -/
lemma testBit_hi {m j} (hm : m < 8) :
    ((0xFF : UInt8) >>> UInt8.ofNat (7 - m)).toNat.testBit j = decide (j ≤ m) := by
  have hmn : (UInt8.ofNat (7 - m)).toNat = 7 - m :=
    UInt8.toNat_ofNat_of_lt' (by simp [UInt8.size]; omega)
  have hff : (0xFF : UInt8).toNat = 2 ^ 8 - 1 := by decide
  rw [UInt8.toNat_shiftRight, hmn, Nat.mod_eq_of_lt (by omega), hff, Nat.testBit_shiftRight,
    Nat.testBit_two_pow_sub_one]
  congr 1
  rw [eq_iff_iff]
  omega

variable {b : BitSet}

lemma lt_of_get {i} (h : b.get i = true) : i / 8 < b.bytes.length := by
  by_contra hlt
  rw [get, getElem?_eq_none (by omega)] at h
  cases h

lemma get_mul_add (b : BitSet) (q : ℕ) {j} (hj : j < 8) :
    b.get (q * 8 + j) = (b.bytes[q]?.getD 0).toNat.testBit j := by
  have hdiv : (q * 8 + j) / 8 = q := by omega
  have hmod : (q * 8 + j) % 8 = j := by omega
  rw [get_eq, byteOf, hdiv, hmod]

lemma any_middle_iff (b : BitSet) {first last} (hlast : last < b.bytes.length) :
    ((b.bytes.take last).drop (first + 1)).any (fun x => decide (x ≠ 0)) = true ↔
      ∃ q j, first < q ∧ q < last ∧ j < 8 ∧ b.get (q * 8 + j) = true := by
  rw [any_eq_true]
  constructor
  · rintro ⟨x, hx, hne⟩
    obtain ⟨k, hk⟩ := mem_iff_getElem?.1 hx
    rw [getElem?_drop, getElem?_take] at hk
    split_ifs at hk with hlt
    obtain ⟨j, hj, hbit⟩ := (ne_zero_iff x).1 (by simpa using hne)
    refine ⟨first + 1 + k, j, by omega, hlt, hj, ?_⟩
    rw [get_mul_add b _ hj, hk]
    exact hbit
  · rintro ⟨q, j, hfirst, hq, hj, hbit⟩
    rw [get_mul_add b q hj, getElem?_eq_getElem (by omega)] at hbit
    refine ⟨b.bytes[q], mem_iff_getElem?.2 ⟨q - (first + 1), ?_⟩, ?_⟩
    · have hsum : first + 1 + (q - (first + 1)) = q := by omega
      rw [getElem?_drop, hsum, getElem?_take, if_pos hq,
        getElem?_eq_getElem (by omega)]
    · simpa using (ne_zero_iff _).2 ⟨j, hj, hbit⟩

/-- **A range has a bit of the set** exactly when the masks find one. -/
theorem anyIn_iff (b : BitSet) (start stop : ℕ) :
    b.anyIn start stop = true ↔ ∃ i, start ≤ i ∧ i < stop ∧ b.get i = true := by
  have hcut : (∃ i, start ≤ i ∧ i < stop ∧ b.get i = true) ↔
      ∃ i, start ≤ i ∧ i < min stop (b.bytes.length * 8) ∧ b.get i = true := by
    refine exists_congr fun i => and_congr_right fun _ => and_congr_left fun hget => ?_
    have := lt_of_get hget
    omega
  rw [hcut]
  unfold anyIn
  have hlen : min stop (b.bytes.length * 8) ≤ b.bytes.length * 8 := Nat.min_le_right _ _
  generalize min stop (b.bytes.length * 8) = stop at hlen
  by_cases hempty : stop ≤ start
  · simp only [hempty, if_true]
    refine ⟨fun h => absurd h (by decide), ?_⟩
    rintro ⟨i, h₁, h₂, -⟩
    omega
  have hk : start % 8 < 8 := Nat.mod_lt _ (by decide)
  have hm : (stop - 1) % 8 < 8 := Nat.mod_lt _ (by decide)
  -- what the two masks find in a byte
  have hlo : ∀ x : UInt8, x &&& (0xFF : UInt8) <<< UInt8.ofNat (start % 8) ≠ 0 ↔
      ∃ j < 8, start % 8 ≤ j ∧ x.toNat.testBit j = true := by
    intro x
    rw [ne_zero_iff]
    refine exists_congr fun j => and_congr_right fun hj => ?_
    rw [UInt8.toNat_and, Nat.testBit_and, testBit_lo hk]
    simp [hj, and_comm]
  have hhi : ∀ x : UInt8, x &&& (0xFF : UInt8) >>> UInt8.ofNat (7 - (stop - 1) % 8) ≠ 0 ↔
      ∃ j < 8, j ≤ (stop - 1) % 8 ∧ x.toNat.testBit j = true := by
    intro x
    rw [ne_zero_iff]
    refine exists_congr fun j => and_congr_right fun hj => ?_
    rw [UInt8.toNat_and, Nat.testBit_and, testBit_hi hm]
    simp [and_comm]
  simp only [hempty, if_false]
  split_ifs with hone
  · -- one byte, under both masks
    rw [decide_eq_true_iff, hhi]
    constructor
    · rintro ⟨j, hj, hjm, hbit⟩
      rw [UInt8.toNat_and, Nat.testBit_and, testBit_lo hk, Bool.and_eq_true, Bool.and_eq_true,
        decide_eq_true_iff] at hbit
      refine ⟨start / 8 * 8 + j, by omega, by omega, ?_⟩
      rw [get_mul_add b _ hj]
      exact hbit.1
    · rintro ⟨i, h₁, h₂, hget⟩
      have hdiv : i / 8 = start / 8 := by omega
      rw [get_eq, byteOf, hdiv] at hget
      refine ⟨i % 8, Nat.mod_lt _ (by decide), by omega, ?_⟩
      rw [UInt8.toNat_and, Nat.testBit_and, testBit_lo hk, hget, Bool.true_and, Bool.and_eq_true,
        decide_eq_true_iff, decide_eq_true_iff]
      omega
  · rw [Bool.or_eq_true, Bool.or_eq_true, decide_eq_true_iff, decide_eq_true_iff, hlo, hhi,
      any_middle_iff b (by omega)]
    constructor
    · rintro ((⟨j, hj, hkj, hbit⟩ | ⟨q, j, h₁, h₂, hj, hget⟩) | ⟨j, hj, hjm, hbit⟩)
      · exact ⟨start / 8 * 8 + j, by omega, by omega, by rwa [get_mul_add b _ hj]⟩
      · exact ⟨q * 8 + j, by omega, by omega, hget⟩
      · exact ⟨(stop - 1) / 8 * 8 + j, by omega, by omega, by rwa [get_mul_add b _ hj]⟩
    · rintro ⟨i, h₁, h₂, hget⟩
      have hi : i / 8 * 8 + i % 8 = i := by omega
      have hmod : i % 8 < 8 := Nat.mod_lt _ (by decide)
      have hbit := hget
      rw [get_eq, byteOf] at hbit
      rcases lt_trichotomy (i / 8) (start / 8) with hlt | heq | hgt
      · omega
      · rw [heq] at hbit
        exact Or.inl (Or.inl ⟨i % 8, hmod, by omega, hbit⟩)
      · rcases lt_trichotomy (i / 8) ((stop - 1) / 8) with hlt | heq | hgt'
        · exact Or.inl (Or.inr ⟨i / 8, i % 8, hgt, hlt, hmod, by rw [hi]; exact hget⟩)
        · rw [heq] at hbit
          exact Or.inr ⟨i % 8, hmod, by omega, hbit⟩
        · omega

lemma mem_iter (b : BitSet) (i : ℕ) : i ∈ b.iter ↔ b.get i = true := by
  simp only [iter, mem_flatMap, mem_filterMap, mem_range]
  constructor
  · rintro ⟨⟨x, k⟩, hx, j, hj, hij⟩
    split_ifs at hij with hbit
    obtain rfl : k * 8 + j = i := by simpa using hij
    have hget : b.bytes[k]? = some x := by simpa using mk_mem_zipIdx_iff_getElem?.1 hx
    have hdiv : (k * 8 + j) / 8 = k := by omega
    have hmod : (k * 8 + j) % 8 = j := by omega
    rw [get, hdiv, hget, hmod]
    simpa using hbit
  · intro h
    unfold get at h
    cases hx : b.bytes[i / 8]? with
    | none =>
      rw [hx] at h
      cases h
    | some x =>
      rw [hx] at h
      have hbit : x &&& mask (i % 8) ≠ 0 := by simpa using h
      refine ⟨(x, i / 8), mk_mem_zipIdx_iff_getElem?.2 hx, i % 8, Nat.mod_lt _ (by decide), ?_⟩
      rw [if_pos hbit]
      have hi : i / 8 * 8 + i % 8 = i := by omega
      simp only [hi]

lemma iter_pairwise (b : BitSet) : b.iter.Pairwise (· < ·) := by
  have hidx : b.bytes.zipIdx.Pairwise fun u v => u.2 < v.2 := by
    rw [← pairwise_map (f := Prod.snd), zipIdx_map_snd]
    exact pairwise_lt_range'
  refine pairwise_flatMap.2 ⟨fun u _ => ?_, hidx.imp fun huv x hx y hy => ?_⟩
  · refine pairwise_lt_range.filterMap _ fun j k hjk x hx y hy => ?_
    obtain ⟨-, ⟨⟩⟩ := Option.ite_none_right_eq_some.1 hx
    obtain ⟨-, ⟨⟩⟩ := Option.ite_none_right_eq_some.1 hy
    omega
  · -- a later byte holds later bits
    obtain ⟨j, hj, hx⟩ := mem_filterMap.1 hx
    obtain ⟨k, -, hy⟩ := mem_filterMap.1 hy
    obtain ⟨-, ⟨⟩⟩ := Option.ite_none_right_eq_some.1 hx
    obtain ⟨-, ⟨⟩⟩ := Option.ite_none_right_eq_some.1 hy
    have := mem_range.1 hj
    omega

lemma count_eq_length_iter (b : BitSet) : b.count = b.iter.length := by
  have hbyte : ∀ u : UInt8 × ℕ, ((List.range 8).filterMap fun j =>
      if u.1 &&& mask j ≠ 0 then some (u.2 * 8 + j) else none).length = countOnes u.1 := by
    intro u
    rw [length_filterMap_eq_countP, countOnes]
    refine countP_congr fun j _ => ?_
    split_ifs <;> simp_all
  rw [count, iter, length_flatMap, map_congr_left fun u _ => hbyte u]
  conv_lhs => rw [← zipIdx_map_fst 0 b.bytes, map_map]
  rfl

lemma get_foldl_set (is : List ℕ) :
    ∀ (a : BitSet) (j : ℕ), (is.foldl set a).get j = (decide (j ∈ is) || a.get j) := by
  induction is with
  | nil => simp
  | cons i is ih =>
    intro a j
    rw [foldl_cons, ih, get_set, ← Bool.or_assoc]
    congr 1
    by_cases hj : j = i <;> simp [hj]

theorem get_unionInto (a b : BitSet) (i : ℕ) : (unionInto a b).get i = (a.get i || b.get i) := by
  rw [unionInto, get_foldl_set, Bool.or_comm]
  simp only [mem_iter, Bool.decide_eq_true]

lemma byteOf_unionWith (a b : BitSet) (i : ℕ) :
    (unionWith a b).byteOf i = a.byteOf i ||| b.byteOf i := by
  have hgrow := getD_grow a.bytes b.bytes.length (i / 8)
  have hlen : (grow a.bytes b.bytes.length).length = max a.bytes.length b.bytes.length :=
    length_grow _ _
  have hzip : (zipWith (· ||| ·) (grow a.bytes b.bytes.length) b.bytes).length =
      b.bytes.length := by
    rw [length_zipWith]
    omega
  simp only [byteOf, unionWith]
  by_cases hi : i / 8 < b.bytes.length
  · rw [getElem?_append_left (by omega), getElem?_zipWith, ← hgrow,
      getElem?_eq_getElem (by omega), getElem?_eq_getElem hi]
    rfl
  · rw [getElem?_append_right (by omega), getElem?_drop, hzip,
      Nat.add_sub_cancel' (by omega), hgrow, getElem?_eq_none (by omega : b.bytes.length ≤ i / 8)]
    simp

lemma get_unionWith (a b : BitSet) (i : ℕ) : (unionWith a b).get i = (a.get i || b.get i) := by
  rw [get_eq, get_eq, get_eq, byteOf_unionWith, UInt8.toNat_or, Nat.testBit_or]

lemma isEmpty_eq_false_iff (b : BitSet) : b.isEmpty = false ↔ ∃ i, b.get i = true := by
  rw [isEmpty, all_eq_false]
  constructor
  · rintro ⟨x, hx, hne⟩
    obtain ⟨q, hq⟩ := getElem?_of_mem hx
    obtain ⟨j, hj, hbit⟩ := (ne_zero_iff x).1 (by simpa using hne)
    refine ⟨q * 8 + j, ?_⟩
    rw [get_mul_add b q hj, hq]
    exact hbit
  · rintro ⟨i, hi⟩
    have hlt := lt_of_get hi
    refine ⟨b.bytes[i / 8], getElem_mem hlt, ?_⟩
    rw [get_eq, byteOf, getElem?_eq_getElem hlt] at hi
    have hne := (ne_zero_iff b.bytes[i / 8]).2 ⟨i % 8, Nat.mod_lt _ (by decide), hi⟩
    simpa using hne

lemma length_foldl_set {n} (is : List ℕ) (h : ∀ i ∈ is, i / 8 < n) :
    ∀ a : BitSet, a.bytes.length ≤ n → (is.foldl set a).bytes.length ≤ n := by
  induction is with
  | nil => exact fun _ ha => ha
  | cons i is ih =>
    obtain ⟨hi, his⟩ := forall_mem_cons.1 h
    intro a ha
    refine ih his (a.set i) ?_
    rw [length_set]
    omega

lemma length_unionInto_le {a n} (ha : a.bytes.length ≤ n) (hb : b.bytes.length ≤ n)
    : (unionInto a b).bytes.length ≤ n := by
  refine length_foldl_set _ (fun i hi => ?_) a ha
  have := lt_of_get ((mem_iter b i).1 hi)
  omega

/-! ### The wire form -/

/-- The bytes of every full word of eight reversed; those of a last partial word stay. -/
def swapWords : List UInt8 → List UInt8
  | a :: b :: c :: d :: e :: f :: g :: h :: rest =>
      h :: g :: f :: e :: d :: c :: b :: a :: swapWords rest
  | rest => rest

/-- The wire form of the bytes in a byte order, and back. -/
def wireWords (order : ByteOrder) (bytes : List UInt8) : List UInt8 :=
  match order with
  | .little => bytes
  | .big => swapWords bytes

/-- The loop of `write_into` that drops the zero bytes at the end. -/
def trim (b : BitSet) : BitSet := ⟨b.bytes.rdropWhile fun x => x == 0⟩

def writeInto (b : BitSet) (order : ByteOrder) : List UInt8 :=
  encodeSize (UInt32.ofNat b.trim.bytes.length) order ++ wireWords order b.trim.bytes

def decode {σ : Type} (order : ByteOrder) : Decoder σ BitSet := do
  let nbytes ← decodeSizeNonnull order "bitset size"
  let wire ← getBytes nbytes.toNat
  pure ⟨wireWords order wire⟩

lemma swapWords_swapWords (bytes : List UInt8) : swapWords (swapWords bytes) = bytes := by
  induction bytes using swapWords.induct with
  | case1 a b c d e f g h rest ih => simp only [swapWords, ih]
  | case2 rest hrest => rw [swapWords.eq_2 rest hrest, swapWords.eq_2 rest hrest]

lemma length_swapWords (bytes : List UInt8) : (swapWords bytes).length = bytes.length := by
  induction bytes using swapWords.induct with
  | case1 a b c d e f g h rest ih => simp only [swapWords, length_cons, ih]
  | case2 rest hrest => rw [swapWords.eq_2 rest hrest]

lemma wireWords_wireWords (order : ByteOrder) (bytes : List UInt8) :
    wireWords order (wireWords order bytes) = bytes := by
  cases order with
  | little => rfl
  | big => exact swapWords_swapWords bytes

lemma length_wireWords (order : ByteOrder) (bytes : List UInt8) :
    (wireWords order bytes).length = bytes.length := by
  cases order with
  | little => rfl
  | big => exact length_swapWords bytes

lemma getD_rdropWhile (bytes : List UInt8) (k : ℕ) :
    (bytes.rdropWhile fun x => x == 0)[k]?.getD 0 = bytes[k]?.getD 0 := by
  induction bytes using reverseRecOn with
  | nil => rfl
  | append_singleton bytes x ih =>
    rw [rdropWhile_concat]
    split_ifs with hx
    · have hzero : x = 0 := by simpa using hx
      rw [ih, hzero]
      by_cases hk : k < bytes.length
      · rw [getElem?_append_left hk]
      · rw [getElem?_eq_none (by omega), getElem?_append_right (by omega)]
        cases k - bytes.length <;> rfl
    · rfl

lemma get_trim (b : BitSet) (i : ℕ) : b.trim.get i = b.get i := by
  rw [get_eq, get_eq, byteOf, byteOf, trim, getD_rdropWhile]

lemma length_trim_le (b : BitSet) : b.trim.bytes.length ≤ b.bytes.length :=
  List.IsPrefix.length_le ( rdropWhile_prefix _ _)

lemma reads_decode_of_trim {σ : Type} (hlen : b.trim.bytes.length < 2 ^ 32) (order : ByteOrder)
    (s : σ) : Reads (decode order) (b.writeInto order) s b.trim s := by
  refine (reads_decodeSizeNonnull _ order _ s).bind ?_
  simp only [UInt32.toNat_ofNat_of_lt' hlen]
  have hbytes := (Reads.bytes (.shortRead "bytes" : DecodeError) (wireWords order b.trim.bytes) s).map
    fun wire => (⟨wireWords order wire⟩ : BitSet)
  rw [length_wireWords, wireWords_wireWords] at hbytes
  exact hbytes

/-- **The set is read back**, without its zero bytes at the end. -/
theorem reads_decode {σ : Type} (h : b.bytes.length < 2 ^ 32) (order : ByteOrder) (s : σ) :
    Reads (decode order) (b.writeInto order) s b.trim s :=
  reads_decode_of_trim (lt_of_le_of_lt b.length_trim_le h) order s

lemma stateless_decode {σ : Type} (order : ByteOrder) : Stateless (decode order : Decoder σ _) :=
  (stateless_decodeSizeNonnull order _).bind fun _ =>
  (stateless_getBytes _).bind fun _ => Stateless.pure _

/-- A set that was read has fewer than `2 ^ 32` bytes. -/
lemma length_of_decode {σ : Type} {order i r} {s s' : σ} (h : decode order i s = (.ok (b, r), s'))
    : b.bytes.length < 2 ^ 32 := by
  obtain ⟨n, i₁, s₁, -, h⟩ := bind_eq_ok.1 h
  obtain ⟨wire, i₂, s₂, hwire, h⟩ := bind_eq_ok.1 h
  obtain ⟨rfl, -, -⟩ := pure_eq_ok.1 h
  obtain ⟨-, hlen, -⟩ := bytes_eq_ok.1 hwire
  rw [length_wireWords, hlen]
  exact n.toNat_lt

/-! ### Sets that were built -/

/-- `b` was built by `set`, `clear` and `union_with`, and `S` is the set that they make. -/
inductive Built : BitSet → Finset ℕ → Prop
  | new : Built new ∅
  | set {b : BitSet} {S : Finset ℕ} (i : ℕ) : Built b S → Built (b.set i) (insert i S)
  | clear {b : BitSet} {S : Finset ℕ} (i : ℕ) : Built b S → Built (b.clear i) (S.erase i)
  | unionWith {a b : BitSet} {S T : Finset ℕ} :
      Built a S → Built b T → Built (a.unionWith b) (S ∪ T)

lemma Built.get_eq {S} (h : Built b S) (i : ℕ) : b.get i = decide (i ∈ S) := by
  induction h with
  | new => simp [get_new]
  | set j _ ih => simp [get_set, ih]
  | clear j _ ih => simp [get_clear, ih]
  | unionWith _ _ iha ihb => simp [get_unionWith, iha, ihb]

end BitSet

end Pva
