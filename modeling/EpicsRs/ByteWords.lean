/-
**Machine words as byte strings, in both byte orders.**

A word of `w` bytes is a natural number below `256 ^ w`.  Writing it least significant byte first
is repeated division by 256, and the big-endian form is the reversal of the little-endian one, so
one round trip serves every width and both orders.

Main results:

* `leNat_leBytes` — reading back gives the number modulo `256 ^ w`;
* `ByteOrder.ofBytes_toBytes` — the same for both orders;
* `WordRep.get_put`, `WordRep.getAll_flatMap_put` — words, and arrays of them, are read back.
-/

import Mathlib

set_option autoImplicit false

/-! ### Least significant byte first -/

/-- The `w` low bytes of `n`, least significant first. -/
def leBytes : ℕ → ℕ → List UInt8
  | 0, _ => []
  | w + 1, n => UInt8.ofNat n :: leBytes w (n / 256)

/-- The number that a byte string denotes, least significant byte first. -/
def leNat : List UInt8 → ℕ
  | [] => 0
  | b :: bs => b.toNat + 256 * leNat bs

@[simp] lemma length_leBytes (w n : ℕ) : (leBytes w n).length = w := by
  induction w generalizing n with
  | zero => rfl
  | succ w ih => simp [leBytes, ih]

lemma leNat_leBytes (w n : ℕ) : leNat (leBytes w n) = n % 256 ^ w := by
  induction w generalizing n with
  | zero => simp [leBytes, leNat, Nat.mod_one]
  | succ w ih =>
    have h : n % 256 ^ (w + 1) = n % 256 + 256 * (n / 256 % 256 ^ w) := by
      rw [pow_succ, mul_comm, Nat.mod_mul]
    rw [leBytes, leNat, ih, h]
    simp

/-! ### Byte orders -/

inductive ByteOrder where
  | little
  | big
deriving DecidableEq, Repr

namespace ByteOrder

/-- The `w` low bytes of `n` in the given order. -/
def toBytes (order : ByteOrder) (w n : ℕ) : List UInt8 :=
  match order with
  | .little => leBytes w n
  | .big => (leBytes w n).reverse

def ofBytes (order : ByteOrder) (bs : List UInt8) : ℕ :=
  match order with
  | .little => leNat bs
  | .big => leNat bs.reverse

@[simp] lemma length_toBytes (order : ByteOrder) (w n : ℕ) :
    (order.toBytes w n).length = w := by
  cases order <;> simp [toBytes]

lemma ofBytes_toBytes (order : ByteOrder) (w n : ℕ) :
    order.ofBytes (order.toBytes w n) = n % 256 ^ w := by
  cases order <;> simp [toBytes, ofBytes, leNat_leBytes]

end ByteOrder

/-! ### Types that are words -/

/-- A type whose values are words of a fixed width: every value is a number that fits the width,
and is determined by it. -/
structure WordRep (α : Type) where
  width : ℕ
  toNat : α → ℕ
  ofNat : ℕ → α
  toNat_lt : ∀ x, toNat x < 256 ^ width
  ofNat_toNat : ∀ x, ofNat (toNat x) = x

namespace WordRep

variable {α : Type} (w : WordRep α)

def put (order : ByteOrder) (x : α) : List UInt8 := order.toBytes w.width (w.toNat x)

def get (order : ByteOrder) (bs : List UInt8) : α := w.ofNat (order.ofBytes bs)

/-- The first `n` values in a buffer. -/
def getAll (order : ByteOrder) : ℕ → List UInt8 → List α
  | 0, _ => []
  | n + 1, bs => w.get order (bs.take w.width) :: getAll order n (bs.drop w.width)

variable (order : ByteOrder)

@[simp] lemma length_put (x : α) : (w.put order x).length = w.width :=
  ByteOrder.length_toBytes order _ _

lemma get_put (x : α) : w.get order (w.put order x) = x := by
  rw [get, put, ByteOrder.ofBytes_toBytes, Nat.mod_eq_of_lt (w.toNat_lt x), w.ofNat_toNat]

lemma length_flatMap_put (xs : List α) :
    (xs.flatMap (w.put order)).length = xs.length * w.width := by
  induction xs with
  | nil => simp
  | cons x xs ih =>
    rw [List.flatMap_cons, List.length_append, ih, length_put, List.length_cons, Nat.succ_mul,
      Nat.add_comm]

lemma getAll_flatMap_put (xs : List α) :
    w.getAll order xs.length (xs.flatMap (w.put order)) = xs := by
  induction xs with
  | nil => rfl
  | cons x xs ih =>
    have hlen := w.length_put order x
    rw [List.length_cons, List.flatMap_cons, getAll, List.take_left' hlen,
      List.drop_left' hlen, get_put, ih]

@[simp] lemma length_getAll (n : ℕ) (bs : List UInt8) : (w.getAll order n bs).length = n := by
  induction n generalizing bs with
  | zero => rfl
  | succ n ih => rw [getAll, List.length_cons, ih]

end WordRep
