/-
**The operations of the calc engine.**

The base dialect of the calc engine computes with doubles.  Its operators are built from a few
floating-point primitives — the arithmetic of the processor, the mathematical library, the casts
of `cast.rs` — which stay uninterpreted here: an `Arith F` names them over any type `F` of
numbers.  What the engine does with them, operand order and comparison results included, is
defined on top.
-/

import Mathlib

set_option autoImplicit false

namespace Calc

inductive MathFn
  | abs | exp | log10 | ln | sqrt | acos | asin | atan | cos | cosh | sin | sinh | tan | tanh
  | ceil | floor
deriving DecidableEq

inductive ConstName
  | pi | d2r | r2d
deriving DecidableEq

/-- `strtod`'s three results: the value, how far it read, and whether it went out of range. -/
structure Strtod (F : Type) where
  value : F
  len : ℕ
  erange : Bool

/-- **The floating-point primitives**, over a type `F` of numbers. -/
structure Arith (F : Type) where
  zero : F
  one : F
  half : F
  nan : F
  const : ConstName → F
  math : MathFn → F → F
  neg : F → F
  add : F → F → F
  sub : F → F → F
  mul : F → F → F
  div : F → F → F
  powf : F → F → F
  atan2 : F → F → F
  rem : F → F → F
  eq : F → F → Bool
  lt : F → F → Bool
  le : F → F → Bool
  isNan : F → Bool
  isInfinite : F → Bool
  isFinite : F → Bool
  /-- Rust's saturating `as i32`. -/
  toI32 : F → BitVec 32
  /-- `cast::c_int`. -/
  cInt : F → BitVec 32
  /-- `cast::d2i`. -/
  d2i : F → BitVec 32
  /-- `cast::d2ui`. -/
  d2ui : F → BitVec 32
  ofI32 : BitVec 32 → F
  ofU32 : BitVec 32 → F
  toBits : F → BitVec 64
  ofBits : BitVec 64 → F
  strtod : List Char → Strtod F
  /-- The draws of `calc_random`, in order. -/
  random : ℕ → F

inductive Unary
  | neg | relNot | bitNot | nint | isInf
  | math (f : MathFn)
deriving DecidableEq

inductive Binary
  | add | sub | mult | div | modulo | power
  | atan2 | fmod
  | relOr | relAnd
  | bitOr | bitAnd | bitExclOr | rightShiftArith | leftShiftArith | rightShiftLogic
  | notEq | lessThan | lessOrEq | equal | grOrEq | grThan
deriving DecidableEq

inductive Vararg
  | max | min | finite | isNan
deriving DecidableEq

section Eval

variable {F : Type} (A : Arith F)

def Arith.truth (b : Bool) : F := if b then A.one else A.zero

/-- `cast::nint`, narrowed by `c_int`. -/
def Arith.nint (x : F) : F :=
  A.ofI32 (A.cInt (if A.le A.zero x then A.add x A.half else A.sub x A.half))

/-- `cast::imod`, narrowed by `c_int`: NaN for a zero divisor, 0 for a divisor of -1. -/
def Arith.imod (a b : F) : F :=
  if A.cInt b = 0 then A.nan
  else if A.cInt b = -1 then A.zero
  else A.ofI32 ((A.cInt a).srem (A.cInt b))

def Unary.eval : Unary → F → F
  | .neg, a => A.neg a
  | .relNot, a => A.truth (A.eq a A.zero)
  | .bitNot, a => A.ofI32 (~~~ A.d2i a)
  | .nint, a => A.nint a
  | .isInf, a => A.truth (A.isInfinite a)
  | .math f, a => A.math f a

/-- What an operator pushes for the operands `a` and, above it, `b`. -/
def Binary.eval : Binary → F → F → F
  | .add, a, b => A.add a b
  | .sub, a, b => A.sub a b
  | .mult, a, b => A.mul a b
  | .div, a, b => A.div a b
  | .modulo, a, b => A.imod a b
  | .power, a, b => A.powf a b
  | .atan2, a, b => A.atan2 b a
  | .fmod, a, b => A.rem a b
  | .relOr, a, b => A.truth (!A.eq a A.zero || !A.eq b A.zero)
  | .relAnd, a, b => A.truth (!A.eq a A.zero && !A.eq b A.zero)
  | .bitOr, a, b => A.ofI32 (A.d2i a ||| A.d2i b)
  | .bitAnd, a, b => A.ofI32 (A.d2i a &&& A.d2i b)
  | .bitExclOr, a, b => A.ofI32 (A.d2i a ^^^ A.d2i b)
  | .rightShiftArith, a, b => A.ofI32 ((A.d2i a).sshiftRight (A.d2i b &&& 31).toNat)
  | .leftShiftArith, a, b => A.ofI32 (A.d2i a <<< (A.d2i b &&& 31))
  | .rightShiftLogic, a, b => A.ofU32 (A.d2ui a >>> (A.d2ui b &&& 31))
  | .notEq, a, b => A.truth (!A.eq a b)
  | .lessThan, a, b => A.truth (A.lt a b)
  | .lessOrEq, a, b => A.truth (A.le a b)
  | .equal, a, b => A.truth (A.eq a b)
  | .grOrEq, a, b => A.truth (A.le b a)
  | .grThan, a, b => A.truth (A.lt b a)

/-- One step of `MAX`: the running value stays when the deeper operand is smaller or it is NaN. -/
def Arith.maxStep (acc deeper : F) : F := if A.lt deeper acc || A.isNan acc then acc else deeper

/-- One step of `MIN`. -/
def Arith.minStep (acc deeper : F) : F := if A.lt acc deeper || A.isNan acc then acc else deeper

/-- What a function of `n` operands pushes, the stack being given top first; `none` when `MAX` or
`MIN` indexes an empty stack. -/
def Vararg.eval (n : ℕ) : Vararg → List F → Option F
  | .max, [] => none
  | .max, acc :: rest => some ((rest.take (n - 1)).foldl A.maxStep acc)
  | .min, [] => none
  | .min, acc :: rest => some ((rest.take (n - 1)).foldl A.minStep acc)
  | .finite, items => some (A.truth ((items.take n).all A.isFinite))
  | .isNan, items => some (A.truth ((items.take n).any A.isNan))

end Eval

/-- Whole numbers in place of doubles, for programs that are to be run by hand. -/
def wholeArith : Arith Int :=
  { zero := 0, one := 1, half := 0, nan := 0, const := fun _ => 3, math := fun _ x => x,
    neg := fun x => -x, add := fun x y => x + y, sub := fun x y => x - y, mul := fun x y => x * y,
    div := fun x y => x / y, powf := fun x y => x ^ y.toNat, atan2 := fun _ _ => 0,
    rem := fun x y => x % y, eq := fun x y => x == y, lt := fun x y => decide (x < y),
    le := fun x y => decide (x ≤ y), isNan := fun _ => false, isInfinite := fun _ => false,
    isFinite := fun _ => true, toI32 := BitVec.ofInt 32, cInt := BitVec.ofInt 32,
    d2i := BitVec.ofInt 32, d2ui := BitVec.ofInt 32, ofI32 := BitVec.toInt,
    ofU32 := fun b => b.toNat, toBits := BitVec.ofInt 64, ofBits := BitVec.toInt,
    strtod := fun _ => { value := 0, len := 1, erange := false }, random := fun n => n }

end Calc
