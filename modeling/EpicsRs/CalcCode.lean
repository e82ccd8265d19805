/-
**Postfix programs and the machine that runs them.**

A compiled expression is a byte string: one byte for each instruction, and the bytes of a literal or
an argument count.  The evaluator walks it with a stack of at most 80 numbers; where a marker of a
conditional jumps to is found by counting the markers in between.  Evaluator and search are written
over any way to read instructions, for the bytes and for a list, and the two agree.

Main result: `Calc.run_assemble`.
-/

import EpicsRs.CalcToken
import EpicsRs.ByteWords

set_option autoImplicit false

namespace Calc

open List

/-! ### Instructions and their bytes -/

inductive Op (F : Type)
  | lit (v : F)
  | fetchVal
  | fetch (i : Fin 21)
  | store (i : Fin 21)
  | const (c : ConstName)
  | unary (u : Unary)
  | binary (b : Binary)
  | vararg (f : Vararg) (n : UInt8)
  | random
  | condIf | condElse | condEnd
deriving DecidableEq

def ConstName.code : ConstName → ℕ
  | .pi => 46 | .d2r => 47 | .r2d => 48

def Unary.code : Unary → ℕ
  | .neg => 49 | .isInf => 77 | .nint => 79 | .relNot => 83 | .bitNot => 87
  | .math .abs => 56 | .math .exp => 57 | .math .log10 => 58 | .math .ln => 59
  | .math .sqrt => 62 | .math .acos => 63 | .math .asin => 64 | .math .atan => 65
  | .math .cos => 67 | .math .cosh => 68 | .math .sin => 69 | .math .sinh => 70
  | .math .tan => 71 | .math .tanh => 72 | .math .ceil => 73 | .math .floor => 74

def Binary.code : Binary → ℕ
  | .add => 50 | .sub => 51 | .mult => 52 | .div => 53 | .modulo => 54 | .power => 55
  | .atan2 => 66 | .fmod => 75 | .relOr => 81 | .relAnd => 82 | .bitOr => 84 | .bitAnd => 85
  | .bitExclOr => 86 | .rightShiftArith => 88 | .leftShiftArith => 89 | .rightShiftLogic => 90
  | .notEq => 91 | .lessThan => 92 | .lessOrEq => 93 | .equal => 94 | .grOrEq => 95 | .grThan => 96

def Vararg.code : Vararg → ℕ
  | .max => 60 | .min => 61 | .finite => 76 | .isNan => 78

/-- An entry of the decode table: what a byte stands for. -/
inductive Slot (F : Type)
  | done
  | litDouble
  | litInt
  | vararg (f : Vararg)
  | op (o : Op F)

section Code

variable {F : Type}

def slotAbove : ℕ → Option (Slot F)
  | 46 => some (.op (.const .pi)) | 47 => some (.op (.const .d2r))
  | 48 => some (.op (.const .r2d)) | 49 => some (.op (.unary .neg))
  | 50 => some (.op (.binary .add)) | 51 => some (.op (.binary .sub))
  | 52 => some (.op (.binary .mult)) | 53 => some (.op (.binary .div))
  | 54 => some (.op (.binary .modulo)) | 55 => some (.op (.binary .power))
  | 56 => some (.op (.unary (.math .abs))) | 57 => some (.op (.unary (.math .exp)))
  | 58 => some (.op (.unary (.math .log10))) | 59 => some (.op (.unary (.math .ln)))
  | 60 => some (.vararg .max) | 61 => some (.vararg .min)
  | 62 => some (.op (.unary (.math .sqrt))) | 63 => some (.op (.unary (.math .acos)))
  | 64 => some (.op (.unary (.math .asin))) | 65 => some (.op (.unary (.math .atan)))
  | 66 => some (.op (.binary .atan2)) | 67 => some (.op (.unary (.math .cos)))
  | 68 => some (.op (.unary (.math .cosh))) | 69 => some (.op (.unary (.math .sin)))
  | 70 => some (.op (.unary (.math .sinh))) | 71 => some (.op (.unary (.math .tan)))
  | 72 => some (.op (.unary (.math .tanh))) | 73 => some (.op (.unary (.math .ceil)))
  | 74 => some (.op (.unary (.math .floor))) | 75 => some (.op (.binary .fmod))
  | 76 => some (.vararg .finite) | 77 => some (.op (.unary .isInf))
  | 78 => some (.vararg .isNan) | 79 => some (.op (.unary .nint)) | 80 => some (.op .random)
  | 81 => some (.op (.binary .relOr)) | 82 => some (.op (.binary .relAnd))
  | 83 => some (.op (.unary .relNot)) | 84 => some (.op (.binary .bitOr))
  | 85 => some (.op (.binary .bitAnd)) | 86 => some (.op (.binary .bitExclOr))
  | 87 => some (.op (.unary .bitNot)) | 88 => some (.op (.binary .rightShiftArith))
  | 89 => some (.op (.binary .leftShiftArith)) | 90 => some (.op (.binary .rightShiftLogic))
  | 91 => some (.op (.binary .notEq)) | 92 => some (.op (.binary .lessThan))
  | 93 => some (.op (.binary .lessOrEq)) | 94 => some (.op (.binary .equal))
  | 95 => some (.op (.binary .grOrEq)) | 96 => some (.op (.binary .grThan))
  | 97 => some (.op .condIf) | 98 => some (.op .condElse) | 99 => some (.op .condEnd)
  | _ => none

/-- The decode table `BASE`. -/
def slot (b : ℕ) : Option (Slot F) :=
  if b = 0 then some .done
  else if b = 1 then some .litDouble
  else if b = 2 then some .litInt
  else if b = 3 then some (.op .fetchVal)
  else if h : b < 25 then some (.op (.fetch ⟨b - 4, by omega⟩))
  else if h : b < 46 then some (.op (.store ⟨b - 25, by omega⟩))
  else slotAbove b

variable (A : Arith F)

/-- `encode`: the bytes of an instruction.  A literal that is an integer is stored as one. -/
def encode : Op F → List UInt8
  | .lit v =>
      if A.eq v (A.ofI32 (A.toI32 v)) then 2 :: leBytes 4 (A.toI32 v).toNat
      else 1 :: leBytes 8 (A.toBits v).toNat
  | .fetchVal => [3]
  | .fetch i => [UInt8.ofNat (4 + i)]
  | .store i => [UInt8.ofNat (25 + i)]
  | .const c => [UInt8.ofNat c.code]
  | .unary u => [UInt8.ofNat u.code]
  | .binary b => [UInt8.ofNat b.code]
  | .vararg f n => [UInt8.ofNat f.code, n]
  | .random => [80]
  | .condIf => [97]
  | .condElse => [98]
  | .condEnd => [99]

/-- `decode`: the instruction at the head of the code and the code after it; `none` at the end of
the program. -/
def decode : List UInt8 → Except CalcError (Option (Op F) × List UInt8)
  | [] => .ok (none, [])
  | b :: rest =>
      match slot b.toNat with
      | none => .error .internal
      | some .done => .ok (none, rest)
      | some .litInt =>
          if rest.length < 4 then .error .internal
          else .ok (some (.lit (A.ofI32 (BitVec.ofNat 32 (leNat (rest.take 4))))), rest.drop 4)
      | some .litDouble =>
          if rest.length < 8 then .error .internal
          else .ok (some (.lit (A.ofBits (BitVec.ofNat 64 (leNat (rest.take 8))))), rest.drop 8)
      | some (.vararg f) =>
          match rest with
          | [] => .error .internal
          | n :: rest => .ok (some (.vararg f n), rest)
      | some (.op o) => .ok (some o, rest)

/-- `Emitter::finish`: the program's bytes. -/
def assemble (ops : List (Op F)) : List UInt8 := ops.flatMap (encode A) ++ [0]

def Op.stored : Op F → Op F
  | .lit v =>
      if A.eq v (A.ofI32 (A.toI32 v)) then .lit (A.ofI32 (A.toI32 v))
      else .lit (A.ofBits (A.toBits v))
  | op => op

lemma decode_litInt (i : BitVec 32) (rest : List UInt8) :
    decode A (2 :: leBytes 4 i.toNat ++ rest) = .ok (some (.lit (A.ofI32 i)), rest) := by
  have hlen : ¬ (leBytes 4 i.toNat ++ rest).length < 4 := by simp
  have htake : (leBytes 4 i.toNat ++ rest).take 4 = leBytes 4 i.toNat :=
    take_left' (length_leBytes 4 _)
  have hdrop : (leBytes 4 i.toNat ++ rest).drop 4 = rest := drop_left' (length_leBytes 4 _)
  have hlt : i.toNat % 256 ^ 4 = i.toNat := Nat.mod_eq_of_lt i.isLt
  have hslot : slot (F := F) (2 : UInt8).toNat = some .litInt := rfl
  simp only [cons_append, decode, hslot]
  rw [if_neg hlen, htake, hdrop, leNat_leBytes, hlt, BitVec.ofNat_toNat, BitVec.setWidth_eq]

lemma decode_litDouble (x : BitVec 64) (rest : List UInt8) :
    decode A (1 :: leBytes 8 x.toNat ++ rest) = .ok (some (.lit (A.ofBits x)), rest) := by
  have hlen : ¬ (leBytes 8 x.toNat ++ rest).length < 8 := by simp
  have htake : (leBytes 8 x.toNat ++ rest).take 8 = leBytes 8 x.toNat :=
    take_left' (length_leBytes 8 _)
  have hdrop : (leBytes 8 x.toNat ++ rest).drop 8 = rest := drop_left' (length_leBytes 8 _)
  have hlt : x.toNat % 256 ^ 8 = x.toNat := Nat.mod_eq_of_lt x.isLt
  have hslot : slot (F := F) (1 : UInt8).toNat = some .litDouble := rfl
  simp only [cons_append, decode, hslot]
  rw [if_neg hlen, htake, hdrop, leNat_leBytes, hlt, BitVec.ofNat_toNat, BitVec.setWidth_eq]

/-- **An instruction is read back**, a literal as it was stored. -/
theorem decode_encode (op : Op F) (rest : List UInt8) :
    decode A (encode A op ++ rest) = .ok (some (op.stored A), rest) := by
  cases op with
  | lit v =>
    simp only [encode, Op.stored]
    split_ifs with hint
    · exact decode_litInt A (A.toI32 v) rest
    · exact decode_litDouble A (A.toBits v) rest
  | fetchVal => rfl
  | fetch i =>
    have hb : (UInt8.ofNat (4 + i)).toNat = 4 + i := by
      rw [UInt8.toNat_ofNat']
      omega
    have hslot : slot (F := F) (4 + i) = some (.op (.fetch i)) := by
      unfold slot
      rw [if_neg (by omega), if_neg (by omega), if_neg (by omega), if_neg (by omega),
        dif_pos (by omega)]
      simp
    simp only [encode, cons_append, nil_append, decode, hb, hslot, Op.stored]
  | store i =>
    have hb : (UInt8.ofNat (25 + i)).toNat = 25 + i := by
      rw [UInt8.toNat_ofNat']
      omega
    have hslot : slot (F := F) (25 + i) = some (.op (.store i)) := by
      unfold slot
      rw [if_neg (by omega), if_neg (by omega), if_neg (by omega), if_neg (by omega),
        dif_neg (by omega), dif_pos (by omega)]
      simp
    simp only [encode, cons_append, nil_append, decode, hb, hslot, Op.stored]
  | const c => cases c <;> rfl
  | unary u =>
    cases u with
    | math f => cases f <;> rfl
    | _ => rfl
  | binary b => cases b <;> rfl
  | vararg f n => cases f <;> rfl
  | random => rfl
  | condIf => rfl
  | condElse => rfl
  | condEnd => rfl

lemma encode_cons (op : Op F) : ∃ b rest, encode A op = b :: rest ∧ b ≠ 0 := by
  cases op with
  | lit v =>
    simp only [encode]
    split_ifs
    · exact ⟨_, _, rfl, by decide⟩
    · exact ⟨_, _, rfl, by decide⟩
  | fetch i => exact ⟨_, _, rfl, by revert i; decide⟩
  | store i => exact ⟨_, _, rfl, by revert i; decide⟩
  | const c => exact ⟨_, _, rfl, by cases c <;> decide⟩
  | unary u =>
    refine ⟨_, _, rfl, ?_⟩
    cases u with
    | math f => cases f <;> decide
    | _ => decide
  | binary b => exact ⟨_, _, rfl, by cases b <;> decide⟩
  | vararg f n => exact ⟨_, _, rfl, by cases f <;> decide⟩
  | _ => exact ⟨_, _, rfl, by decide⟩

/-! ### The machine -/

/-- The operand stack, top first: at most 80 numbers, and a flag for a push that did not fit. -/
structure Stack (F : Type) where
  items : List F
  overflowed : Bool

/-- `CALCPERFORM_STACK`. -/
def stackSize : ℕ := 80

def Stack.push (s : Stack F) (v : F) : Stack F :=
  if s.items.length < stackSize then { s with items := v :: s.items }
  else { s with overflowed := true }

/-- The evaluator's state: the stack, the argument block with the number of arguments supplied,
the previous result, and how many random numbers were drawn. -/
structure Machine (F : Type) where
  stack : Stack F
  vars : Fin 21 → F
  numArgs : ℕ
  prevVal : F
  drawn : ℕ

namespace Machine

def push (m : Machine F) (v : F) : Machine F := { m with stack := m.stack.push v }

def withItems (m : Machine F) (items : List F) : Machine F :=
  { m with stack := { m.stack with items := items } }

/-- `num_arg`: an argument that was not supplied is 0. -/
def numArg (m : Machine F) (i : Fin 21) : F := if i.val < m.numArgs then m.vars i else A.zero

/-- A store through `num_arg_mut`. -/
def setArg (m : Machine F) (i : Fin 21) (v : F) : Machine F :=
  if i.val < m.numArgs then { m with vars := fun j => if j = i then v else m.vars j } else m

end Machine

def exec (op : Op F) (m : Machine F) : Except CalcError (Machine F) :=
  match op with
  | .lit v => .ok (m.push v)
  | .fetchVal => .ok (m.push m.prevVal)
  | .fetch i => .ok (m.push (m.numArg A i))
  | .const c => .ok (m.push (A.const c))
  | .random => .ok { m.push (A.random m.drawn) with drawn := m.drawn + 1 }
  | .unary u =>
      match m.stack.items with
      | a :: rest => .ok ((m.withItems rest).push (u.eval A a))
      | [] => .error .underflow
  | .binary b =>
      match m.stack.items with
      | y :: x :: rest => .ok ((m.withItems rest).push (b.eval A x y))
      | _ => .error .underflow
  | .vararg f n =>
      if m.stack.items.length < n.toNat then .error .underflow
      else
        match f.eval A n.toNat m.stack.items with
        | some v => .ok ((m.withItems (m.stack.items.drop n.toNat)).push v)
        | none => .error .panic
  | .store i =>
      match m.stack.items with
      | v :: rest => .ok ((m.withItems rest).setArg i v)
      | [] => .error .underflow
  | .condIf | .condElse | .condEnd => .ok m

section Reading

variable {P : Type} (read : P → Except CalcError (Option (Op F) × P))

/-- `cond_search`: go forward to the `COND_ELSE` or `COND_END` that matches, counting the
conditionals in between. -/
def condSearch (findElse : Bool) : ℕ → ℕ → P → Except CalcError P
  | 0, _, _ => .error .internal
  | fuel + 1, count, p =>
      match read p with
      | .error e => .error e
      | .ok (none, _) => .error .conditional
      | .ok (some .condElse, rest) =>
          if findElse then
            if count = 1 then .ok rest else condSearch findElse fuel (count - 1) rest
          else condSearch findElse fuel count rest
      | .ok (some .condEnd, rest) =>
          if findElse then condSearch findElse fuel count rest
          else if count = 1 then .ok rest else condSearch findElse fuel (count - 1) rest
      | .ok (some .condIf, rest) => condSearch findElse fuel (count + 1) rest
      | .ok (some _, rest) => condSearch findElse fuel count rest

/-- The loop of `eval_vars`; `fuel` bounds the number of instructions left. -/
def run : ℕ → P → Machine F → Except CalcError (Machine F)
  | 0, _, _ => .error .internal
  | fuel + 1, p, m =>
      match read p with
      | .error e => .error e
      | .ok (none, _) => .ok m
      | .ok (some .condIf, rest) =>
          match m.stack.items with
          | [] => .error .underflow
          | a :: items =>
              if A.eq a A.zero then do
                let target ← condSearch read true fuel 1 rest
                run fuel target (m.withItems items)
              else run fuel rest (m.withItems items)
      | .ok (some .condElse, rest) => do
          let target ← condSearch read false fuel 1 rest
          run fuel target m
      | .ok (some op, rest) => do
          let m' ← exec A op m
          run fuel rest m'

end Reading

def finish (m : Machine F) : Except CalcError (F × Machine F) :=
  if m.stack.overflowed then .error .overflow
  else
    match m.stack.items with
    | [v] => .ok (v, m)
    | _ => .error .internal

/-- **`eval_vars`**: run a program's bytes on an argument block. -/
def evalVars (code : List UInt8) (m : Machine F) : Except CalcError (F × Machine F) :=
  if code.head? = none ∨ code.head? = some 0 then .error .emptyProgram
  else do
    let m' ← run A (decode A) (code.length + 1) code m
    finish m'

def start (vars : Fin 21 → F) (numArgs : ℕ) (prevVal : F) (drawn : ℕ) : Machine F :=
  { stack := { items := [], overflowed := false }, vars := vars, numArgs := numArgs,
    prevVal := prevVal, drawn := drawn }

/-! ### Bytes and instructions -/

def uncons : List (Op F) → Except CalcError (Option (Op F) × List (Op F))
  | [] => .ok (none, [])
  | op :: rest => .ok (some op, rest)

lemma decode_assemble_nil : decode A (assemble A []) = .ok (none, []) := rfl

lemma decode_assemble_cons (op : Op F) (ops : List (Op F)) :
    decode A (assemble A (op :: ops)) = .ok (some (op.stored A), assemble A ops) := by
  unfold assemble
  rw [flatMap_cons, append_assoc, decode_encode]

/-- Two ways to read a program that see the same instructions. -/
def SameProgram {P Q : Type} (read : P → Except CalcError (Option (Op F) × P))
    (read' : Q → Except CalcError (Option (Op F) × Q)) (R : P → Q → Prop) : Prop :=
  ∀ p q, R p q →
    (∃ p' q', read p = .ok (none, p') ∧ read' q = .ok (none, q')) ∨
      ∃ op p' q', read p = .ok (some op, p') ∧ read' q = .ok (some op, q') ∧ R p' q'

/-- Two searches with the same outcome. -/
inductive SameTarget {P Q : Type} (R : P → Q → Prop) :
    Except CalcError P → Except CalcError Q → Prop
  | ok {p q} (h : R p q) : SameTarget R (.ok p) (.ok q)
  | error (e : CalcError) : SameTarget R (.error e) (.error e)

section Same

variable {P Q : Type} {read : P → Except CalcError (Option (Op F) × P)}
  {read' : Q → Except CalcError (Option (Op F) × Q)} {R : P → Q → Prop}

lemma condSearch_same (hsame : SameProgram read read' R) (findElse : Bool) (fuel : ℕ) :
    ∀ {count p q}, R p q →
      SameTarget R (condSearch read findElse fuel count p) (condSearch read' findElse fuel count q):= by
  induction fuel with
  | zero => intro count p q _; exact .error _
  | succ fuel ih =>
    intro count p q hpq
    rcases hsame p q hpq with ⟨p', q', hp, hq⟩ | ⟨op, p', q', hp, hq, hrest⟩
    · simp only [condSearch, hp, hq]
      exact .error _
    · cases op with
      | condElse =>
        simp only [condSearch, hp, hq]
        split_ifs
        · exact .ok hrest
        · exact ih hrest
        · exact ih hrest
      | condEnd =>
        simp only [condSearch, hp, hq]
        split_ifs
        · exact ih hrest
        · exact .ok hrest
        · exact ih hrest
      | _ =>
        simp only [condSearch, hp, hq]
        exact ih hrest

lemma run_same (hsame : SameProgram read read' R) (fuel : ℕ) :
    ∀ {p q m}, R p q → run A read fuel p m = run A read' fuel q m := by
  induction fuel with
  | zero => intro p q m _; rfl
  | succ fuel ih =>
    intro p q m hpq
    -- a jump goes to the same place in both programs
    have hjump : ∀ {findElse : Bool} {p : P} {q : Q} {m : Machine F}, R p q →
        (do let target ← condSearch read findElse fuel 1 p; run A read fuel target m) =
          (do let target ← condSearch read' findElse fuel 1 q; run A read' fuel target m) := by
      intro findElse p q m hpq
      have hsearch : SameTarget R (condSearch read findElse fuel 1 p)
          (condSearch read' findElse fuel 1 q) := condSearch_same hsame findElse fuel hpq
      generalize condSearch read findElse fuel 1 p = s at hsearch ⊢
      generalize condSearch read' findElse fuel 1 q = s' at hsearch ⊢
      cases hsearch with
      | ok hR => exact ih hR
      | error e => rfl
    rcases hsame p q hpq with ⟨p', q', hp, hq⟩ | ⟨op, p', q', hp, hq, hrest⟩
    · simp only [run, hp, hq]
    · cases op with
      | condIf =>
        simp only [run, hp, hq]
        cases m.stack.items with
        | nil => rfl
        | cons a items =>
          simp only
          split_ifs
          · exact hjump hrest
          · exact ih hrest
      | condElse =>
        simp only [run, hp, hq]
        exact hjump hrest
      | _ =>
        simp only [run, hp, hq]
        congr 1
        funext m'
        exact ih hrest

end Same

/-- **Running the bytes is running the instructions**, literals as they were stored. -/
theorem run_assemble (fuel : ℕ) (ops : List (Op F)) (m : Machine F) :
    run A (decode A) fuel (assemble A ops) m =
      run A uncons fuel (ops.map (Op.stored A)) m := by
  refine run_same A (R := fun code l => ∃ ops, code = assemble A ops ∧ l = ops.map (Op.stored A))
    ?_ fuel ⟨ops, rfl, rfl⟩
  rintro _ _ ⟨ops, rfl, rfl⟩
  cases ops with
  | nil => exact .inl ⟨_, _, decode_assemble_nil A, rfl⟩
  | cons op ops => exact .inr ⟨_, _, _, decode_assemble_cons A op ops, rfl, ops, rfl, rfl⟩

lemma length_le_assemble (ops : List (Op F)) : ops.length < (assemble A ops).length := by
  have hflat : ops.length ≤ (ops.flatMap (encode A)).length := by
    induction ops with
    | nil => simp
    | cons op ops ih =>
      obtain ⟨b, rest, hop, -⟩ := encode_cons A op
      simp only [flatMap_cons, length_append, length_cons, hop]
      omega
  simp only [assemble, length_append, length_singleton]
  omega

/-! ### Straight-line programs -/

def Op.straight : Op F → Bool
  | .condIf | .condElse | .condEnd => false
  | _ => true

def execAll : List (Op F) → Machine F → Except CalcError (Machine F)
  | [], m => .ok m
  | op :: ops, m => do
      let m' ← exec A op m
      execAll ops m'

lemma execAll_append (l l' : List (Op F)) (m : Machine F) :
    execAll A (l ++ l') m = (do let m' ← execAll A l m; execAll A l' m') := by
  induction l generalizing m with
  | nil => rfl
  | cons op l ih =>
    simp only [cons_append, execAll]
    cases exec A op m with
    | error e => rfl
    | ok m' => exact ih m'

/-- **A program without conditionals runs instruction by instruction.** -/
theorem run_straight {ops} (hops : ∀ op ∈ ops, op.straight = true) {fuel}
    (hfuel : ops.length < fuel) (m : Machine F) : run A uncons fuel ops m = execAll A ops m := by
  induction ops generalizing fuel m with
  | nil =>
    obtain ⟨fuel, rfl⟩ : ∃ k, fuel = k + 1 := ⟨fuel - 1, by omega⟩
    rfl
  | cons op ops ih =>
    rw [length_cons] at hfuel
    obtain ⟨fuel, rfl⟩ : ∃ k, fuel = k + 1 := ⟨fuel - 1, by omega⟩
    have hop := hops op mem_cons_self
    have hrest : ∀ m', run A uncons fuel ops m' = execAll A ops m' := fun m' =>
      ih (fun op' h => hops op' (mem_cons_of_mem _ h)) (by omega) m'
    cases op with
    | condIf => simp [Op.straight] at hop
    | condElse => simp [Op.straight] at hop
    | condEnd => simp [Op.straight] at hop
    | _ => simp only [run, uncons, execAll, hrest]

end Code

end Calc
