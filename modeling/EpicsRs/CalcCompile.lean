/-
**The base calc compiler.**

`postfix.rs` turns a source text into postfix in one pass with a stack of pending operators.  An
operand is written out at once; an operator waits until an element of lower or equal priority
arrives.  A function stays below its closed parenthesis and is written by whatever pops it, with
the number of commas between its parentheses for an argument count.  Beside the program the
compiler keeps the number of values on the stack and the record of missing values.
-/

import EpicsRs.CalcCode
import EpicsRs.CalcHoles

set_option autoImplicit false

namespace Calc

inductive StackEntry
  | neg
  | bang
  | tilde
  | func (f : FuncName)
  | oper (o : Operator)
  | sub
  | lparen (effect : ℤ) (span : ℕ) (args : Bool)
  | vararg (f : FuncName) (effect : ℤ)
  | condEnd
  | store (i : Fin 21)
deriving DecidableEq

/-- `binary_op`: the priority of an operator between two operands. -/
def Operator.pri : Operator → ℕ
  | .orOr | .bitOr | .bitXor => 2
  | .andAnd | .bitAnd | .shr | .shrLogical | .shl => 3
  | .eq | .ne | .lt | .le | .gt | .ge => 5
  | .plus => 6
  | .star | .slash | .percent => 7
  | .caret | .doubleStar => 8

/-- `token_to_binary_opcode`. -/
def Operator.opcode : Operator → Binary
  | .plus => .add
  | .star => .mult
  | .slash => .div
  | .percent => .modulo
  | .caret | .doubleStar => .power
  | .eq => .equal
  | .ne => .notEq
  | .lt => .lessThan
  | .le => .lessOrEq
  | .gt => .grThan
  | .ge => .grOrEq
  | .andAnd => .relAnd
  | .orOr => .relOr
  | .bitAnd => .bitAnd
  | .bitOr => .bitOr
  | .bitXor => .bitExclOr
  | .shl => .leftShiftArith
  | .shr => .rightShiftArith
  | .shrLogical => .rightShiftLogic

/-- A function as an instruction: of one operand, of two, or of any number. -/
inductive FuncKind
  | unary (u : Unary)
  | binary (b : Binary)
  | vararg (v : Vararg)

/-- `func_to_opcode`, with `is_vararg` and `func_arity`. -/
def FuncName.kind : FuncName → FuncKind
  | .abs => .unary (.math .abs)
  | .sqrt | .sqr => .unary (.math .sqrt)
  | .exp => .unary (.math .exp)
  | .log10 => .unary (.math .log10)
  | .logE | .ln => .unary (.math .ln)
  | .sin => .unary (.math .sin)
  | .cos => .unary (.math .cos)
  | .tan => .unary (.math .tan)
  | .asin => .unary (.math .asin)
  | .acos => .unary (.math .acos)
  | .atan => .unary (.math .atan)
  | .atan2 => .binary .atan2
  | .fmod => .binary .fmod
  | .sinh => .unary (.math .sinh)
  | .cosh => .unary (.math .cosh)
  | .tanh => .unary (.math .tanh)
  | .ceil => .unary (.math .ceil)
  | .floor => .unary (.math .floor)
  | .nint => .unary .nint
  | .isNan => .vararg .isNan
  | .isInf => .unary .isInf
  | .finite => .vararg .finite
  | .max => .vararg .max
  | .min => .vararg .min
  | .not => .unary .bitNot

def FuncName.isVararg (f : FuncName) : Bool :=
  match f.kind with
  | .vararg _ => true
  | _ => false

/-- `func_arity`. -/
def FuncName.arity (f : FuncName) : ℕ :=
  match f.kind with
  | .binary _ => 2
  | _ => 1

/-- `func_to_opcode`. -/
def FuncName.opcode {F : Type} (f : FuncName) (n : UInt8) : Op F :=
  match f.kind with
  | .unary u => .unary u
  | .binary b => .binary b
  | .vararg v => .vararg v n

namespace StackEntry

/-- `in_stack_pri`. -/
def pri : StackEntry → ℕ
  | .neg | .bang | .tilde | .func _ | .vararg _ _ => 9
  | .oper o => o.pri
  | .sub => 6
  | .lparen _ _ _ | .condEnd | .store _ => 0

/-- `stack_effect`. -/
def effect : StackEntry → ℤ
  | .neg | .bang | .tilde | .condEnd => 0
  | .func f => 1 - f.arity
  | .oper _ | .sub | .store _ => -1
  | .lparen e _ _ => e
  | .vararg _ e => e

def pushes : StackEntry → ℤ
  | .store _ | .lparen _ _ _ | .condEnd => 0
  | _ => 1

def isBarrier : StackEntry → Bool
  | .lparen _ _ _ => true
  | _ => false

/-- `flush_stack_entry`: the instruction of an entry.  No path of the base compiler flushes a
parenthesis. -/
def opcode {F : Type} : StackEntry → Option (Op F)
  | .neg => some (.unary .neg)
  | .bang => some (.unary .relNot)
  | .tilde => some (.unary .bitNot)
  | .func f => some (f.opcode 1)
  | .oper o => some (.binary o.opcode)
  | .sub => some (.binary .sub)
  | .vararg f e => some (f.opcode (UInt8.ofNat ((1 - e) % 256).toNat))
  | .condEnd => some .condEnd
  | .store i => some (.store i)
  | .lparen _ _ _ => none

end StackEntry

/-- The compiler's state: the program so far and whether its last instruction can be retracted,
the operator stack with its top first, whether an operand is needed, the count of values on the
run-time stack, the missing values, the conditionals whose `:` has not been read, and the number
of `:` read. -/
structure Compiler (F : Type) where
  output : List (Op F)
  last : Bool
  stack : List StackEntry
  operandNeeded : Bool
  depth : ℤ
  holes : Holes
  conds : List (Fork × ℕ)
  elses : ℕ

namespace Compiler

variable {F : Type}

def init : Compiler F :=
  { output := [], last := false, stack := [], operandNeeded := true, depth := 0,
    holes := Holes.init, conds := [], elses := 0 }

/-- `Emitter::op`. -/
def emit (s : Compiler F) (op : Op F) : Compiler F :=
  { s with output := s.output ++ [op], last := true }

/-- `flush`: an entry that has left the stack is written out and its effect charged. -/
def flush (s : Compiler F) (e : StackEntry) : Compiler F :=
  let depth := s.depth + e.effect
  let taken := s.holes.take s.depth (e.pushes - e.effect)
  let holes :=
    match e with
    | .store _ => taken.store depth
    | .condEnd => taken.condEnd depth
    | _ => taken
  let s' := { s with depth := depth, holes := holes }
  match e.opcode with
  | some op => s'.emit op
  | none => s'

/-- Pop and flush entries of the stack as long as `p` holds of the top. -/
def popWhile (p : StackEntry → Bool) : List StackEntry → Compiler F → Compiler F
  | [], s => { s with stack := [] }
  | e :: rest, s => if p e then popWhile p rest (s.flush e) else { s with stack := e :: rest }

def popHigherOrEqual (s : Compiler F) (pri : ℕ) : Compiler F :=
  popWhile (fun e => !e.isBarrier && decide (pri ≤ e.pri)) s.stack s

def popHigherStrict (s : Compiler F) (pri : ℕ) : Compiler F :=
  popWhile (fun e => !e.isBarrier && decide (pri < e.pri)) s.stack s

def popToBarrier (s : Compiler F) : Compiler F := popWhile (fun e => !e.isBarrier) s.stack s

def pushEntry (s : Compiler F) (e : StackEntry) : Compiler F := { s with stack := e :: s.stack }

def literal (s : Compiler F) (op : Op F) : Compiler F :=
  { s.emit op with depth := s.depth + 1, operandNeeded := false }

def prefixEntry (s : Compiler F) (e : StackEntry) : Compiler F :=
  (s.popHigherOrEqual 10).pushEntry e

/-- Whether the parenthesis opens the list of a function of more than one operand. -/
def opensArgs : List StackEntry → Bool
  | .vararg _ _ :: _ => true
  | .func f :: _ => decide (1 < f.arity)
  | _ => false

def operand (s : Compiler F) : Token F → Except CalcError (Compiler F)
  | .number v => .ok (s.literal (.lit v))
  | .var i => .ok (s.literal (.fetch i))
  | .fetchVal => .ok (s.literal .fetchVal)
  | .rndm => .ok (s.literal .random)
  | .const c => .ok (s.literal (.const c))
  | .minus => .ok (s.prefixEntry .neg)
  | .bang => .ok (s.prefixEntry .bang)
  | .tilde => .ok (s.prefixEntry .tilde)
  | .lparen =>
      .ok { s with
        stack := .lparen 0 s.holes.openSpan (opensArgs s.stack) :: s.stack
        holes := s.holes.opening s.depth }
  | .func f => .ok (s.prefixEntry (if f.isVararg then .vararg f 0 else .func f))
  | _ => .error .syntaxError

def infixEntry (s : Compiler F) (pri : ℕ) (e : StackEntry) : Compiler F :=
  { (s.popHigherOrEqual pri).pushEntry e with operandNeeded := true }

/-- The function below a closed parenthesis inherits its effect. -/
def inherit (effect : ℤ) : List StackEntry → List StackEntry
  | .vararg f _ :: rest => .vararg f effect :: rest
  | rest => rest

def rparen (s : Compiler F) : Except CalcError (Compiler F) :=
  let t := s.popToBarrier
  match t.stack with
  | .lparen effect span _ :: rest =>
      .ok { t with stack := inherit effect rest, holes := t.holes.close span t.depth }
  | _ => .error .parenNotOpen

/-- A comma: one more argument is charged to the innermost parenthesis. -/
def comma (s : Compiler F) : Except CalcError (Compiler F) :=
  let t := s.popToBarrier
  match t.stack with
  | .lparen effect span args :: rest =>
      if args then
        let closed := t.holes.close span t.depth
        .ok { t with
          stack := .lparen (effect - 1) closed.openSpan args :: rest
          holes := closed.opening t.depth
          operandNeeded := true }
      else
        .ok { t with stack := .lparen (effect - 1) span args :: rest, operandNeeded := true }
  | _ => .error .badSeparator

/-- A `?`. -/
def question (s : Compiler F) : Compiler F :=
  let t := (s.popHigherStrict 0).emit .condIf
  let depth := t.depth - 1
  let (holes, f) := (t.holes.take t.depth 1).fork depth
  { t with depth := depth, holes := holes, conds := (f, t.elses) :: t.conds, operandNeeded := true }

/-- A `:`. -/
def colon (s : Compiler F) : Except CalcError (Compiler F) :=
  let t := (s.popHigherStrict 0).emit .condElse
  match t.conds with
  | [] => .error .conditional
  | (f, first) :: conds =>
      .ok { t with
        holes := t.holes.branch f t.depth t.elses first
        elses := t.elses + 1
        depth := t.depth - 1
        conds := conds
        stack := .condEnd :: t.stack
        operandNeeded := true }

/-- A `;` ends a whole statement. -/
def semicolon (s : Compiler F) : Except CalcError (Compiler F) :=
  let t := s.popToBarrier
  match t.stack with
  | _ :: _ => .error .parenOpen
  | [] =>
      if t.conds ≠ [] then .error .conditional
      else if 1 < t.depth then .error .tooMany
      else .ok { t with operandNeeded := true }

/-- The argument that the program's last instruction fetches, if it can be retracted. -/
def lastFetch (s : Compiler F) : Option (Fin 21) :=
  if s.last then
    match s.output.getLast? with
    | some (.fetch i) => some i
    | _ => none
  else none

/-- A `:=`, which turns the fetch just written into a store. -/
def assign (s : Compiler F) : Except CalcError (Compiler F) :=
  if s.stack ≠ [] then .error .badAssignment
  else
    match s.lastFetch with
    | none => .error .badAssignment
    | some i =>
        .ok { s with
          output := s.output.dropLast
          last := false
          stack := .store i :: s.stack
          depth := s.depth - 1
          operandNeeded := true }

def operator (s : Compiler F) : Token F → Except CalcError (Compiler F)
  | .oper o => .ok (s.infixEntry o.pri (.oper o))
  | .minus => .ok (s.infixEntry 6 .sub)
  | .rparen => s.rparen
  | .comma => s.comma
  | .question => .ok s.question
  | .colon => s.colon
  | .semicolon => s.semicolon
  | .assign => s.assign
  | _ => .error .syntaxError

def checked (s : Compiler F) : Except CalcError (Compiler F) :=
  if s.depth < 0 then .error .underflow
  else if (stackSize : ℤ) ≤ s.depth then .error .overflow
  else .ok s

def step (s : Compiler F) (tok : Token F) : Except CalcError (Compiler F) :=
  (if s.operandNeeded then s.operand tok else s.operator tok).bind checked

/-- The end of the text: the pending operators are flushed and the result is checked. -/
def ending (s : Compiler F) : Except CalcError (List (Op F)) :=
  let t := s.popToBarrier
  match t.stack with
  | _ :: _ => .error .parenOpen
  | [] =>
      if t.conds ≠ [] then .error .conditional
      else if t.operandNeeded ∨ t.depth ≠ 1 then .error .incomplete
      else if t.holes.refused t.depth then .error .underflow
      else .ok t.output

end Compiler

section Compile

variable {F : Type} (A : Arith F)

/-- The compiler's loop; every element takes at least one character of the text. -/
def compileLoop : ℕ → Compiler F → List Char → Except CalcError (Compiler F)
  | 0, _, _ => .error .internal
  | fuel + 1, s, text => do
      match ← next A s.operandNeeded text with
      | none => return s
      | some (tok, rest) =>
          let t ← s.step tok
          compileLoop fuel t rest

def compileOps (text : List Char) : Except CalcError (List (Op F)) := do
  let s ← compileLoop A (text.length + 1) Compiler.init text
  s.ending

/-- **`calc::compile`** of the base dialect: the bytes of a source text's program. -/
def compile (text : List Char) : Except CalcError (List UInt8) :=
  if text = [] then .error .nullArg
  else do
    let ops ← compileOps A text
    return assemble A ops

end Compile

end Calc
