/-
**The element tables and the lexer of the base calc dialect.**

A source text is read one element at a time.  Which of the two tables is searched depends on the
compiler's state: the operands while an operand is needed, the operators after one.  The longest
name that prefixes the text wins, with no regard to case and no identifier boundary.

Main result: `Calc.next_question`.
-/

import EpicsRs.CalcArith

set_option autoImplicit false

namespace Calc

open Option

/-- `CalcError`, as far as the base dialect raises it; `panic` is an index out of range. -/
inductive CalcError
  | tooMany | badLiteral | parenNotOpen | parenOpen | conditional | incomplete | underflow
  | overflow | syntaxError | nullArg | internal | badSeparator | badAssignment | emptyProgram
  | panic
deriving DecidableEq

inductive FuncName
  | abs | acos | asin | atan | atan2 | ceil | cos | cosh | exp | finite | floor | fmod | isInf
  | isNan | ln | log10 | logE | max | min | nint | not | sin | sinh | sqr | sqrt | tan | tanh
deriving DecidableEq

/-- The operators between two operands, `-` apart. -/
inductive Operator
  | orOr | bitOr | bitXor | andAnd | bitAnd | shr | shrLogical | shl | eq | ne | lt | le | gt | ge
  | plus | star | slash | percent | caret | doubleStar
deriving DecidableEq

inductive Token (F : Type)
  | number (v : F)
  | var (i : Fin 21)
  | fetchVal
  | rndm
  | const (c : ConstName)
  | minus | bang | tilde
  | lparen
  | func (f : FuncName)
  | oper (o : Operator)
  | rparen | comma | semicolon | question | colon | assign
deriving DecidableEq

section Lexer

variable {F : Type}

/-- `BASE_TABLE.operands`, the variables and the literals apart. -/
def operands : List (List Char × Token F) :=
  [(['A', 'B', 'S'], .func .abs), (['A', 'C', 'O', 'S'], .func .acos),
   (['A', 'S', 'I', 'N'], .func .asin), (['A', 'T', 'A', 'N'], .func .atan),
   (['A', 'T', 'A', 'N', '2'], .func .atan2), (['C', 'E', 'I', 'L'], .func .ceil),
   (['C', 'O', 'S'], .func .cos), (['C', 'O', 'S', 'H'], .func .cosh),
   (['D', '2', 'R'], .const .d2r), (['E', 'X', 'P'], .func .exp),
   (['F', 'I', 'N', 'I', 'T', 'E'], .func .finite), (['F', 'L', 'O', 'O', 'R'], .func .floor),
   (['F', 'M', 'O', 'D'], .func .fmod), (['I', 'S', 'I', 'N', 'F'], .func .isInf),
   (['I', 'S', 'N', 'A', 'N'], .func .isNan), (['L', 'N'], .func .ln),
   (['L', 'O', 'G'], .func .log10), (['L', 'O', 'G', 'E'], .func .logE),
   (['M', 'A', 'X'], .func .max), (['M', 'I', 'N'], .func .min),
   (['N', 'I', 'N', 'T'], .func .nint), (['N', 'O', 'T'], .func .not),
   (['P', 'I'], .const .pi), (['R', '2', 'D'], .const .r2d), (['R', 'N', 'D', 'M'], .rndm),
   (['S', 'I', 'N'], .func .sin), (['S', 'I', 'N', 'H'], .func .sinh),
   (['S', 'Q', 'R'], .func .sqr), (['S', 'Q', 'R', 'T'], .func .sqrt),
   (['T', 'A', 'N'], .func .tan), (['T', 'A', 'N', 'H'], .func .tanh),
   (['V', 'A', 'L'], .fetchVal), (['('], .lparen), (['-'], .minus), (['!'], .bang),
   (['~'], .tilde)]

/-- `BASE_TABLE.operators`. -/
def operators : List (List Char × Token F) :=
  [(['A', 'N', 'D'], .oper .bitAnd), (['O', 'R'], .oper .bitOr), (['X', 'O', 'R'], .oper .bitXor),
   (['!', '='], .oper .ne), (['#'], .oper .ne), (['%'], .oper .percent), (['&'], .oper .bitAnd),
   (['&', '&'], .oper .andAnd), ([')'], .rparen), (['*'], .oper .star),
   (['*', '*'], .oper .doubleStar), (['+'], .oper .plus), ([','], .comma), (['-'], .minus),
   (['/'], .oper .slash), ([':'], .colon), ([':', '='], .assign), ([';'], .semicolon),
   (['<'], .oper .lt), (['<', '<'], .oper .shl), (['<', '='], .oper .le), (['='], .oper .eq),
   (['=', '='], .oper .eq), (['>'], .oper .gt), (['>', '='], .oper .ge), (['>', '>'], .oper .shr),
   (['>', '>', '>'], .oper .shrLogical), (['?'], .question), (['^'], .oper .caret),
   (['|'], .oper .bitOr), (['|', '|'], .oper .orOr)]

/-- `c_isspace`. -/
def isSpace (c : Char) : Bool :=
  c == ' ' || c == '\t' || c == '\n' || c == '\x0b' || c == '\x0c' || c == '\r'

/-- `starts_with_ci`: `name` prefixes the text, whatever the case. -/
def startsWithCi (text name : List Char) : Bool :=
  (text.take name.length).map Char.toUpper == name.map Char.toUpper

/-- One entry of `match_symbol`'s search: the longer of the best so far and this one. -/
def betterSymbol (text : List Char) (best : Option (ℕ × Token F)) (entry : List Char × Token F) :
    Option (ℕ × Token F) :=
  if startsWithCi text entry.1 ∧ ∀ b ∈ best, b.1 < entry.1.length then
    some (entry.1.length, entry.2)
  else best

/-- `match_symbol`: the longest name of the list that prefixes the text, and its length. -/
def matchSymbol (symbols : List (List Char × Token F)) (text : List Char) :
    Option (ℕ × Token F) :=
  symbols.foldl (betterSymbol text) none

/-- `match_var`: the operands `A` to `U`. -/
def matchVar : List Char → Option (Fin 21)
  | [] => none
  | c :: _ =>
      let n := c.toUpper.toNat
      if h : 65 ≤ n ∧ n - 65 < 21 then some ⟨n - 65, h.2⟩ else none

/-- `at_literal`: a digit, a point, or one of the words `INF` and `NAN`. -/
def atLiteral : List Char → Bool
  | [] => false
  | c :: rest =>
      c.isDigit || c == '.' || startsWithCi (c :: rest) ['I', 'N', 'F'] ||
        startsWithCi (c :: rest) ['N', 'A', 'N']

def hexDigit (c : Char) : Option ℕ :=
  if c.isDigit then some (c.toNat - 48)
  else if 65 ≤ c.toUpper.toNat ∧ c.toUpper.toNat ≤ 70 then some (c.toUpper.toNat - 55)
  else none

/-- The hexadecimal digits at the head of a text: their value and their number. -/
def hexDigits (acc n : ℕ) : List Char → ℕ × ℕ
  | [] => (acc, n)
  | c :: rest =>
      match hexDigit c with
      | some d => hexDigits (acc * 16 + d) (n + 1) rest
      | none => (acc, n)

def hexLiteral : List Char → Option (ℕ × ℕ)
  | '0' :: x :: d :: rest =>
      if (x = 'x' ∨ x = 'X') ∧ (hexDigit d).isSome then some (hexDigits 0 0 (d :: rest)) else none
  | _ => none

/-- `read_literal`: a 32-bit hexadecimal literal, or what `strtod` makes of the text. -/
def readLiteral (A : Arith F) (text : List Char) : Except CalcError (F × List Char) :=
  match hexLiteral text with
  | some (value, n) =>
      if value < 2 ^ 32 then .ok (A.ofI32 (BitVec.ofNat 32 value), text.drop (n + 2))
      else .error .badLiteral
  | none =>
      if (A.strtod text).len = 0 then .error .badLiteral
      else if (A.strtod text).erange then .error .badLiteral
      else .ok ((A.strtod text).value, text.drop (A.strtod text).len)

def nextSymbol (symbols : List (List Char × Token F)) (text : List Char) :
    Option (Token F × List Char) :=
  (matchSymbol symbols text).map fun p => (p.2, text.drop p.1)

/-- **`Lexer::next`**: the next element of the list that the compiler's state asks for, with the
text after it; `none` at the end of the text. -/
def next (A : Arith F) (operand : Bool) (text : List Char) :
    Except CalcError (Option (Token F × List Char)) :=
  let t := text.dropWhile isSpace
  if t.isEmpty then .ok none
  else if operand then
    if atLiteral t then do
      let (v, rest) ← readLiteral A t
      return some (.number v, rest)
    else
      match nextSymbol operands t with
      | some p => .ok (some p)
      | none =>
          match matchVar t with
          | some i => .ok (some (.var i, t.drop 1))
          | none => .error .syntaxError
  else
    match nextSymbol operators t with
    | some p => .ok (some p)
    | none => .error .syntaxError

/-! ### What is read comes from the text -/

variable {text : List Char}

lemma matchSymbol_mem {symbols n} {tok : Token F} (h : matchSymbol symbols text = some (n, tok)) :
    ∃ name, (name, tok) ∈ symbols ∧ name.length = n ∧ startsWithCi text name := by
  have hfold : ∀ (l : List (List Char × Token F)) (best : Option (ℕ × Token F)),
      l.foldl (betterSymbol text) best = some (n, tok) → best = some (n, tok) ∨
        ∃ name, (name, tok) ∈ l ∧ name.length = n ∧ startsWithCi text name := by
    intro l
    induction l with
    | nil => exact fun best hbest => .inl hbest
    | cons entry l ih =>
      intro best hbest
      rcases ih _ hbest with hbetter | ⟨name, hmem, hname⟩
      · unfold betterSymbol at hbetter
        split_ifs at hbetter with hentry
        · obtain ⟨rfl, rfl⟩ := Prod.mk.inj (some.inj hbetter)
          exact .inr ⟨entry.1, List.mem_cons_self, rfl, hentry.1⟩
        · exact .inl hbetter
      · exact .inr ⟨name, List.mem_cons_of_mem _ hmem, hname⟩
  exact (hfold symbols none h).resolve_left (by simp)

variable {rest : List Char}

lemma readLiteral_drop {A} {v : F} (h : readLiteral A text = .ok (v, rest)) :
    ∃ n, rest = text.drop n := by
  unfold readLiteral at h
  cases hhex : hexLiteral text with
  | some p =>
    simp only [hhex] at h
    split_ifs at h
    exact ⟨p.2 + 2, (Prod.mk.inj (Except.ok.inj h)).2.symm⟩
  | none =>
    simp only [hhex] at h
    split_ifs at h
    exact ⟨(A.strtod text).len, (Prod.mk.inj (Except.ok.inj h)).2.symm⟩

lemma eq_question_of_toUpper {c} (hc : c.toUpper = '?') : c = '?' := by
  unfold Char.toUpper at hc
  split_ifs at hc with hlower
  · exfalso
    have hval := congrArg (fun d : Char => d.val.toNat) hc
    obtain ⟨hlo, hhi⟩ := hlower
    rw [UInt32.le_iff_toNat_le] at hlo hhi
    simp only [UInt32.toNat_add] at hval
    have hshift : ('A'.val - 'a'.val).toNat = 4294967264 := by decide
    have hquestion : ('?').val.toNat = 63 := by decide
    have ha : ('a').val.toNat = 97 := by decide
    have hz : ('z').val.toNat = 122 := by decide
    omega
  · exact hc

lemma question_mem_of_startsWithCi (h : startsWithCi text ['?'] = true) :
    '?' ∈ text := by
  cases text with
  | nil => simp [startsWithCi] at h
  | cons c rest =>
    have hc : c.toUpper = '?' := by simpa [startsWithCi] using h
    rw [eq_question_of_toUpper hc]
    exact List.mem_cons_self

lemma nextSymbol_question {symbols} {tok : Token F}
    (hsymbols : ∀ name, (name, .question) ∈ symbols → name = ['?']) (hq : '?' ∉ text)
    (h : nextSymbol symbols text = some (tok, rest)) :
    tok ≠ .question ∧ '?' ∉ rest := by
  obtain ⟨⟨n, tok'⟩, hmatch, hpair⟩ := map_eq_some_iff.1 h
  obtain ⟨rfl, rfl⟩ := Prod.mk.inj hpair
  obtain ⟨name, hmem, -, hstarts⟩ := matchSymbol_mem hmatch
  refine ⟨?_, fun hmem => hq (List.mem_of_mem_drop hmem)⟩
  intro htok
  subst htok
  rw [hsymbols name hmem] at hstarts
  exact hq (question_mem_of_startsWithCi hstarts)

/-- **A `?` is read only from a text that has one**, and what is left of a text without one has
none. -/
theorem next_question (A : Arith F) {operand} {tok : Token F} (hq : '?' ∉ text)
    (h : next A operand text = .ok (some (tok, rest))) :
    tok ≠ .question ∧ '?' ∉ rest := by
  have ht : '?' ∉ text.dropWhile isSpace := fun hmem =>
    hq ((List.dropWhile_sublist isSpace).subset hmem)
  have hdrop : ∀ n, '?' ∉ (text.dropWhile isSpace).drop n := fun n hmem =>
    ht (List.mem_of_mem_drop hmem)
  simp only [next] at h
  split_ifs at h with hempty hoperand hliteral
  · exact absurd (Except.ok.inj h) (by simp)
  · cases hread : readLiteral A (text.dropWhile isSpace) with
    | error e => rw [hread] at h; cases h
    | ok p =>
      obtain ⟨v, rest'⟩ := p
      rw [hread] at h
      obtain ⟨rfl, rfl⟩ := Prod.mk.inj (some.inj (Except.ok.inj h))
      refine ⟨by simp, ?_⟩
      obtain ⟨n, rfl⟩ : ∃ n, rest' = (text.dropWhile isSpace).drop n := readLiteral_drop hread
      exact hdrop n
  · cases hsym : nextSymbol (F := F) operands (text.dropWhile isSpace) with
    | some p =>
      rw [hsym] at h
      obtain rfl := some.inj (Except.ok.inj h)
      exact nextSymbol_question (by simp [operands]) ht hsym
    | none =>
      rw [hsym] at h
      cases hvar : matchVar (text.dropWhile isSpace) with
      | none => rw [hvar] at h; cases h
      | some i =>
        rw [hvar] at h
        obtain ⟨rfl, rfl⟩ := Prod.mk.inj (some.inj (Except.ok.inj h))
        exact ⟨by simp, hdrop 1⟩
  · cases hsym : nextSymbol (F := F) operators (text.dropWhile isSpace) with
    | none => rw [hsym] at h; cases h
    | some p =>
      rw [hsym] at h
      obtain rfl := some.inj (Except.ok.inj h)
      exact nextSymbol_question (by simp [operators]) ht hsym

end Lexer

end Calc
