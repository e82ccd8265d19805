/-
**Escaped arguments of a shell line.**

A line of the IOC shell is trimmed, expanded, trimmed again and split into words and redirects.
`escape_arg` writes an argument so that it comes back as it was; a blank at the end of a line is
trimmed although it is escaped. An argument is its UTF-8 bytes, none of which above 0x7f is
special. What a macro scope makes of a reference is not looked into: an escaped line has none.

Main result: `Iocsh.escaped_args_iff`.
-/

import EpicsRs.MacLib

set_option autoImplicit false

namespace Iocsh

open MacLib List

/-! ### Splitting a line -/

structure ShellScan where
  quote : UInt8
  backslash : Bool

inductive SplitRole
  | separator
  | quote
  | escape
  | data

def ShellScan.isSyntax (s : ShellScan) : Prop := s.quote = 0 ∧ s.backslash = false

instance (s : ShellScan) : Decidable s.isSyntax := inferInstanceAs (Decidable (_ ∧ _))

def ShellScan.feed (s : ShellScan) (c : UInt8) : SplitRole × ShellScan :=
  if s.backslash then (.data, { s with backslash := false })
  else if s.quote ≠ 0 then if c = s.quote then (.quote, { s with quote := 0 }) else (.data, s)
  else if c = byteBackslash then (.escape, { s with backslash := true })
  else if c = byteQuote ∨ c = byteApostrophe then (.quote, { s with quote := c })
  else if c ∈ [0x20, 0x09, byteParenOpen, byteParenClose, byteComma, 0x0d] then (.separator, s)
  else (.data, s)

structure Redirect where
  path : Text
  append : Bool

/-- `Split`: the words, and the redirects by their descriptors. -/
structure Split where
  argv : List Text
  redirects : List (UInt8 × Redirect)

/-- The variables of `split`; a word goes to `argv`, or names the file of a descriptor. -/
structure Splitting extends Split where
  scan : ShellScan
  pending : Option UInt8
  word : Option (Option UInt8 × Text)
  modes : UInt8 → Bool

namespace Splitting

def close (s : Splitting) : Splitting :=
  match s.word with
  | none => s
  | some (none, w) => { s with argv := s.argv ++ [w], word := none }
  | some (some fd, path) =>
    { s with redirects := s.redirects ++ [(fd, ⟨path, s.modes fd⟩)], word := none }

/-- An operator: its descriptor, whether it appends, and the further bytes that it takes. -/
def operator (c : UInt8) (rest : Text) : Option (UInt8 × Bool × ℕ) :=
  if c = 0x3c then some (0, false, 0)
  else if 0x31 ≤ c ∧ c ≤ 0x39 ∧ rest[0]? = some 0x3e then
    if rest[1]? = some 0x3e then some (c - 0x30, true, 2) else some (c - 0x30, false, 1)
  else if c = 0x3e then
    if rest[0]? = some 0x3e then some (1, true, 1) else some (1, false, 0)
  else none

def redirect (s : Splitting) (fd : UInt8) (append : Bool) : Splitting :=
  let s := { s with pending := some fd, modes := Function.update s.modes fd append }.close
  { s with redirects :=
      s.redirects.map fun r => if r.1 = fd then (fd, { r.2 with append := append }) else r }

/-- A word begins, unless it would be a second name for a descriptor. -/
def begin (s : Splitting) : Option Splitting :=
  if s.word.isSome then some s
  else match s.pending with
    | none => some { s with word := some (none, []) }
    | some fd =>
      if s.redirects.any fun r => r.1 == fd then none
      else some { s with pending := none, word := some (some fd, []) }

def push (s : Splitting) (c : UInt8) : Splitting :=
  { s with word := s.word.map fun p => (p.1, p.2 ++ [c]) }

/-- The loop of `split`; `skip` counts the bytes that an operator has taken. -/
def loop : Text → ℕ → Splitting → Splitting
  | [], _, s => s
  | _ :: rest, skip + 1, s => loop rest skip s
  | c :: rest, 0, s =>
    match if s.scan.isSyntax then operator c rest else none with
    | some (fd, append, skip) =>
      if s.pending.isSome then s else loop rest skip (s.redirect fd append)
    | none =>
      let fed : Splitting := { s with scan := (s.scan.feed c).2 }
      match (s.scan.feed c).1 with
      | .escape => loop rest 0 fed
      | .separator => loop rest 0 fed.close
      | .quote => match fed.begin with
        | none => { fed with pending := none }
        | some s => loop rest 0 s
      | .data => match fed.begin with
        | none => { fed with pending := none }
        | some s => loop rest 0 (s.push c)

end Splitting

def split (line : Text) : Except String Split :=
  let s := (Splitting.loop line 0 ⟨⟨[], []⟩, ⟨0, false⟩, none, none, fun _ => false⟩).close
  if s.pending.isSome then .error "Invalid redirection."
  else if s.scan.quote ≠ 0 then .error "Unbalanced quote."
  else if s.scan.backslash then .error "Trailing backslash."
  else .ok s.toSplit

/-! ### Executing a line -/

/-- The bytes of `is_ascii_whitespace`. -/
def whites : List UInt8 := [0x20, 0x09, 0x0a, 0x0c, 0x0d]

def isWhite (c : UInt8) : Bool := c ∈ whites

def trimAscii (t : Text) : Text := (t.dropWhile isWhite).rdropWhile isWhite

/-- Whether the pass over the scope's own definitions comes to an end, and what a reference is
then expanded to, none if it fails. -/
structure MacroScope where
  settles : Bool
  refer : Reference → Option Text

/-- A text that a reference opens is one that is not terminated. -/
def MacroScope.expand (scope : MacroScope) : List Piece → Option Text
  | [] => some []
  | .text t :: ps => if opens t then none else (scope.expand ps).map (t ++ ·)
  | .ref r :: ps => do return (← scope.refer r) ++ (← scope.expand ps)

def expandLine (scope : MacroScope) (raw : Text) : Option Text :=
  if scope.settles then scope.expand (pieces false false raw 0 none) else none

inductive Executed
  | nothing
  | failed
  | error (diag : String)
  | words (s : Split)

def Executed.ofSplit : Except String Split → Executed
  | .ok s => .words s
  | .error diag => .error diag

def executeExpandedLine (line : Text) : Executed :=
  let line := trimAscii line
  if line = [] ∨ line.head? = some 0x23 then .nothing else .ofSplit (split line)

def executeLine (scope : MacroScope) (line : Text) : Executed :=
  let line := trimAscii line
  if line = [] ∨ line.head? = some 0x23 then .nothing
  else match expandLine scope line with
    | none => .failed
    | some expanded => executeExpandedLine expanded

/-! ### Escaping -/

def specials : List UInt8 :=
  whites ++ [byteBackslash, byteQuote, byteApostrophe, byteParenOpen, byteParenClose, byteComma,
    byteDollar, 0x3c, 0x3e]

def escapeByte (c : UInt8) : Text := if c ∈ specials then [byteBackslash, c] else [c]

def escapeArg (arg : Text) : Text :=
  if arg = [] then [byteQuote, byteQuote] else arg.flatMap escapeByte

def escapedArgs : List Text → Text
  | [] => []
  | arg :: args => 0x20 :: (escapeArg arg ++ escapedArgs args)

def isLetter (c : UInt8) : Bool := 0x41 ≤ c && c ≤ 0x5a || 0x61 ≤ c && c ≤ 0x7a

def isNameByte (c : UInt8) : Bool := isLetter c || 0x30 ≤ c && c ≤ 0x39 || c == 0x5f

structure IsName (name : Text) : Prop where
  first : name.head?.any isLetter
  word : ∀ c ∈ name, isNameByte c

def EndsBlank (args : List Text) : Prop :=
  ∃ init arg c, args = init ++ [arg ++ [c]] ∧ isWhite c

/-! ### The two passes over an escaped line -/

/-- Outside quotes, with no redirect: the words so far, and the word that is being built. -/
def within (argv : List Text) (word : Option Text) : Splitting :=
  ⟨⟨argv, []⟩, ⟨0, false⟩, none, word.map fun w => (none, w), fun _ => false⟩

/-- A digit before this text is no part of an operator. -/
def Quiet (rest : Text) : Prop := rest[0]? ≠ some 0x3e

/-- The expansion copies this text, whatever follows. -/
def Neutral (t : Text) : Prop := ∀ (scope : MacroScope) (rest : Text),
  scope.expand (pieces false false (t ++ rest) 0 none)
    = (scope.expand (pieces false false rest 0 none)).map (t ++ ·)

open Splitting

variable {argv : List Text} {t u rest : Text} {scope : MacroScope} {c : UInt8}

lemma quiet_cons (hc : c ≠ 0x3e) : Quiet (c :: rest) := by
  simpa [Quiet] using hc

lemma loop_escapeByte (c : UInt8) (hrest : Quiet rest) (word : Option Text) :
    loop (escapeByte c ++ rest) 0 (within argv word)
      = loop rest 0 (within argv (some (word.getD [] ++ [c]))) := by
  rw [escapeByte]
  split
  next => cases word <;> rfl
  next hc =>
    simp [specials, whites] at hc
    rw [Quiet] at hrest
    have hoperator : operator c rest = none := by simp [operator, hc, hrest]
    have hfeed : ShellScan.feed ⟨0, false⟩ c = (.data, ⟨0, false⟩) := by simp [ShellScan.feed, hc]
    rw [singleton_append, loop]
    simp only [within, hoperator, ite_self, hfeed]
    cases word <;> rfl

lemma quiet_flatMap (t : Text) (hrest : Quiet rest) : Quiet (t.flatMap escapeByte ++ rest) := by
  cases t with
  | nil => exact hrest
  | cons c t =>
    rw [flatMap_cons, escapeByte]
    split
    next => exact quiet_cons (by decide)
    next hc => exact quiet_cons fun h => hc (h ▸ by decide)

lemma loop_flatMap (t : Text) (hrest : Quiet rest) (word : Option Text) :
    loop (t.flatMap escapeByte ++ rest) 0 (within argv word)
      = loop rest 0 (within argv (if t = [] then word else some (word.getD [] ++ t))) := by
  induction t generalizing word with
  | nil => rfl
  | cons c t ih =>
    rw [flatMap_cons, append_assoc, loop_escapeByte c (quiet_flatMap t hrest), ih]
    cases t <;> simp

lemma loop_escapeArg (arg : Text) (hrest : Quiet rest) :
    loop (escapeArg arg ++ rest) 0 (within argv none) = loop rest 0 (within argv (some arg)) := by
  by_cases harg : arg = []
  · subst harg
    rfl
  · rw [escapeArg, if_neg harg, loop_flatMap arg hrest, if_neg harg]
    rfl

lemma quiet_escapedArgs (args : List Text) (hrest : Quiet rest) :
    Quiet (escapedArgs args ++ rest) := by
  cases args with
  | nil => exact hrest
  | cons arg args => exact quiet_cons (by decide)

lemma loop_escapedArgs (args : List Text) (hrest : Quiet rest) (argv : List Text) (w : Text) :
    ∃ argv' w', argv' ++ [w'] = argv ++ w :: args ∧
      loop (escapedArgs args ++ rest) 0 (within argv (some w))
        = loop rest 0 (within argv' (some w')) := by
  induction args generalizing argv w with
  | nil => exact ⟨argv, w, rfl, rfl⟩
  | cons arg args ih =>
    obtain ⟨argv', w', hwords, hloop⟩ := ih (argv ++ [w]) arg
    refine ⟨argv', w', by rw [hwords, append_assoc, singleton_append], ?_⟩
    rw [← hloop, ← loop_escapeArg arg (quiet_escapedArgs args hrest), escapedArgs, cons_append,
      append_assoc]
    rfl

lemma Neutral.append (ht : Neutral t) (hu : Neutral u) : Neutral (t ++ u) := by
  intro scope rest
  rw [append_assoc, ht, hu, Option.map_map]
  exact congrArg (Option.map · _) (funext fun x => (append_assoc t u x).symm)

lemma pieces_byte {quote} (hback : c ≠ byteBackslash) (hdollar : c ≠ byteDollar) :
    pieces false false (c :: rest) 0 quote
      = .text [c] :: pieces false false rest 0 (nextQuote quote c) := by
  have hopens : opens (c :: rest) = false := by
    cases rest <;> simp [opens, hdollar]
  simp [pieces, hback, hopens]

lemma neutral_byte (hback : c ≠ byteBackslash) (hdollar : c ≠ byteDollar)
    (hquote : nextQuote none c = none) : Neutral [c] := by
  intro scope rest
  rw [singleton_append, pieces_byte hback hdollar, hquote]
  rfl

lemma neutral_flatMap (t : Text) : Neutral (t.flatMap escapeByte) := by
  induction t with
  | nil => exact fun scope rest => by simp
  | cons c t ih =>
    refine Neutral.append ?_ ih
    rw [escapeByte]
    split
    next =>
      intro scope rest
      rw [cons_append, cons_append, nil_append, pieces]
      rfl
    next hc =>
      simp [specials, whites] at hc
      exact neutral_byte (by simp [hc]) (by simp [hc]) (by simp [nextQuote, hc])

lemma neutral_escapeArg (arg : Text) : Neutral (escapeArg arg) := by
  rw [escapeArg]
  split
  · intro scope rest
    rw [cons_append, cons_append, nil_append, pieces_byte (by decide) (by decide),
      pieces_byte (by decide) (by decide)]
    simp [MacroScope.expand, opens, nextQuote]
    rfl
  · exact neutral_flatMap arg

lemma neutral_blank : Neutral [0x20] := neutral_byte (by decide) (by decide) (by decide)

lemma neutral_escapedArgs (args : List Text) : Neutral (escapedArgs args) := by
  induction args with
  | nil => exact neutral_flatMap []
  | cons arg args ih => exact neutral_blank.append ((neutral_escapeArg arg).append ih)

/-! ### Whole lines -/

variable {name : Text} {args : List Text}

lemma IsName.ne_nil (h : IsName name) : name ≠ [] := by
  rintro rfl
  exact absurd h.first (by decide)

lemma IsName.escapeArg_eq (h : IsName name) : escapeArg name = name := by
  have hplain : ∀ c ∈ name, escapeByte c = [c] := fun c hc => if_neg fun hspecial =>
    (by decide +kernel : ∀ s ∈ specials, ¬ isNameByte s) c hspecial (h.word c hc)
  rw [escapeArg, if_neg h.ne_nil, flatMap_congr hplain, flatMap_singleton']

lemma IsName.head (h : IsName name) (rest : Text) :
    (name ++ rest).dropWhile isWhite = name ++ rest ∧ (name ++ rest).head? ≠ some 0x23 := by
  obtain ⟨c, t, rfl⟩ := exists_cons_of_ne_nil h.ne_nil
  have hc : isLetter c := h.first
  refine ⟨dropWhile_cons_of_neg fun hwhite => ?_, fun hhash => ?_⟩
  · exact (by decide +kernel : ∀ s ∈ whites, ¬ isLetter s) c (by simpa [isWhite] using hwhite) hc
  · cases hhash
    exact absurd hc (by decide)

lemma executeLine_eq (h : IsName name) (line : Text) (htrim : trimAscii line = name ++ rest)
    (hlast : (name ++ rest).rdropWhile isWhite = name ++ rest)
    (hexpand : scope.expand (pieces false false (name ++ rest) 0 none) = some (name ++ rest))
    (hsettles : scope.settles = true) :
    executeLine scope line = .ofSplit (split (name ++ rest)) := by
  have hne : ¬ (name ++ rest = [] ∨ (name ++ rest).head? = some 0x23) := by
    rintro (hnil | hhash)
    · exact h.ne_nil (append_eq_nil_iff.mp hnil).1
    · exact (h.head rest).2 hhash
  have htrim' : trimAscii (name ++ rest) = name ++ rest := by
    rw [trimAscii, (h.head rest).1, hlast]
  simp only [executeLine, htrim, if_neg hne, expandLine, hsettles, if_true, hexpand,
    executeExpandedLine, htrim']

lemma loop_line (h : IsName name) (args : List Text) (hrest : Quiet rest) :
    ∃ argv w, argv ++ [w] = name :: args ∧
      loop (name ++ (escapedArgs args ++ rest)) 0 (within [] none)
        = loop rest 0 (within argv (some w)) := by
  obtain ⟨argv, w, hwords, hloop⟩ := loop_escapedArgs args hrest [] name
  refine ⟨argv, w, hwords, ?_⟩
  nth_rewrite 1 [← h.escapeArg_eq]
  rw [loop_escapeArg name (quiet_escapedArgs args hrest), hloop]

lemma split_eq (line : Text) : split line =
    let s := (loop line 0 (within [] none)).close
    if s.pending.isSome then .error "Invalid redirection."
    else if s.scan.quote ≠ 0 then .error "Unbalanced quote."
    else if s.scan.backslash then .error "Trailing backslash."
    else .ok s.toSplit :=
  rfl

lemma split_line (h : IsName name) (args : List Text) :
    split (name ++ escapedArgs args) = .ok ⟨name :: args, []⟩ := by
  obtain ⟨argv, w, hwords, hloop⟩ := @loop_line [] name h args (by simp [Quiet])
  rw [append_nil] at hloop
  rw [split_eq, hloop, ← hwords]
  rfl

/-- The line without the blank that its last backslash escapes. -/
def cutArgs (init : List Text) (arg : Text) : Text :=
  escapedArgs init ++ 0x20 :: (arg.flatMap escapeByte ++ [byteBackslash])

lemma split_cut (h : IsName name) (init : List Text) (arg : Text) :
    split (name ++ cutArgs init arg) = .error "Trailing backslash." := by
  obtain ⟨argv, w, -, hloop⟩ := @loop_line (0x20 :: (arg.flatMap escapeByte ++ [byteBackslash]))
    name h init (quiet_cons (by decide))
  have hspace : loop (0x20 :: (arg.flatMap escapeByte ++ [byteBackslash])) 0 (within argv (some w))
      = loop (arg.flatMap escapeByte ++ [byteBackslash]) 0 (within (argv ++ [w]) none) := rfl
  rw [split_eq, cutArgs, hloop, hspace, loop_flatMap arg (quiet_cons (by decide))]
  split <;> rfl

lemma escapedArgs_concat (init : List Text) (arg : Text) :
    escapedArgs (init ++ [arg]) = escapedArgs init ++ 0x20 :: escapeArg arg := by
  induction init with
  | nil => simp [escapedArgs]
  | cons a init ih => simp [escapedArgs, ih]

lemma escapeArg_concat (arg : Text) (c : UInt8) :
    escapeArg (arg ++ [c]) = arg.flatMap escapeByte ++ escapeByte c := by
  simp [escapeArg]

lemma rdropWhile_line (h : IsName name) (hblank : ¬ EndsBlank args) :
    (name ++ escapedArgs args).rdropWhile isWhite = name ++ escapedArgs args := by
  obtain ⟨pre, b, hline, hb⟩ : ∃ pre b, name ++ escapedArgs args = pre ++ [b] ∧ ¬ isWhite b := by
    rcases eq_nil_or_concat' args with rfl | ⟨init, arg, rfl⟩
    · obtain ⟨pre, b, rfl⟩ := (eq_nil_or_concat' name).resolve_left h.ne_nil
      refine ⟨pre, b, append_nil _, fun hwhite => ?_⟩
      exact (by decide +kernel : ∀ s ∈ whites, ¬ isNameByte s) b (by simpa [isWhite] using hwhite)
        (h.word b (by simp))
    · rw [escapedArgs_concat]
      rcases eq_nil_or_concat' arg with rfl | ⟨arg, c, rfl⟩
      · exact ⟨name ++ (escapedArgs init ++ [0x20, byteQuote]), byteQuote, by simp [escapeArg],
          by decide⟩
      · have hc : ¬ isWhite c := fun hc => hblank ⟨init, arg, c, rfl, hc⟩
        rw [escapeArg_concat, escapeByte]
        split
        · exact ⟨name ++ (escapedArgs init ++ 0x20 :: (arg.flatMap escapeByte ++ [byteBackslash])),
            c, by simp, hc⟩
        · exact ⟨name ++ (escapedArgs init ++ 0x20 :: arg.flatMap escapeByte), c, by simp, hc⟩
  rw [hline]
  exact rdropWhile_concat_neg _ _ _ hb

lemma expand_of_neutral (h : IsName name) (ht : Neutral t)
    (hu : scope.expand (pieces false false u 0 none) = some u) :
    scope.expand (pieces false false (name ++ (t ++ u)) 0 none) = some (name ++ (t ++ u)) := by
  have hname : Neutral name := h.escapeArg_eq ▸ neutral_escapeArg name
  rw [hname, ht, hu]
  rfl

/-- An escaped blank at the end of the line is trimmed, and the backslash before it is left. -/
lemma executeLine_blank (h : IsName name) (hsettles : scope.settles = true) (init : List Text)
    (arg : Text) (hc : isWhite c) : executeLine scope
      (name ++ escapedArgs (init ++ [arg ++ [c]])) = .error "Trailing backslash." := by
  have hspecial : c ∈ specials := mem_append_left _ (by simpa [isWhite] using hc)
  have hline : name ++ escapedArgs (init ++ [arg ++ [c]]) = name ++ cutArgs init arg ++ [c] := by
    simp [escapedArgs_concat, escapeArg_concat, escapeByte, hspecial, cutArgs]
  have hcut : cutArgs init arg
      = (escapedArgs init ++ ([0x20] ++ arg.flatMap escapeByte)) ++ [byteBackslash] := by
    simp [cutArgs]
  have hlast : (name ++ cutArgs init arg).rdropWhile isWhite = name ++ cutArgs init arg := by
    rw [hcut, ← append_assoc]
    exact rdropWhile_concat_neg _ _ _ (by decide)
  have htrim : trimAscii (name ++ cutArgs init arg ++ [c]) = name ++ cutArgs init arg := by
    rw [trimAscii, append_assoc, (h.head _).1, ← append_assoc, rdropWhile_concat_pos _ _ _ hc,
      hlast]
  have hexpand : scope.expand (pieces false false (name ++ cutArgs init arg) 0 none)
      = some (name ++ cutArgs init arg) := by
    rw [hcut]
    exact expand_of_neutral h
      ((neutral_escapedArgs init).append (neutral_blank.append (neutral_flatMap arg))) rfl
  rw [hline, executeLine_eq h _ htrim hlast hexpand hsettles, split_cut h]
  rfl

end Iocsh
