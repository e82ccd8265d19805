/-
**The macro expansion engine.**

`mac_lib.rs` expands `$(name=default,key=value,…)` references against a table of definitions:
`trans` scans a text, and `refer` translates the name of a reference, defines its scoped macros and
translates what it finds.  The only guard against a macro that refers to itself is the `visited`
mark of its entry.

The scan does not look at the table and is modelled on its own (`pieces`, `reference`).  A
translation is given the depth of nested translations it may use, and stops when it would go deeper.
The environment fallback is off, and diagnostics, by which nothing is decided, are left out.

Main results: `MacLib.reference_parts_lt`, `MacLib.pieces_of_noRef`.
-/

import Mathlib

set_option autoImplicit false

namespace MacLib

open List Option

abbrev Text := List UInt8

abbrev byteDollar : UInt8 := 0x24
abbrev byteQuote : UInt8 := 0x22
abbrev byteApostrophe : UInt8 := 0x27
abbrev byteParenOpen : UInt8 := 0x28
abbrev byteParenClose : UInt8 := 0x29
abbrev byteComma : UInt8 := 0x2c
abbrev byteEquals : UInt8 := 0x3d
abbrev byteBackslash : UInt8 := 0x5c
abbrev byteBraceOpen : UInt8 := 0x7b
abbrev byteBraceClose : UInt8 := 0x7d

/-! ### The scan of a reference -/

/-- A reference opens here: a dollar sign with a bracket right after it. -/
def opens : Text → Bool
  | c :: d :: _ => c == byteDollar && (d == byteParenOpen || d == byteBraceOpen)
  | _ => false

def hasRef : Text → Bool
  | [] => false
  | c :: rest => opens (c :: rest) || hasRef rest

def isClose (c : UInt8) : Bool := c == byteParenClose || c == byteBraceClose

/-- `refer`'s search for the closing bracket: the body before it and the text after it.  `bracket`
says that the next byte is the bracket of a nested opener, which is stepped over. -/
def scanClose (close : UInt8) : ℕ → Bool → Text → Option (Text × Text)
  | _, _, [] => none
  | depth, true, c :: rest => (scanClose close depth false rest).map fun p => (c :: p.1, p.2)
  | depth, false, c :: rest =>
      if opens (c :: rest) then
        (scanClose close (depth + 1) true rest).map fun p => (c :: p.1, p.2)
      else if depth = 1 ∧ c = close then some ([], rest)
      else if 1 < depth ∧ isClose c then
        (scanClose close (depth - 1) false rest).map fun p => (c :: p.1, p.2)
      else (scanClose close depth false rest).map fun p => (c :: p.1, p.2)

/-- The text before and from the first byte of `ends` outside nested references. -/
def topLevelSplit (ends : UInt8 → Bool) : ℕ → Bool → Text → Text × Text
  | _, _, [] => ([], [])
  | depth, true, c :: rest =>
      let p := topLevelSplit ends depth false rest
      (c :: p.1, p.2)
  | depth, false, c :: rest =>
      if opens (c :: rest) then
        let p := topLevelSplit ends (depth + 1) true rest
        (c :: p.1, p.2)
      else if isClose c ∧ 0 < depth then
        let p := topLevelSplit ends (depth - 1) false rest
        (c :: p.1, p.2)
      else if depth = 0 ∧ ends c then ([], c :: rest)
      else
        let p := topLevelSplit ends depth false rest
        (c :: p.1, p.2)

/-- `top_level_terminator`: split at the first `=` or `,`. -/
def topLevelTerminator (t : Text) : Text × Text :=
  topLevelSplit (fun c => c == byteEquals || c == byteComma) 0 false t

/-- `top_level_comma`: split at the first `,`. -/
def topLevelComma (t : Text) : Text × Text := topLevelSplit (fun c => c == byteComma) 0 false t

/-- `parse_scoped`'s reading of a `,key=value,…` tail, one definition for each comma.  `n` is the
length of the tail, which every definition shortens. -/
def scopedDefs : ℕ → Text → List (Text × Option Text)
  | 0, _ => []
  | _, [] => []
  | n + 1, c :: seg =>
      if c = byteComma then
        let p := topLevelTerminator seg
        match p.2 with
        | [] => [(p.1, none)]
        | d :: tail =>
            if d = byteEquals then
              let q := topLevelComma tail
              (p.1, some q.1) :: scopedDefs n q.2
            else (p.1, none) :: scopedDefs n (d :: tail)
      else []

/-- A reference as it is written: its name, its default and its scoped definitions, all raw. -/
structure Reference where
  name : Text
  default : Option Text
  defs : Option (List (Text × Option Text))
deriving DecidableEq

def defParts (d : Text × Option Text) : List Text := d.1 :: d.2.toList

def Reference.parts (r : Reference) : List Text :=
  r.name :: (r.default.toList ++ (r.defs.getD []).flatMap defParts)

/-- The scoped definitions behind a name or a default, if a comma follows. -/
def scopedTail : Text → Option (List (Text × Option Text))
  | [] => none
  | c :: rest => some (scopedDefs (rest.length + 1) (c :: rest))

/-- `refer`'s split of the body between the brackets. -/
def readBody (body : Text) : Reference :=
  let p := topLevelTerminator body
  match p.2 with
  | [] => { name := p.1, default := none, defs := none }
  | c :: rest =>
      if c = byteEquals then
        let q := topLevelComma rest
        { name := p.1, default := some q.1, defs := scopedTail q.2 }
      else { name := p.1, default := none, defs := scopedTail (c :: rest) }

/-- The reference at the head of a text with the number of bytes it takes, or `none` when its
closing bracket is missing. -/
def reference : Text → Option (Reference × ℕ)
  | _ :: d :: rest =>
      let close := if d = byteParenOpen then byteParenClose else byteBraceClose
      (scanClose close 1 false rest).map fun p => (readBody p.1, p.1.length + 3)
  | _ => none

/-! ### The scan of a text -/

/-- A stretch of output text, or a reference to translate. -/
inductive Piece
  | text (t : Text)
  | ref (r : Reference)
deriving DecidableEq

/-- `trans`'s quote state after the byte `c`. -/
def nextQuote (quote : Option UInt8) (c : UInt8) : Option UInt8 :=
  match quote with
  | some q => if c = q then none else some q
  | none => if c = byteQuote ∨ c = byteApostrophe then some c else none

/-- **The scan of `trans`.**  Quotes and backslashes are dropped when `discard` is set; `skip`
counts the bytes a step has already consumed. -/
def pieces (dollarEscape discard : Bool) : Text → ℕ → Option UInt8 → List Piece
  | [], _, _ => []
  | _ :: rest, skip + 1, quote => pieces dollarEscape discard rest skip quote
  | c :: rest, 0, quote =>
      let quote' := nextQuote quote c
      if discard ∧ quote' ≠ quote then pieces dollarEscape discard rest 0 quote'
      else if dollarEscape ∧ c = byteDollar ∧ rest.head? = some byteDollar then
        .text [c] :: pieces dollarEscape discard rest 1 quote'
      else if c = byteBackslash ∧ rest ≠ [] then
        .text ((if discard then [] else [c]) ++ rest.take 1) ::
          pieces dollarEscape discard rest 1 quote'
      else if opens (c :: rest) ∧ quote' ≠ some byteApostrophe then
        match reference (c :: rest) with
        -- an unterminated reference is copied through together with everything after it
        | none => [.text (c :: rest)]
        | some (r, used) => .ref r :: pieces dollarEscape discard rest (used - 1) quote'
      else .text [c] :: pieces dollarEscape discard rest 0 quote'

/-! ### The macro table -/

/-- `MacEntry`: a definition, or a scope marker when `special` is set. -/
structure MacEntry where
  name : Text
  rawval : Text
  value : Option Text
  visited : Bool
  special : Bool
  level : ℕ
deriving DecidableEq

def MacEntry.fresh (name rawval : Text) (level : ℕ) : MacEntry :=
  { name := name, rawval := rawval, value := none, visited := false, special := false,
    level := level }

/-- `MacroExpandOptions`, the environment fallback being off. -/
structure MacroExpandOptions where
  dollarEscape : Bool
  suppressWarnings : Bool
deriving DecidableEq

/-- `MacroTable`: the entries, newest last, the number of open scopes, and whether the cached
values are out of date.  The options never change and are passed beside it. -/
structure MacroTable where
  entries : List MacEntry
  level : ℕ
  dirty : Bool
deriving DecidableEq

/-- `rposition`, with the element found. -/
def rposition {α : Type} (p : α → Bool) : List α → Option (ℕ × α)
  | [] => none
  | a :: l =>
      match rposition p l with
      | some (i, b) => some (i + 1, b)
      | none => if p a then some (0, a) else none

/-- The bytes of `<scope>`, the name of a scope marker. -/
def scopeName : Text := [0x3c, 0x73, 0x63, 0x6f, 0x70, 0x65, 0x3e]

namespace MacroTable

/-- `MacroTable::new`: one entry for each definition, nothing expanded yet. -/
def new (defs : List (Text × Text)) : MacroTable :=
  { entries := defs.map fun d => MacEntry.fresh d.1 d.2 0, level := 0, dirty := true }

/-- `lookup`: the newest definition of a name, never a scope marker. -/
def lookup (t : MacroTable) (name : Text) : Option (ℕ × MacEntry) :=
  rposition (fun e => !e.special && e.name == name) t.entries

def push (t : MacroTable) (name rawval : Text) : MacroTable :=
  { t with entries := t.entries ++ [MacEntry.fresh name rawval t.level], dirty := true }

/-- A new value for entry `i`. -/
def overwrite (t : MacroTable) (i : ℕ) (e : MacEntry) (rawval : Text) : MacroTable :=
  { t with
    entries := t.entries.set i { e with rawval := rawval, value := none }
    dirty := true }

/-- `put`: overwrite the definition of the current scope, or shadow that of an outer one. -/
def put (t : MacroTable) (name rawval : Text) : MacroTable :=
  match t.lookup name with
  | some (i, e) => if t.level ≤ e.level then t.overwrite i e rawval else t.push name rawval
  | none => t.push name rawval

/-- The entry `push_scope` adds. -/
def marker (level : ℕ) : MacEntry :=
  { name := scopeName, rawval := [], value := none, visited := false, special := true,
    level := level }

def pushScope (t : MacroTable) : MacroTable :=
  { t with level := t.level + 1, entries := t.entries ++ [marker (t.level + 1)] }

/-- `pop_scope`: drop the newest marker and everything behind it. -/
def popScope (t : MacroTable) : MacroTable :=
  match rposition (fun e => e.special) t.entries with
  | some (i, _) => { entries := t.entries.take i, level := t.level - 1, dirty := true }
  | none => t

/-- Raise or lower the `visited` mark of an entry. -/
def setVisited (t : MacroTable) (i : ℕ) (b : Bool) : MacroTable :=
  { t with entries := t.entries.modify i fun e => { e with visited := b } }

end MacroTable

/-- `ExpandCtx`: the table and the suppression flag, with a record of the scoped definitions whose
text was translated. -/
structure ExpandCtx where
  table : MacroTable
  suppressed : Bool
  scopedTexts : List Text
deriving DecidableEq

/-- The translation would nest deeper than it is allowed to. -/
inductive TooDeep
  | mk
deriving DecidableEq

/-- A translation: it changes the engine's state, and stops when it gets too deep. -/
abbrev Expand := EStateM TooDeep ExpandCtx

namespace ExpandCtx

def withTable (c : ExpandCtx) (f : MacroTable → MacroTable) : ExpandCtx :=
  { c with table := f c.table }

def setSuppressed (c : ExpandCtx) (b : Bool) : ExpandCtx := { c with suppressed := b }

/-- The state in which the raw value of entry `i` is translated. -/
def enter (c : ExpandCtx) (i : ℕ) (e : MacEntry) : ExpandCtx :=
  { c with
    table := c.table.setVisited i true
    scopedTexts := if e.level = 0 then c.scopedTexts else e.rawval :: c.scopedTexts }

end ExpandCtx

/-! ### The translation -/

/-- The bytes of `,undefined`. -/
def undefinedTail : Text := [0x2c, 0x75, 0x6e, 0x64, 0x65, 0x66, 0x69, 0x6e, 0x65, 0x64]

/-- The bytes of `,recursive`. -/
def recursiveTail : Text := [0x2c, 0x72, 0x65, 0x63, 0x75, 0x72, 0x73, 0x69, 0x76, 0x65]

/-- What is written for a reference that is not resolved. -/
def placeholder (name why : Text) (suppressed : Bool) : Text :=
  [byteDollar, byteParenOpen] ++ name ++ (if suppressed then [] else why) ++ [byteParenClose]

def suppressing {α : Type} (body : Expand α) : Expand α := do
  let saved := (← get).suppressed
  modify fun c : ExpandCtx => c.setSuppressed true
  let out ← body
  modify fun c : ExpandCtx => c.setSuppressed saved
  return out

section Recursion

-- the translation of a text at a level, one nesting deeper
variable (recur : Text → ℕ → Expand Text)

/-- `parse_scoped`: translate and install the scoped definitions one after another. -/
def parseScoped (level : ℕ) : List (Text × Option Text) → Expand Unit
  | [] => return ()
  | (name, value) :: rest => do
      let sname ← suppressing (recur name (level + 1))
      match value with
      | none => parseScoped level rest
      | some v => do
          let sval ← suppressing (recur v (level + 1))
          modify fun c : ExpandCtx => c.withTable fun t => t.put sname sval
          parseScoped level rest

/-- The second half of `refer`: what a translated name stands for. -/
def resolve (level : ℕ) (name : Text) (default : Option Text) : Expand Text := do
  let c ← get
  match c.table.lookup name with
  | some (i, e) =>
      if e.visited then return placeholder name recursiveTail c.suppressed
      else if c.table.dirty then do
        modify fun c : ExpandCtx => c.enter i e
        let out ← recur e.rawval (level + 1)
        modify fun c : ExpandCtx => c.withTable fun t => t.setVisited i false
        return out
      else return e.value.getD []
  | none =>
      match default with
      | some d => recur d (level + 1)
      | none => return placeholder name undefinedTail c.suppressed

/-- **`refer`**: translate the name, open a scope for the scoped definitions, resolve the name and
close the scope. -/
def refer (level : ℕ) (r : Reference) : Expand Text := do
  let name ← suppressing (recur r.name (level + 1))
  match r.defs with
  | none => resolve recur level name r.default
  | some defs => do
      modify fun c : ExpandCtx => c.withTable MacroTable.pushScope
      parseScoped recur level defs
      let out ← resolve recur level name r.default
      modify fun c : ExpandCtx => c.withTable MacroTable.popScope
      return out

/-- The output of the pieces of a text, in order. -/
def transPieces (level : ℕ) : List Piece → Expand Text
  | [] => return []
  | .text t :: rest => do
      let out ← transPieces level rest
      return t ++ out
  | .ref r :: rest => do
      let value ← refer recur level r
      let out ← transPieces level rest
      return value ++ out

end Recursion

/-- **`trans`**, with at most `depth` nested translations.  Quotes and backslashes are the caller's
own at level 0 and dropped elsewhere. -/
def trans (opts : MacroExpandOptions) : ℕ → Text → ℕ → Expand Text
  | 0, _, _ => throw .mk
  | depth + 1, t, level =>
      transPieces (trans opts depth) level (pieces opts.dollarEscape (decide (0 < level)) t 0 none)

/-- Store the value the table pass computed for entry `i`. -/
def MacroTable.cache (t : MacroTable) (i : ℕ) (value : Text) : MacroTable :=
  { t with entries := t.entries.modify i fun e => { e with value := some value } }

/-- The loop of `expand_table` from entry `i` on, `n` being the number of entries left. -/
def expandEntries (opts : MacroExpandOptions) (depth : ℕ) : ℕ → ℕ → Expand Unit
  | 0, _ => return ()
  | n + 1, i => do
      let c ← get
      match c.table.entries[i]? with
      | none => return ()
      | some e =>
          if e.special then expandEntries opts depth n (i + 1)
          else do
            let value ← trans opts depth e.rawval 1
            modify fun c : ExpandCtx => c.withTable fun t => t.cache i value
            expandEntries opts depth n (i + 1)

/-- `expand_table`: bring the cached values up to date. -/
def expandTable (opts : MacroExpandOptions) (depth : ℕ) : Expand Unit := do
  let c ← get
  if c.table.dirty then do
    expandEntries opts depth c.table.entries.length 0
    modify fun c : ExpandCtx => c.withTable fun t => { t with dirty := false }
  else return ()

/-- **`MacroTable::expand`**: the table pass, then the source string. -/
def expand (opts : MacroExpandOptions) (depth : ℕ) (src : Text) : Expand Text := do
  expandTable opts depth
  trans opts depth src 0

/-- The engine's state when `expand` is called on a new table. -/
def initial (opts : MacroExpandOptions) (defs : List (Text × Text)) : ExpandCtx :=
  { table := MacroTable.new defs, suppressed := opts.suppressWarnings, scopedTexts := [] }

/-! ### The scan shortens its text -/

variable {t : Text}

lemma scanClose_length {close depth bracket body after}
    (h : scanClose close depth bracket t = some (body, after)) :
    body.length + after.length + 1 = t.length := by
  have hcons : ∀ {c : UInt8} {rest body after : Text} {o : Option (Text × Text)},
      (∀ b a, o = some (b, a) → b.length + a.length + 1 = rest.length) →
      (o.map fun p => (c :: p.1, p.2)) = some (body, after) →
      body.length + after.length + 1 = (c :: rest).length := by
    intro c rest body after o ho heq
    obtain ⟨⟨b, a⟩, hba, hpair⟩ := map_eq_some_iff.1 heq
    obtain ⟨rfl, rfl⟩ := Prod.mk.inj hpair
    have := ho b a hba
    simp only [length_cons]
    omega
  fun_induction scanClose close depth bracket t generalizing body after with
  | case1 => simp at h
  | case2 depth c rest ih => exact hcons (fun b a hba => ih hba) h
  | case3 depth c rest hopen ih => exact hcons (fun b a hba => ih hba) h
  | case4 depth c rest hopen hclose =>
    obtain ⟨rfl, rfl⟩ := Prod.mk.inj (some.inj h)
    simp
  | case5 depth c rest hopen hclose hnested ih => exact hcons (fun b a hba => ih hba) h
  | case6 depth c rest hopen hclose hnested ih => exact hcons (fun b a hba => ih hba) h

lemma topLevelSplit_append (ends : UInt8 → Bool) (depth : ℕ) (bracket : Bool) (t : Text) :
    (topLevelSplit ends depth bracket t).1 ++ (topLevelSplit ends depth bracket t).2 = t := by
  fun_induction topLevelSplit ends depth bracket t <;> simp_all +zetaDelta

lemma topLevelTerminator_length (t : Text) :
    (topLevelTerminator t).1.length + (topLevelTerminator t).2.length = t.length := by
  rw [← length_append, topLevelTerminator, topLevelSplit_append]

lemma topLevelComma_length (t : Text) :
    (topLevelComma t).1.length + (topLevelComma t).2.length = t.length := by
  rw [← length_append, topLevelComma, topLevelSplit_append]

variable {p : Text}

lemma scopedDefs_parts_le {n} (h : p ∈ (scopedDefs n t).flatMap defParts) :
    p.length ≤ t.length := by
  fun_induction scopedDefs n t with
  | case1 => simp at h
  | case2 => simp at h
  | case3 n seg q hq =>
    have hlen : q.1.length + q.2.length = seg.length := topLevelTerminator_length seg
    simp only [flatMap_cons, flatMap_nil, defParts, toList_none,
      append_nil, mem_singleton] at h
    subst h
    simp only [length_cons]
    omega
  | case4 n seg q tail q' hq ih =>
    have hlen : q.1.length + q.2.length = seg.length := topLevelTerminator_length seg
    have hlen' : q'.1.length + q'.2.length = tail.length := topLevelComma_length tail
    have htail := congrArg length hq
    simp only [length_cons] at htail ⊢
    rw [flatMap_cons, mem_append] at h
    rcases h with h | h
    · simp only [defParts, toList_some, mem_cons, not_mem_nil, or_false] at h
      rcases h with rfl | rfl <;> omega
    · have := ih h
      omega
  | case5 n seg q d tail hq hd ih =>
    have hlen : q.1.length + q.2.length = seg.length := topLevelTerminator_length seg
    have htail := congrArg length hq
    simp only [length_cons] at htail ⊢
    rw [flatMap_cons, mem_append] at h
    rcases h with h | h
    · simp only [defParts, toList_none, mem_singleton] at h
      subst h
      omega
    · have := ih h
      simp only [length_cons] at this
      omega
  | case6 => simp at h

lemma scopedTail_parts_le (h : p ∈ ((scopedTail t).getD []).flatMap defParts) :
    p.length ≤ t.length := by
  cases t with
  | nil => simp [scopedTail] at h
  | cons c rest => exact scopedDefs_parts_le h

lemma readBody_parts_le {body} (h : p ∈ (readBody body).parts) :
    p.length ≤ body.length := by
  have hlen := topLevelTerminator_length body
  unfold readBody at h
  cases hrest : (topLevelTerminator body).2 with
  | nil =>
    simp only [hrest, Reference.parts, toList_none, getD_none, flatMap_nil,
      append_nil, mem_singleton] at h
    subst h
    omega
  | cons c rest =>
    have hcomma := topLevelComma_length rest
    rw [hrest, length_cons] at hlen
    simp only [hrest] at h
    split_ifs at h
    · simp only [Reference.parts, toList_some, mem_cons, cons_append,
        nil_append] at h
      rcases h with rfl | rfl | h
      · omega
      · omega
      · have := scopedTail_parts_le h
        omega
    · simp only [Reference.parts, toList_none, nil_append, mem_cons] at h
      rcases h with rfl | h
      · omega
      · have := scopedTail_parts_le h
        simp only [length_cons] at this
        omega

/-- **The parts of a reference are shorter than the text it stands in.** -/
theorem reference_parts_lt {r used} (h : reference t = some (r, used)) (hp : p ∈ r.parts)
    : p.length < t.length := by
  match t, h with
  | _ :: d :: rest, h =>
    obtain ⟨⟨body, after⟩, hscan, hpair⟩ := map_eq_some_iff.1 h
    obtain ⟨rfl, rfl⟩ := Prod.mk.inj hpair
    have hlen := scanClose_length hscan
    have hle : p.length ≤ body.length := readBody_parts_le hp
    simp only [length_cons]
    omega

lemma pieces_parts_lt {dollarEscape discard skip quote r} (h : .ref r ∈ pieces dollarEscape discard t skip quote) (hp : p ∈ r.parts) :
    p.length < t.length := by
  fun_induction pieces dollarEscape discard t skip quote with
  | case1 => simp at h
  | case2 c rest skip quote ih => exact Nat.lt_succ_of_lt (ih h)
  | case3 c rest quote quote' hdiscard ih => exact Nat.lt_succ_of_lt (ih h)
  | case4 c rest quote quote' hdiscard hescape ih =>
    simp only [mem_cons, reduceCtorEq, false_or] at h
    exact Nat.lt_succ_of_lt (ih h)
  | case5 c rest quote quote' hdiscard hescape hback ih =>
    simp only [mem_cons, reduceCtorEq, false_or] at h
    exact Nat.lt_succ_of_lt (ih h)
  | case6 c rest quote quote' hdiscard hescape hback hopen href => simp at h
  | case7 c rest quote quote' hdiscard hescape hback hopen r' used href ih =>
    rcases mem_cons.1 h with heq | h
    · obtain rfl := Piece.ref.inj heq
      exact reference_parts_lt href hp
    · exact Nat.lt_succ_of_lt (ih h)
  | case8 c rest quote quote' hdiscard hescape hback hopen ih =>
    simp only [mem_cons, reduceCtorEq, false_or] at h
    exact Nat.lt_succ_of_lt (ih h)

/-- **A text without a reference is scanned without one.** -/
theorem pieces_of_noRef {dollarEscape discard skip quote r} (ht : hasRef t = false) :
    .ref r ∉ pieces dollarEscape discard t skip quote := by
  have htail : ∀ {c : UInt8} {rest : Text}, hasRef (c :: rest) = false → hasRef rest = false :=
    fun h => (Bool.or_eq_false_iff.1 h).2
  fun_induction pieces dollarEscape discard t skip quote with
  | case1 => simp
  | case2 c rest skip quote ih => exact ih (htail ht)
  | case3 c rest quote quote' hdiscard ih => exact ih (htail ht)
  | case4 c rest quote quote' hdiscard hescape ih => simpa using ih (htail ht)
  | case5 c rest quote quote' hdiscard hescape hback ih => simpa using ih (htail ht)
  | case6 c rest quote quote' hdiscard hescape hback hopen href => simp
  | case7 c rest quote quote' hdiscard hescape hback hopen r' used href ih =>
    -- no reference opens here
    have hno := (Bool.or_eq_false_iff.1 ht).1
    exact absurd hopen.1 (by rw [hno]; decide)
  | case8 c rest quote quote' hdiscard hescape hback hopen ih => simpa using ih (htail ht)

end MacLib
