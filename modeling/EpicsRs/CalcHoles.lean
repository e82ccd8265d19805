/-
**The compiler's record of missing values.**

The compiler's count of values cannot see an operand that pushed nothing: an assignment used as one,
or a branch that ends with a store.  `Holes` follows every way through the conditionals read so far
and notes where a value is missing; a way on which an operator reads a missing value is dropped.
-/

import Mathlib

set_option autoImplicit false

namespace Calc

/-- A value an operand should have pushed and did not, with the stack's depth there. -/
inductive Hole
  | store (d : ℤ)
  | missing (d : ℤ)
deriving DecidableEq

def Hole.depth : Hole → ℤ
  | .store d => d
  | .missing d => d

/-- One way through the conditionals read so far: the run-time depth less the compiler's count,
the holes, and each open span with the depth and the number of holes it began at. -/
structure Path where
  off : ℤ
  holes : List Hole
  spans : List (ℕ × ℤ × ℕ)
deriving DecidableEq

namespace Path

/-- `cut`: keep the first `len` holes. -/
def cut (p : Path) (len : ℕ) : Path :=
  { p with holes := p.holes.take len, spans := p.spans.map fun s => (s.1, s.2.1, min s.2.2 len) }

/-- `end`: where the span began, if it is open. -/
def spanStart (p : Path) (span : ℕ) : Option (ℤ × ℕ) :=
  (p.spans.find? fun s => s.1 == span).map fun s => s.2

def dropSpan (p : Path) (span : ℕ) : Path :=
  { p with spans := p.spans.eraseP fun s => s.1 == span }

/-- `finish`: a branch ends; only whether it left its value is kept, and the depth is counted from
zero until the conditional ends. -/
def finish (p : Path) (span : ℕ) (depth : ℤ) : Path :=
  let real := depth + p.off
  match p.spanStart span with
  | none => { p with off := real }
  | some (start, len) =>
      let q := (p.dropSpan span).cut len
      if real ≤ start ∨ Hole.missing real ∈ p.holes.drop len then
        { q with holes := q.holes ++ [.missing real], off := real }
      else { q with off := real }

def floor (p : Path) : ℤ := ((p.holes.map Hole.depth).max?).getD 0

end Path

/-- A `?` whose `:` has not been read. -/
structure Fork where
  thenSpan : ℕ
  depth : ℤ
  rest : List Path
deriving DecidableEq

/-- A conditional whose true branch has been read: its span until the false branch ends, the paths
it jumped on, which `:` it was, and the number of `COND_END`s to the one they land after. -/
structure Arm where
  thenSpan : Option ℕ
  ends : List Path
  n : ℕ
  count : ℕ
deriving DecidableEq

/-- `Holes`: all the ways through. -/
structure Holes where
  paths : List Path
  read : Bool
  opened : List ℕ
  next : ℕ
  lost : Bool
  arms : List Arm
deriving DecidableEq

namespace Holes

/-- `Holes::default`. -/
def init : Holes :=
  { paths := [{ off := 0, holes := [], spans := [] }], read := false, opened := [], next := 0,
    lost := false, arms := [] }

/-- `drop_reads`: drop the paths that read a missing value. -/
def dropReads (h : Holes) (reads : Path → Bool) : Holes :=
  { h with paths := h.paths.filter fun p => !reads p, read := h.read || h.paths.any reads }

/-- `take`: an operator pops that many values. -/
def take (h : Holes) (depth pops : ℤ) : Holes :=
  h.dropReads fun p => decide (depth + p.off - p.floor < pops)

/-- `store`: an assignment pushes nothing. -/
def store (h : Holes) (depth : ℤ) : Holes :=
  { h with paths := h.paths.map fun p => { p with holes := p.holes ++ [.store (depth + p.off)] } }

/-- The span that `open` hands out. -/
def openSpan (h : Holes) : ℕ := h.next

/-- `open`: an operand begins. -/
def opening (h : Holes) (depth : ℤ) : Holes :=
  { h with
    next := h.next + 1
    opened := h.opened ++ [h.next]
    paths := h.paths.map fun p =>
      { p with spans := p.spans ++ [(h.next, depth + p.off, p.holes.length)] } }

/-- `close` on one path: an operand that left a value buries its holes, the value of a conditional
that comes last apart. -/
def closePath (span : ℕ) (depth : ℤ) (p : Path) : Path :=
  let real := depth + p.off
  match p.spanStart span with
  | none => p
  | some (start, len) =>
      let q := p.dropSpan span
      if start < real then
        let r := q.cut len
        { r with holes := r.holes ++ (q.holes.drop len).filter fun h => h == .missing real }
      else q

/-- `close`: an operand ends. -/
def close (h : Holes) (span : ℕ) (depth : ℤ) : Holes :=
  { h with
    opened := h.opened.filter fun s => s != span
    paths := h.paths.map (closePath span depth) }

def maxPaths : ℕ := 256

/-- `even` on one path: give it the open spans, one it did not see begun beginning here. -/
def evenPath (opened : List ℕ) (depth : ℤ) (p : Path) : Path :=
  let kept := p.spans.filter fun s => opened.contains s.1
  let added := (opened.filter fun span => !kept.any fun s => s.1 == span).map fun span =>
    (span, depth + p.off, p.holes.length)
  { p with spans := (kept ++ added).insertionSort fun s t => s.1 ≤ t.1 }

/-- The paths without repetitions, in the order of their first occurrence. -/
def distinct (l : List Path) : List Path :=
  l.foldl (fun acc p => if p ∈ acc then acc else acc ++ [p]) []

def even (h : Holes) (depth : ℤ) : Holes :=
  let paths := distinct (h.paths.map (evenPath h.opened depth))
  if maxPaths < paths.length then { h with paths := [], lost := true }
  else { h with paths := paths }

/-- `end`: the false branch of a conditional ends on every path. -/
def endSpan (h : Holes) (span : ℕ) (depth : ℤ) : Holes :=
  { h with
    paths := h.paths.map fun p =>
      let q := p.finish span depth
      { q with off := q.off - depth }
    opened := h.opened.filter fun s => s != span }

/-- `fork`: a `?`, after it pops the condition. -/
def fork (h : Holes) (depth : ℤ) : Holes × Fork :=
  let h' := { h with arms := h.arms.map fun a : Arm => { a with count := a.count + 1 } }
  let h'' := h'.opening depth
  (h'', { thenSpan := h'.openSpan, depth := depth, rest := h''.paths })

/-- The number of conditionals that were read before the `first` `:`. -/
def outerArms (first : ℕ) (arms : List Arm) : ℕ :=
  arms.length - (arms.reverse.takeWhile fun a => decide (first ≤ a.n)).length

/-- `branch`: a `:`.  The conditionals read since the `?` end here, though their true branches
land where the search takes them; the false branch starts where the true one did. -/
def branch (h : Holes) (f : Fork) (depth : ℤ) (n first : ℕ) : Holes :=
  let k := outerArms first h.arms
  let inner := h.arms.drop k
  let ended := inner.reverse.foldl
    (fun h a => match a.thenSpan with | some span => h.endSpan span depth | none => h) h
  let inner' := inner.map fun a =>
    { a with thenSpan := none, ends := a.ends.map fun p => p.finish f.thenSpan 0 }
  let ends := ended.paths.map fun p => p.finish f.thenSpan depth
  let falsePaths := f.rest.map fun p : Path => { p with off := p.off + (f.depth - (depth - 1)) }
  let evened := { ended with paths := falsePaths }.even (depth - 1)
  { evened with
    arms := h.arms.take k ++ inner' ++
      [{ thenSpan := some f.thenSpan, ends := ends, n := n, count := 1 }] }

/-- The last arm whose paths land here, with the arms around it. -/
def landing : List Arm → Option (List Arm × Arm × List Arm)
  | [] => none
  | a :: rest =>
      match landing rest with
      | some (before, b, after) => some (a :: before, b, after)
      | none => if a.count = 0 then some ([], a, rest) else none

/-- The loop of `cond_end`: go on along the paths that land here, the latest first. -/
def land (depth : ℤ) : ℕ → Holes → Holes
  | 0, h => h
  | fuel + 1, h =>
      match landing h.arms with
      | none => h
      | some (before, arm, after) =>
          let h₁ := { h with arms := before ++ after }
          let h₂ := match arm.thenSpan with | some span => h₁.endSpan span depth | none => h₁
          let h₃ := { h₂ with
            paths := h₂.paths ++ arm.ends.map fun p : Path => { p with off := p.off - depth } }
          land depth fuel (h₃.even depth)

/-- `cond_end`: a `COND_END`. -/
def condEnd (h : Holes) (depth : ℤ) : Holes :=
  land depth h.arms.length { h with arms := h.arms.map fun a : Arm => { a with count := a.count - 1 } }

/-- `refused`: ways were dropped, and none is left that ends with one value. -/
def refused (h : Holes) (depth : ℤ) : Bool :=
  let h' := h.dropReads fun p => decide (Hole.missing (depth + p.off) ∈ p.holes)
  h'.read && !h'.lost && !h'.paths.any fun p => depth + p.off == 1

end Holes

end Calc
