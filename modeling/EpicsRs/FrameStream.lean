/-
**Streams that arrive in pieces.**

A reader of a stream keeps the items that it has not used yet, appends those that arrive, and parses
from the front until the parser wants more.  When a parser that has made up its mind does not change
it because more is there, what comes out does not depend on where the stream was cut.

Main result: `FrameStream.feed_eq_drain`.
-/

import Mathlib

set_option autoImplicit false

/-- A parser over a state: from the front of the items at hand nothing yet, or a fault, or the state
afterwards with what came out and the number of items that it took. -/
structure FrameStream (σ ι μ ε : Type) where
  parse : σ → List ι → Option (Except ε (σ × List μ × ℕ))
  extend : ∀ {s buf r}, parse s buf = some r → ∀ more, parse s (buf ++ more) = some r
  takes : ∀ {s buf t out n}, parse s buf = some (.ok (t, out, n)) → 0 < n ∧ n ≤ buf.length
  idle : ∀ s, parse s [] = none

namespace FrameStream

variable {σ ι μ ε : Type}

/-- What came out, and the fault it ended with or what it goes on with. -/
abbrev Outcome (σ ι μ ε : Type) : Type := List μ × Except ε (σ × List ι)

def Outcome.next (x : Outcome σ ι μ ε) (k : σ → List ι → Outcome σ ι μ ε) : Outcome σ ι μ ε :=
  match x.2 with
  | .error e => (x.1, .error e)
  | .ok (s, buf) => (x.1 ++ (k s buf).1, (k s buf).2)

variable (f : FrameStream σ ι μ ε)

def drain (s : σ) (buf : List ι) : Outcome σ ι μ ε :=
  match _h : f.parse s buf with
  | none => ([], .ok (s, buf))
  | some (.error e) => ([], .error e)
  | some (.ok (t, out, n)) => Outcome.next (out, .ok (t, buf.drop n)) fun _ _ => drain t (buf.drop n)
termination_by buf.length
decreasing_by
  have htakes := f.takes _h
  rw [List.length_drop]
  omega

def feed : σ → List ι → List (List ι) → Outcome σ ι μ ε
  | s, buf, [] => ([], .ok (s, buf))
  | s, buf, piece :: pieces => (f.drain s (buf ++ piece)).next fun s buf => feed s buf pieces

variable {f} {s t : σ} {buf : List ι} {out : List μ} {n : ℕ} {e : ε}

lemma drain_none (h : f.parse s buf = none) : f.drain s buf = ([], .ok (s, buf)) := by
  rw [drain]
  split <;> simp_all

lemma drain_error (h : f.parse s buf = some (.error e)) : f.drain s buf = ([], .error e) := by
  rw [drain]
  split <;> simp_all

lemma drain_ok (h : f.parse s buf = some (.ok (t, out, n))) :
    f.drain s buf = (out ++ (f.drain t (buf.drop n)).1, (f.drain t (buf.drop n)).2) := by
  rw [drain]
  split <;> simp_all [Outcome.next]

/-- **What is at hand can be parsed before the rest is there**, and what it leaves waits for more. -/
theorem drain_append (s : σ) (buf more : List ι) :
    f.drain s (buf ++ more) = (f.drain s buf).next (fun t left => f.drain t (left ++ more)) ∧
      ∀ t left, (f.drain s buf).2 = .ok (t, left) → f.parse t left = none := by
  induction hlen : buf.length using Nat.strongRecOn generalizing s buf with
  | ind len ih =>
    cases hparse : f.parse s buf with
    | none =>
      rw [drain_none hparse]
      refine ⟨rfl, fun t left h => ?_⟩
      obtain ⟨rfl, rfl⟩ : s = t ∧ buf = left := by simpa using h
      exact hparse
    | some r =>
      have hmore := f.extend hparse more
      cases r with
      | error e =>
        rw [drain_error hparse, drain_error hmore]
        exact ⟨rfl, nofun⟩
      | ok r =>
        obtain ⟨t, out, n⟩ := r
        obtain ⟨hpos, hle⟩ := f.takes hparse
        obtain ⟨heq, hrests⟩ := ih (buf.drop n).length (by rw [List.length_drop]; omega) t
          (buf.drop n) rfl
        rw [drain_ok hparse, drain_ok hmore, List.drop_append_of_le_length hle, heq]
        refine ⟨?_, hrests⟩
        unfold Outcome.next
        cases (f.drain t (buf.drop n)).2 with
        | error e => rfl
        | ok r => simp only [List.append_assoc]

/-- **Where the stream is cut does not matter**: the pieces give what the whole stream gives. -/
theorem feed_eq_drain (pieces : List (List ι)) (h : f.parse s buf = none) :
    f.feed s buf pieces = f.drain s (buf ++ pieces.flatten) := by
  induction pieces generalizing s buf with
  | nil => rw [List.flatten_nil, List.append_nil, drain_none h, feed]
  | cons piece pieces ih =>
    obtain ⟨happend, hrests⟩ := drain_append (f := f) s (buf ++ piece) pieces.flatten
    rw [feed, List.flatten_cons, ← List.append_assoc, happend]
    unfold Outcome.next
    cases hdrain : (f.drain s (buf ++ piece)).2 with
    | error e => rfl
    | ok r => simp only [ih (hrests _ _ hdrain)]

end FrameStream
