/-
**Glob matching.**

`epics_strn_glob_match` (`epics_string.rs`), the matcher of `dbglob` and `epicsEnvShow`: a `*` stands
for any bytes, a `?` for one.  It keeps a single backtrack point, behind the last `*` that it has
read.  An earlier `*` never has to take more: between two of them the pattern matches a fixed number
of bytes, so what follows the last `*` could only begin later, and there it is tried anyway.

Main result: `Glob.glob_match_complete`.
-/

import Mathlib

set_option autoImplicit false

namespace Glob

open List

/-! ### The matcher -/

/-- `*`. -/
def star : UInt8 := 0x2a

/-- `?`. -/
def anyByte : UInt8 := 0x3f

/-- What a byte of a pattern matches. -/
def Piece (c : UInt8) (u : List UInt8) : Prop :=
  if c = star then True else if c = anyByte then u.length = 1 else u = [c]

/-- The string is a concatenation of pieces that match the bytes of the pattern in order. -/
def Globs (pattern s : List UInt8) : Prop :=
  ∃ pieces : List (List UInt8), Forall₂ Piece pattern pieces ∧ pieces.flatten = s

section Matcher

variable (s pattern : List UInt8)

/-- `at(p)`: zero behind the end. -/
def patAt (p : ℕ) : UInt8 := pattern[p]?.getD 0

/-- `s[i]`, which is only read inside the string. -/
def byteAt (i : ℕ) : UInt8 := s[i]?.getD 0

/-- The loop up to the first `*`, from `p` and `i`; none where it returns false. -/
def headLoop (p i : ℕ) : Option (ℕ × ℕ) :=
  if i < s.length ∧ patAt pattern p ≠ star then
    if patAt pattern p ≠ byteAt s i ∧ patAt pattern p ≠ anyByte then none
    else headLoop (p + 1) (i + 1)
  else some (p, i)
termination_by s.length - i

structure Scan where
  mp : Option ℕ
  cp : ℕ
  i : ℕ
  p : ℕ

/-- One round of the main loop; none where it returns true. -/
def round (t : Scan) : Option Scan :=
  if patAt pattern t.p = star then
    if patAt pattern (t.p + 1) = 0 then none
    else some ⟨some (t.p + 1), t.i + 1, t.i, t.p + 1⟩
  else if patAt pattern t.p = byteAt s t.i ∨ patAt pattern t.p = anyByte then
    some ⟨t.mp, t.cp, t.i + 1, t.p + 1⟩
  else some ⟨t.mp, t.cp + 1, t.cp, t.mp.getD 0⟩

/-- What is left of the pattern when the string is read: it may only be `*`. -/
def tailMatch (p : ℕ) : Bool := ((pattern.drop p).dropWhile (· == star)).headD 0 == 0

/-- The main loop, for at most `n` rounds. -/
def mainLoop : ℕ → Scan → Option Bool
  | 0, _ => none
  | n + 1, t =>
    if t.i < s.length then
      match round s pattern t with
      | none => some true
      | some t' => mainLoop n t'
    else some (tailMatch pattern t.p)

def epicsStrnGlobMatch (n : ℕ) (len : ℕ) : Option Bool :=
  match headLoop (s.take len) pattern 0 0 with
  | none => some false
  | some (p, i) => mainLoop (s.take len) pattern n ⟨none, 0, i, p⟩

def epicsStrGlobMatch (n : ℕ) : Option Bool := epicsStrnGlobMatch s pattern n s.length

end Matcher

/-! ### Matching, from a place in the pattern and a place in the string -/

lemma globs_cons {c pattern s} :
    Globs (c :: pattern) s ↔ ∃ u v, Piece c u ∧ Globs pattern v ∧ u ++ v = s := by
  constructor
  · rintro ⟨pieces, hpieces, rfl⟩
    obtain ⟨u, rest, hu, hrest, rfl⟩ := forall₂_cons_left_iff.1 hpieces
    exact ⟨u, rest.flatten, hu, ⟨rest, hrest, rfl⟩, rfl⟩
  · rintro ⟨u, v, hu, ⟨rest, hrest, rfl⟩, rfl⟩
    exact ⟨u :: rest, Forall₂.cons hu hrest, rfl⟩

variable {s pattern : List UInt8}

/-- The rest of the pattern from `p` on matches the rest of the string from `i` on. -/
def From (s pattern : List UInt8) (p i : ℕ) : Prop := Globs (pattern.drop p) (s.drop i)

/-- The same for some place in the string from `i` on. -/
def Later (s pattern : List UInt8) (p i : ℕ) : Prop := ∃ k, i ≤ k ∧ From s pattern p k

lemma later_iff {p i} :
    Later s pattern p i ↔ From s pattern p i ∨ Later s pattern p (i + 1) := by
  constructor
  · rintro ⟨k, hk, hfrom⟩
    rcases hk.eq_or_lt with rfl | hk
    · exact Or.inl hfrom
    · exact Or.inr ⟨k, hk, hfrom⟩
  · rintro (hfrom | ⟨k, hk, hfrom⟩)
    · exact ⟨i, le_rfl, hfrom⟩
    · exact ⟨k, Nat.le_of_succ_le hk, hfrom⟩

lemma patAt_eq_zero {p} (h : pattern.length ≤ p) : patAt pattern p = 0 := by
  rw [patAt, getElem?_eq_none h]
  rfl

lemma drop_of_patAt {p} (h : patAt pattern p ≠ 0) :
    pattern.drop p = patAt pattern p :: pattern.drop (p + 1) := by
  have hlt : p < pattern.length := by
    by_contra hge
    exact h (patAt_eq_zero (by omega))
  rw [drop_eq_getElem_cons hlt, patAt, getElem?_eq_getElem hlt]
  rfl

lemma from_star {p i} (h : patAt pattern p = star) :
    From s pattern p i ↔ Later s pattern (p + 1) i := by
  have hne : patAt pattern p ≠ 0 := by rw [h]; decide
  rw [From, drop_of_patAt hne, globs_cons, h]
  constructor
  · rintro ⟨u, v, -, hv, huv⟩
    have hdrop : s.drop (i + u.length) = v := by rw [← drop_drop, ← huv, drop_left]
    exact ⟨i + u.length, by omega, by rwa [From, hdrop]⟩
  · rintro ⟨k, hk, hfrom⟩
    refine ⟨(s.drop i).take (k - i), s.drop k, by simp [Piece], hfrom, ?_⟩
    rw [← Nat.add_sub_cancel' hk, ← drop_drop, Nat.add_sub_cancel' hk, take_append_drop]

/-- A byte of the pattern other than `*` takes one byte. -/
lemma from_byte {p i} (hstar : patAt pattern p ≠ star) (hne : patAt pattern p ≠ 0) :
    From s pattern p i ↔ i < s.length ∧
      (patAt pattern p = byteAt s i ∨ patAt pattern p = anyByte) ∧ From s pattern (p + 1) (i + 1) := by
  rw [From, drop_of_patAt hne, globs_cons]
  constructor
  · rintro ⟨u, v, hu, hv, huv⟩
    obtain ⟨x, rfl, hx⟩ : ∃ x, u = [x] ∧ (patAt pattern p = x ∨ patAt pattern p = anyByte) := by
      rw [Piece, if_neg hstar] at hu
      split_ifs at hu with hany
      · obtain ⟨x, rfl⟩ := length_eq_one_iff.1 hu
        exact ⟨x, rfl, Or.inr hany⟩
      · exact ⟨_, hu, Or.inl rfl⟩
    have hi : i < s.length := by
      by_contra hge
      rw [drop_eq_nil_of_le (by omega)] at huv
      cases huv
    rw [drop_eq_getElem_cons hi] at huv
    obtain ⟨rfl, rfl⟩ := cons.inj huv
    refine ⟨hi, ?_, hv⟩
    rwa [byteAt, getElem?_eq_getElem hi]
  · rintro ⟨hi, hx, hfrom⟩
    refine ⟨[byteAt s i], s.drop (i + 1), ?_, hfrom, ?_⟩
    · rw [Piece, if_neg hstar]
      split_ifs with hany
      · rfl
      · rw [hx.resolve_right hany]
    · rw [drop_eq_getElem_cons hi, byteAt, getElem?_eq_getElem hi]
      rfl

lemma drop_eq_nil_of_patAt (hpat : 0 ∉ pattern) {p} (h : patAt pattern p = 0) :
    pattern.drop p = [] := by
  rw [drop_eq_nil_iff]
  by_contra hlt
  rw [patAt, getElem?_eq_getElem (by omega)] at h
  exact hpat (h ▸ getElem_mem _)

lemma from_zero (hpat : 0 ∉ pattern) {p i} (h : patAt pattern p = 0) :
    From s pattern p i ↔ s.length ≤ i := by
  rw [From, drop_eq_nil_of_patAt hpat h, ← drop_eq_nil_iff, Globs]
  simp [eq_comm]

/-- At the end of the string only `*` may be left. -/
lemma from_end (hpat : 0 ∉ pattern) {p i} (hi : s.length ≤ i) :
    From s pattern p i ↔ tailMatch pattern p = true := by
  by_cases hzero : patAt pattern p = 0
  · refine iff_of_true ((from_zero hpat hzero).2 hi) ?_
    rw [tailMatch, drop_eq_nil_of_patAt hpat hzero]
    rfl
  rw [tailMatch, drop_of_patAt hzero, dropWhile_cons]
  by_cases hstar : patAt pattern p = star
  · have hlt : p < pattern.length := by
      by_contra hge
      exact hzero (patAt_eq_zero (by omega))
    rw [if_pos (by simpa using hstar), from_star hstar]
    constructor
    · rintro ⟨k, hk, hfrom⟩
      exact (from_end hpat (by omega)).1 hfrom
    · intro h
      exact ⟨i, le_rfl, (from_end hpat hi).2 h⟩
  · rw [from_byte hstar hzero, if_neg (by simpa using hstar)]
    simp only [headD_cons, beq_iff_eq, hzero, iff_false]
    omega
termination_by pattern.length - p

/-! ### One backtrack point is enough -/

lemma matched_ne_zero (hs : 0 ∉ s) {p i} (hi : i < s.length)
    (h : patAt pattern p = byteAt s i ∨ patAt pattern p = anyByte) : patAt pattern p ≠ 0 := by
  rintro hzero
  rw [hzero, byteAt, getElem?_eq_getElem hi] at h
  rcases h with h | h
  · exact hs (h ▸ getElem_mem hi)
  · exact absurd h (by decide)

/-- Bytes of the pattern other than `*` take one byte each, wherever they begin. -/
lemma from_shift {mp k p} (hmp : mp ≤ p)
    (hplain : ∀ q, mp ≤ q → q < p → patAt pattern q ≠ star ∧ patAt pattern q ≠ 0)
    (h : From s pattern mp k) : From s pattern p (k + (p - mp)) := by
  induction p, hmp using Nat.le_induction with
  | base => simpa using h
  | succ p hmp ih =>
    have hfrom := ih fun q h₁ h₂ => hplain q h₁ (by omega)
    obtain ⟨hstar, hzero⟩ := hplain p hmp (by omega)
    rw [Nat.succ_sub hmp]
    exact ((from_byte hstar hzero).1 hfrom).2.2

section Complete

variable (hs : 0 ∉ s) (hpat : 0 ∉ pattern)
include hs hpat

lemma from_inside {p i} (hi : i < s.length) (hstar : patAt pattern p ≠ star) :
    From s pattern p i ↔ (patAt pattern p = byteAt s i ∨ patAt pattern p = anyByte) ∧
      From s pattern (p + 1) (i + 1) := by
  by_cases hzero : patAt pattern p = 0
  · rw [from_zero hpat hzero]
    refine ⟨fun hle => absurd hi (by omega), fun h => ?_⟩
    exact absurd hzero (matched_ne_zero hs hi h.1)
  · rw [from_byte hstar hzero]
    exact ⟨fun h => h.2, fun h => ⟨hi, h⟩⟩

lemma headLoop_spec (p i : ℕ) :
    (headLoop s pattern p i = none → ¬From s pattern p i) ∧
    ∀ p' i', headLoop s pattern p i = some (p', i') →
      (From s pattern p i ↔ From s pattern p' i') ∧ (i' < s.length → patAt pattern p' = star) := by
  rw [headLoop]
  split_ifs with hin hbad
  · refine ⟨fun _ => ?_, fun p' i' h => by cases h⟩
    rw [from_inside hs hpat hin.1 hin.2]
    tauto
  · have hmatched : patAt pattern p = byteAt s i ∨ patAt pattern p = anyByte := by tauto
    rw [from_inside hs hpat hin.1 hin.2, and_iff_right hmatched]
    exact headLoop_spec (p + 1) (i + 1)
  · refine ⟨fun h => (by cases h), fun p' i' h => ?_⟩
    cases h
    exact ⟨Iff.rfl, fun hlt => by tauto⟩
termination_by s.length - i

/-- The state of the main loop behind a `*`: the string matches if what is left matches here, or if
the pattern behind the `*` matches from a later place on. -/
structure Behind (s pattern : List UInt8) (t : Scan) (mp : ℕ) : Prop where
  mp_eq : t.mp = some mp
  le : mp ≤ t.p
  sync : t.i + 1 + mp = t.cp + t.p
  plain : ∀ q, mp ≤ q → q < t.p → patAt pattern q ≠ star ∧ patAt pattern q ≠ 0
  iff : Globs pattern s ↔ From s pattern t.p t.i ∨ Later s pattern mp t.cp

/-- The main loop ends, given enough rounds, and says whether the string matches. -/
def Decides (s pattern : List UInt8) (t : Scan) : Prop :=
  ∃ result, (∃ n, ∀ m, n ≤ m → mainLoop s pattern m t = some result) ∧
    (result = true ↔ Globs pattern s)

omit hs hpat in
lemma Decides.round {t t'} (hi : t.i < s.length) (hround : Glob.round s pattern t = some t')
    (h : Decides s pattern t') :
    Decides s pattern t := by
  obtain ⟨result, ⟨n, hn⟩, hresult⟩ := h
  refine ⟨result, ⟨n + 1, fun m hm => ?_⟩, hresult⟩
  obtain ⟨m, rfl⟩ : ∃ k, m = k + 1 := ⟨m - 1, by omega⟩
  rw [mainLoop, if_pos hi, hround]
  exact hn m (by omega)

omit hs in
lemma decides_end {t} (hi : s.length ≤ t.i) (hiff : Globs pattern s ↔ From s pattern t.p t.i)
    : Decides s pattern t := by
  refine ⟨tailMatch pattern t.p, ⟨1, fun m hm => ?_⟩, by rw [hiff, from_end hpat hi]⟩
  obtain ⟨m, rfl⟩ : ∃ k, m = k + 1 := ⟨m - 1, by omega⟩
  rw [mainLoop, if_neg (by omega)]

omit hs in
/-- A `*` makes a new backtrack point; the old one is not asked for. -/
lemma decides_star {t : Scan} (hi : t.i < s.length) (hstar : patAt pattern t.p = star)
    (hiff : Globs pattern s ↔ From s pattern t.p t.i)
    (hnext : Behind s pattern ⟨some (t.p + 1), t.i + 1, t.i, t.p + 1⟩ (t.p + 1) →
      Decides s pattern ⟨some (t.p + 1), t.i + 1, t.i, t.p + 1⟩) : Decides s pattern t := by
  rw [from_star hstar] at hiff
  by_cases hzero : patAt pattern (t.p + 1) = 0
  · have hend : From s pattern (t.p + 1) s.length := (from_zero hpat hzero).2 le_rfl
    refine ⟨true, ⟨1, fun m hm => ?_⟩, iff_of_true rfl (hiff.2 ⟨s.length, hi.le, hend⟩)⟩
    obtain ⟨m, rfl⟩ : ∃ k, m = k + 1 := ⟨m - 1, by omega⟩
    rw [mainLoop, if_pos hi, round, if_pos hstar, if_pos hzero]
  · refine (hnext ⟨rfl, le_rfl, rfl, fun q h₁ h₂ => ?_, hiff.trans later_iff⟩).round hi ?_
    · exact absurd h₂ (not_lt.2 h₁)
    · rw [round, if_pos hstar, if_neg hzero]

theorem Behind.decides {t mp} (h : Behind s pattern t mp) : Decides s pattern t := by
  have hle := h.le
  have hsync := h.sync
  -- where the pattern behind the last star matches later, its rest matches behind this place
  have hlater : Later s pattern mp t.cp → Later s pattern t.p (t.i + 1) := by
    rintro ⟨k, hk, hfrom⟩
    exact ⟨_, by omega, from_shift h.le h.plain hfrom⟩
  by_cases hi : s.length ≤ t.i
  · refine decides_end hpat hi (h.iff.trans ⟨fun hor => hor.elim id fun hmp => ?_, Or.inl⟩)
    obtain ⟨k, hk, hfrom⟩ := hlater hmp
    exact (from_end hpat hi).2 ((from_end hpat (by omega)).1 hfrom)
  rw [not_le] at hi
  by_cases hstar : patAt pattern t.p = star
  · have hlt : t.p < pattern.length := by
      by_contra hge
      rw [patAt_eq_zero (by omega)] at hstar
      cases hstar
    refine decides_star hpat hi hstar ?_ fun hnext => hnext.decides
    refine h.iff.trans ⟨fun hor => hor.elim id fun hmp => ?_, Or.inl⟩
    obtain ⟨k, hk, hfrom⟩ := hlater hmp
    obtain ⟨k', hk', hfrom⟩ := (from_star hstar).1 hfrom
    exact (from_star hstar).2 ⟨k', by omega, hfrom⟩
  by_cases hmatched : patAt pattern t.p = byteAt s t.i ∨ patAt pattern t.p = anyByte
  · have hnext : Behind s pattern ⟨t.mp, t.cp, t.i + 1, t.p + 1⟩ mp := by
      refine ⟨h.mp_eq, Nat.le_succ_of_le hle, by simp only; omega, fun q h₁ h₂ => ?_, ?_⟩
      · rcases Nat.lt_succ_iff_lt_or_eq.1 h₂ with h₂ | rfl
        · exact h.plain q h₁ h₂
        · exact ⟨hstar, matched_ne_zero hs hi hmatched⟩
      · rw [h.iff, from_inside hs hpat hi hstar, and_iff_right hmatched]
    exact hnext.decides.round hi (by rw [round, if_neg hstar, if_pos hmatched])
  · have hnext : Behind s pattern ⟨some mp, t.cp + 1, t.cp, mp⟩ mp := by
      refine ⟨rfl, le_rfl, rfl, fun q h₁ h₂ => absurd h₂ (not_lt.2 h₁), ?_⟩
      rw [h.iff, from_inside hs hpat hi hstar, ← later_iff]
      exact ⟨fun hor => hor.resolve_left fun hand => hmatched hand.1, Or.inr⟩
    refine hnext.decides.round hi ?_
    rw [round, if_neg hstar, if_neg hmatched, h.mp_eq]
    rfl
termination_by (pattern.length - mp, s.length + 1 - t.cp, s.length - t.i)

end Complete

/-- **Glob matching is complete**: it ends, and finds a match exactly when the string is made of
pieces that match the bytes of the pattern in order. -/
theorem glob_match_complete (s pattern : List UInt8) (hs : 0 ∉ s) (hpat : 0 ∉ pattern) :
    ∃ result, (∃ n, ∀ m, n ≤ m → epicsStrGlobMatch s pattern m = some result) ∧
      (result = true ↔ Globs pattern s) := by
  have hstart : Globs pattern s ↔ From s pattern 0 0 := Iff.rfl
  obtain ⟨hnone, hsome⟩ := headLoop_spec hs hpat 0 0
  simp only [epicsStrGlobMatch, epicsStrnGlobMatch, take_length]
  cases hhead : headLoop s pattern 0 0 with
  | none => exact ⟨false, ⟨0, fun _ _ => rfl⟩, iff_of_false (by decide) (hnone hhead)⟩
  | some r =>
    obtain ⟨p, i⟩ := r
    obtain ⟨hiff, hstar⟩ := hsome p i hhead
    rw [← hstart] at hiff
    by_cases hi : s.length ≤ i
    · exact decides_end (t := ⟨none, 0, i, p⟩) hpat hi hiff
    · rw [not_le] at hi
      exact decides_star (t := ⟨none, 0, i, p⟩) hpat hi (hstar hi) hiff fun h => h.decides hs hpat

/-- `*ab?` finds its second `a` in `aabx`. -/
theorem glob_match_second_place :
    ∃ result, (∃ n, ∀ m, n ≤ m →
      epicsStrGlobMatch [97, 97, 98, 120] [42, 97, 98, 63] m = some result) ∧
      (result = true ↔ Globs [42, 97, 98, 63] [97, 97, 98, 120]) :=
  glob_match_complete _ _ (by decide) (by decide)

end Glob
