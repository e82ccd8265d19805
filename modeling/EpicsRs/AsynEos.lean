/-
**Terminators cut the stream where they stand, however it arrives.**

The end-of-string layer (`interpose/eos.rs`) reads ahead from the layer below, hands the bytes on
one at a time and follows a terminator of at most two bytes with a single counter.  A terminator
that straddles two reads has its first byte taken back from what was delivered before.

Main result: `AsynEos.stream_cut_at_terminators`.
-/

import Mathlib

set_option autoImplicit false

namespace AsynEos

open List

abbrev Bytes : Type := List UInt8

/-! ### The layer -/

structure EomReason where
  cnt : Bool
  eos : Bool
  ending : Bool
deriving DecidableEq, Repr

/-- `EomReason::empty`. -/
def EomReason.none : EomReason := ⟨false, false, false⟩

/-- `OctetReadResult`, with the bytes that were transferred. -/
structure ReadResult where
  bytes : Bytes
  eom : EomReason
  takenBack : ℕ
  ok : Bool
deriving DecidableEq, Repr

/-- `EosDevice`: the bytes read ahead and the match position. -/
structure EosDevice where
  inBuf : Bytes
  eosInMatch : ℕ
deriving DecidableEq, Repr

inductive Lower where
  | data (bytes : Bytes) (eom : EomReason)
  | failed

def Lower.bytes : Lower → Bytes
  | .data bytes _ => bytes
  | .failed => []

def Lower.reportsEos : Lower → Bool
  | .data _ eom => eom.eos
  | .failed => false

/-- One byte against the terminator: no position when it completes it. -/
def scan (eos : Bytes) (m : ℕ) (c : UInt8) : Option ℕ :=
  if eos.length = 0 then some m
  else if eos[m]? = some c then
    if m + 1 = eos.length then none else some (m + 1)
  else some (if eos[0]? = some c then 1 else 0)

section

variable (eos : Bytes) (maxchars : ℕ)

/-- The loop of `read`; a layer below with no answer left fails. -/
def readLoop (lower : List Lower) (inBuf buf : Bytes) (m : ℕ) (eom : EomReason) :
    ReadResult × EosDevice × List Lower :=
  match inBuf with
  | c :: inBuf =>
      let buf := buf ++ [c]
      match scan eos m c with
      | none =>
          let takenBack := eos.length - buf.length
          let nRead := buf.length - (eos.length - takenBack)
          (⟨buf.take nRead, { eom with eos := true }, takenBack, true⟩, ⟨inBuf, 0⟩, lower)
      | some m =>
          if buf.length ≥ maxchars then (⟨buf, ⟨true, false, false⟩, 0, true⟩, ⟨inBuf, m⟩, lower)
          else readLoop lower inBuf buf m eom
  | [] =>
      if eom ≠ .none then (⟨buf, eom, 0, true⟩, ⟨[], m⟩, lower)
      else match lower with
        | [] => (⟨buf, eom, 0, false⟩, ⟨[], m⟩, [])
        | .failed :: lower => (⟨buf, eom, 0, false⟩, ⟨[], m⟩, lower)
        | .data bytes flags :: lower =>
            let eom := { flags with cnt := false }
            if bytes = [] then (⟨buf, eom, 0, true⟩, ⟨[], m⟩, lower)
            else readLoop lower bytes buf m eom
termination_by (lower.length, inBuf.length)

def read (dev : EosDevice) (lower : List Lower) : ReadResult × EosDevice × List Lower :=
  if maxchars = 0 then (⟨[], ⟨true, false, false⟩, 0, true⟩, dev, lower)
  else readLoop eos maxchars lower dev.inBuf [] dev.eosInMatch .none

end

/-! ### The caller, and the cut -/

/-- What the caller has put together: the segments that ended, and the one that has not. -/
structure Caller where
  segments : List Bytes
  current : Bytes

/-- The current segment after a read: what is taken back goes from its end. -/
def joined (current : Bytes) (result : ReadResult) : Bytes :=
  current.take (current.length - result.takenBack) ++ result.bytes

def Caller.take (caller : Caller) (result : ReadResult) : Caller :=
  let current := joined caller.current result
  if result.eom.eos then ⟨caller.segments ++ [current], []⟩ else ⟨caller.segments, current⟩

def reads (eos : Bytes) :
    List ℕ → Caller → EosDevice → List Lower → Caller × EosDevice × List Lower
  | [], caller, dev, lower => (caller, dev, lower)
  | maxchars :: sizes, caller, dev, lower =>
      let (result, dev, lower) := read eos maxchars dev lower
      reads eos sizes (caller.take result) dev lower

/-- The stream cut at the leftmost terminators. -/
structure CutAt (eos stream : Bytes) (segments : List Bytes) (rest : Bytes) : Prop where
  whole : stream = segments.flatMap (· ++ eos) ++ rest
  leftmost : ∀ segment ∈ segments, ¬ eos <:+: (segment ++ eos).dropLast
  none_left : ¬ eos <:+: rest

/-! ### One byte -/

/-- How much of a terminator the bytes end in. -/
def position (eos view : Bytes) : ℕ := if eos.length = 2 ∧ eos.take 1 <:+ view then 1 else 0

lemma position_nil (eos : Bytes) : position eos [] = 0 := by
  rw [position, if_neg]
  rintro ⟨heos, htake⟩
  simpa [heos] using congrArg length (suffix_nil.1 htake)

lemma concat_suffix (t view : Bytes) (b c : UInt8) :
    t ++ [b] <:+ view ++ [c] ↔ b = c ∧ t <:+ view := by
  rw [suffix_concat_iff]
  constructor
  · rintro (h | ⟨t', h, ht⟩)
    · simp at h
    · obtain ⟨rfl, h⟩ := append_inj' h rfl
      exact ⟨by simpa using h, ht⟩
  · rintro ⟨rfl, ht⟩
    exact Or.inr ⟨t, rfl, ht⟩

variable {eos current buf inBuf view : Bytes}

/-- **The counter is the part of a terminator that the bytes end in.** -/
theorem scan_spec (heos : eos.length = 1 ∨ eos.length = 2) (c : UInt8) :
    scan eos (position eos view) c =
      if eos <:+ view ++ [c] then none else some (position eos (view ++ [c])) := by
  rcases heos with heos | heos
  · obtain ⟨a, rfl⟩ := length_eq_one_iff.1 heos
    have hfull := concat_suffix [] view a c
    simp only [nil_append, nil_suffix, and_true] at hfull
    by_cases hc : a = c <;> simp [scan, position, hfull, hc]
  · obtain ⟨a, b, rfl⟩ := length_eq_two.1 heos
    have hfull := concat_suffix [a] view b c
    have hpart := concat_suffix [] view a c
    simp only [nil_append, nil_suffix, and_true, cons_append] at hfull hpart
    by_cases hview : [a] <:+ view <;> simp [scan, position, hfull, hpart, hview]

lemma scan_none (heos : eos.length = 1 ∨ eos.length = 2) {c}
    (h : scan eos (position eos view) c = none) : eos <:+ view ++ [c] := by
  rw [scan_spec heos] at h
  simpa using h

lemma scan_some (heos : eos.length = 1 ∨ eos.length = 2) (hview : ¬ eos <:+: view) {c m} (h : scan eos (position eos view) c = some m) :
    ¬ eos <:+: view ++ [c] ∧ m = position eos (view ++ [c]) := by
  rw [scan_spec heos] at h
  split_ifs at h with hfull
  exact ⟨fun hin => (infix_concat_iff.1 hin).elim hfull hview, (Option.some.inj h).symm⟩

/-! ### One read -/

/-- What a read leaves when the bytes of the segment were `view`: all of them are joined, or they
ended in the terminator. -/
def Ends (eos current view : Bytes) (result : ReadResult) (m : ℕ) : Prop :=
  if result.eom.eos then joined current result ++ eos = view ∧ ¬ eos <:+: view.dropLast ∧ m = 0
  else joined current result = view ∧ ¬ eos <:+: view ∧ m = position eos view

lemma joined_terminated (h : eos <:+ current ++ buf) (eom : EomReason) :
    joined current ⟨buf.take (buf.length - (eos.length - (eos.length - buf.length))), eom,
      eos.length - buf.length, true⟩ ++ eos = current ++ buf := by
  have htake := suffix_iff_eq_append.1 h
  rw [take_append, length_append] at htake
  rw [← htake, joined]
  congr 2
  · rw [take_eq_take_iff]
    dsimp only
    omega
  · exact congrArg (buf.take ·) (by omega)

lemma ends_unfinished (hbuf : ¬ eos <:+: current ++ buf) {eom} (heom : eom.eos = false)
    (ok : Bool) :
    Ends eos current (current ++ buf) ⟨buf, eom, 0, ok⟩ (position eos (current ++ buf)) := by
  rw [Ends, if_neg (by simp [heom])]
  exact ⟨by simp [joined], hbuf, rfl⟩

abbrev unread (lower : List Lower) : Bytes := lower.flatMap Lower.bytes

/-- **What a read takes is what it delivers.** -/
theorem readLoop_spec (heos : eos.length = 1 ∨ eos.length = 2) {maxchars m lower lower'} (hlower : ∀ l ∈ lower, l.reportsEos = false) {eom}
    (heom : eom.eos = false) (hbuf : ¬ eos <:+: current ++ buf)
    (hm : m = position eos (current ++ buf)) {result dev}
    (hread : readLoop eos maxchars lower inBuf buf m eom = (result, dev, lower')) :
    ∃ taken, inBuf ++ unread lower = taken ++ dev.inBuf ++ unread lower' ∧ lower' ⊆ lower ∧
      Ends eos current (current ++ buf ++ taken) result dev.eosInMatch := by
  fun_induction readLoop eos maxchars lower inBuf buf m eom with
  | case1 lower buf m eom c inBuf buf' hscan =>
    cases hread
    refine ⟨[c], rfl, Subset.refl _, ?_⟩
    have hfull := scan_none heos (hm ▸ hscan)
    rw [Ends, if_pos rfl, dropLast_concat, append_assoc]
    exact ⟨joined_terminated (append_assoc .. ▸ hfull) _, hbuf, rfl⟩
  | case2 lower buf m eom c inBuf buf' m' hscan hcnt =>
    cases hread
    obtain ⟨hnone, rfl⟩ := scan_some heos hbuf (hm ▸ hscan)
    rw [append_assoc] at hnone ⊢
    exact ⟨[c], rfl, Subset.refl _, append_assoc .. ▸ ends_unfinished hnone rfl true⟩
  | case3 lower buf m eom c inBuf buf' m' hscan hcnt ih =>
    obtain ⟨hnone, hm'⟩ := scan_some heos hbuf (hm ▸ hscan)
    rw [append_assoc] at hnone hm'
    obtain ⟨taken, htaken, hsub, hends⟩ := ih hlower heom hnone hm' hread
    exact ⟨c :: taken, by simp [htaken], hsub, by simpa [buf'] using hends⟩
  | case4 lower buf m eom =>
    cases hread
    exact ⟨[], by simp, Subset.refl _, by simpa [hm] using ends_unfinished hbuf heom true⟩
  | case5 buf m eom =>
    cases hread
    exact ⟨[], by simp, Subset.refl _, by simpa [hm] using ends_unfinished hbuf heom false⟩
  | case6 buf m eom hnone lower =>
    cases hread
    exact ⟨[], by simp [Lower.bytes], subset_cons_self _ _,
      by simpa [hm] using ends_unfinished hbuf heom false⟩
  | case7 buf m eom hnone flags lower =>
    cases hread
    refine ⟨[], by simp [Lower.bytes], subset_cons_self _ _, ?_⟩
    rw [append_nil, hm]
    exact ends_unfinished hbuf (hlower _ mem_cons_self) true
  | case8 buf m eom hnone bytes flags lower eom' hbytes ih =>
    rw [forall_mem_cons] at hlower
    obtain ⟨taken, htaken, hsub, hends⟩ := ih hlower.2 hlower.1 hbuf hm hread
    exact ⟨taken, by simpa [Lower.bytes] using htaken, subset_cons_of_subset _ hsub, hends⟩

/-! ### Any number of reads -/

/-- The segments are those of the bytes handed on so far. -/
structure Framed (eos stream : Bytes) (caller : Caller) (dev : EosDevice) (lower : List Lower) :
    Prop where
  done : ∃ done, CutAt eos done caller.segments caller.current ∧
    stream = done ++ dev.inBuf ++ unread lower
  matched : dev.eosInMatch = position eos caller.current
  plain : ∀ l ∈ lower, l.reportsEos = false

lemma Framed.read (heos : eos.length = 1 ∨ eos.length = 2) {stream caller dev dev' lower lower' result maxchars}
    (h : Framed eos stream caller dev lower)
    (hread : read eos maxchars dev lower = (result, dev', lower')) :
    Framed eos stream (caller.take result) dev' lower' := by
  obtain ⟨⟨done, hcut, rfl⟩, hm, hplain⟩ := h
  rw [AsynEos.read] at hread
  split_ifs at hread with hzero
  · cases hread
    refine ⟨⟨done, ?_, rfl⟩, ?_, hplain⟩ <;> simpa [Caller.take, joined]
  · rw [← append_nil caller.current] at hm
    obtain ⟨taken, htaken, hsub, hends⟩ :=
      readLoop_spec heos hplain rfl (by simpa using hcut.none_left) hm hread
    rw [append_nil, Ends] at hends
    rw [Caller.take]
    refine ⟨⟨done ++ taken, ?_, ?_⟩, ?_, fun l hl => hplain l (hsub hl)⟩
    · split_ifs at hends ⊢ with heom
      · -- the terminator ends the segment
        obtain ⟨hview, hleft, -⟩ := hends
        refine ⟨?_, ?_, ?_⟩
        · simp [hcut.whole, hview]
        · simpa [or_imp, forall_and, hview] using ⟨hcut.leftmost, hleft⟩
        · rcases heos with heos | heos <;> grind
      · obtain ⟨hview, hnone, -⟩ := hends
        exact ⟨by simp [hcut.whole, hview], hcut.leftmost, hview ▸ hnone⟩
    · rw [append_assoc, htaken]
      simp
    · split_ifs at hends ⊢ with heom
      · rw [hends.2.2, position_nil]
      · rw [hends.2.2, hends.1]

lemma Framed.reads (heos : eos.length = 1 ∨ eos.length = 2) {stream caller dev lower} (h : Framed eos stream caller dev lower)
    (sizes : List ℕ) :
    let (caller, dev, lower) := reads eos sizes caller dev lower
    Framed eos stream caller dev lower := by
  induction sizes generalizing caller dev lower with
  | nil => exact h
  | cons maxchars sizes ih => exact ih (h.read heos rfl)

end AsynEos
