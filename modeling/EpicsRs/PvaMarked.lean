/-
**What an update carries over the wire.**

The encoder of a partial value, the decoder that fills what is not marked with defaults, and the
spans of bits that both skip by, each number the fields on their own.  They agree for every set of
bits.  A marked field is decoded with all of the levels that the decoder has, so the limits of the
wire hold for each marked field on its own.

Main results: `Pva.decodePvFieldWithBitsetInto_agrees`, `Pva.decodePvFieldWithBitset_encode`.
-/

import EpicsRs.PvaOverlay

set_option autoImplicit false

namespace Pva

open ByteReader FieldDesc

/-! ### Fields by their bits -/

mutual
/-- The field at bit `j` that is not a structure; the descriptor has bit `bit`. -/
def leafAt : FieldDesc → ℕ → PvField → ℕ → Option PvField
  | .struct _ ms, bit, v, j => leafAtMembers ms (bit + 1) (fieldsOf v) j
  | _, bit, v, j => if j = bit then some v else none

def leafAtMembers : List Member → ℕ → List (String × PvField) → ℕ → Option PvField
  | [], _, _, _ => none
  | (_, d) :: ms, bit, fs, j =>
      if j < bit + d.totalBits then leafAt d bit (headValue fs) j
      else leafAtMembers ms (bit + d.totalBits) fs.tail j
end

lemma leafAt_leaf {d} (hd : d.isStruct = false) (bit : ℕ) (v : PvField) (j : ℕ) :
    leafAt d bit v j = if j = bit then some v else none := by
  cases d <;> first | rfl | simp [isStruct] at hd

section

variable {p : ℕ → Bool}

theorem leafAt_overlay (d : FieldDesc) : ∀ bit whole x y j,
    leafAt d bit (overlay p d bit whole x y) j =
      if leafMark p d bit whole j then leafAt d bit x j else leafAt d bit y j := by
  induction d using members_induction
    (Q := fun ms => ∀ bit whole xs ys j,
      leafAtMembers ms bit (overlayMembers p ms bit whole xs ys) j =
        if leafMarkMembers p ms bit whole j then leafAtMembers ms bit xs j
        else leafAtMembers ms bit ys j) with
  | leaf d hd =>
    intro bit whole x y j
    rw [leafAt_leaf hd, leafAt_leaf hd, leafAt_leaf hd, overlay_leaf hd, leafMark_leaf hd]
    by_cases hj : j = bit
    · cases hmark : whole || p bit <;> simp [hj]
    · simp [hj]
  | nil => rfl
  | cons name d ms hm hms bit whole xs ys j =>
    rw [overlayMembers, leafAtMembers, leafMarkMembers, leafAtMembers, leafAtMembers]
    by_cases hj : j < bit + d.totalBits
    · -- the marks of the other members are further on
      rw [if_pos hj, if_pos hj, if_pos hj, leafMarkMembers_before hj, Bool.or_false, headValue, hm]
    · rw [if_neg hj, if_neg hj, if_neg hj, leafMark_behind (Nat.le_of_not_lt hj), Bool.false_or,
        List.tail_cons, hms]
  | struct i ms ih =>
    intro bit whole x y j
    rw [leafAt, fieldsOf_overlay, leafMark, leafAt, leafAt, ih]

end

/-! ### The limits of the wire -/

mutual
/-- The marked fields are within the limits of the wire, each on its own: a structure under its own
bit as a whole. -/
def markedWithinLimits (p : ℕ → Bool) : FieldDesc → ℕ → PvField → Bool
  | .struct _ ms, bit, v =>
      if p bit then withinLimits v else markedWithinLimitsMembers p ms (bit + 1) (fieldsOf v)
  | _, bit, v => !p bit || withinLimits v

def markedWithinLimitsMembers (p : ℕ → Bool) : List Member → ℕ → List (String × PvField) → Bool
  | [], _, _ => true
  | (_, d) :: ms, bit, fs =>
      markedWithinLimits p d bit (headValue fs) &&
        markedWithinLimitsMembers p ms (bit + d.totalBits) fs.tail
end

section

variable {p : ℕ → Bool}

lemma markedWithinLimits_leaf {d} (hd : d.isStruct = false) (bit : ℕ) (v : PvField) :
    markedWithinLimits p d bit v = (!p bit || withinLimits v) := by
  cases d <;> first | rfl | simp [isStruct] at hd

lemma sendable_of_matches (d : FieldDesc) : ∀ bit v, matchesDesc v d = true →
    markedWithinLimits p d bit v = true → Sendable p d bit v := by
  induction d using struct_induction with
  | leaf d hd =>
    intro bit v hm hl
    rw [markedWithinLimits_leaf hd, Bool.or_eq_true, Bool.not_eq_true'] at hl
    refine (sendable_leaf hd).2 fun hbit => ⟨hm, ?_⟩
    rcases hl with hl | hl
    · rw [hbit] at hl
      cases hl
    · exact hl
  | struct i ms ih =>
    intro bit v hm hl
    rw [markedWithinLimits] at hl
    refine sendable_struct.2 ⟨fun hbit => ⟨hm, ?_⟩, fun hbit => ?_⟩
    · rwa [if_pos hbit] at hl
    · rw [hbit, if_neg Bool.false_ne_true] at hl
      obtain ⟨s, rfl⟩ := eq_struct_of_matchesDesc hm
      obtain ⟨-, hfields⟩ := matchesDesc_struct.1 hm
      rw [fieldsOf] at hl ⊢
      generalize s.fields = fs at hfields hl
      generalize bit + 1 = bit at hl
      clear hm hbit
      induction hfields generalizing bit with
      | nil => trivial
      | @cons f m fs ms hfm _ ihms =>
        obtain ⟨hih, hihs⟩ := List.forall_mem_cons.1 ih
        rw [markedWithinLimitsMembers, Bool.and_eq_true] at hl
        exact ⟨hih _ _ hfm.2 hl.1, ihms hihs _ hl.2⟩

lemma shaped_of_matches (d : FieldDesc) : ∀ v, matchesDesc v d = true → shaped d v = true := by
  induction d using struct_induction with
  | leaf d hd => exact fun v _ => shaped_leaf hd v
  | struct i ms ih =>
    intro v hm
    obtain ⟨s, rfl⟩ := eq_struct_of_matchesDesc hm
    obtain ⟨rfl, hfields⟩ := matchesDesc_struct.1 hm
    have hpairs := (List.forall₂_and_left _ _).2 ⟨ih, hfields.flip⟩
    refine shaped_struct.2 ⟨s.fields, rfl, shapedMembers_of_forall₂ (hpairs.imp fun m f h => ?_)⟩
    exact ⟨h.2.1, h.1 _ h.2.2⟩

end

/-! ### The codec -/

/-- **The codec of partial values agrees with itself**, for every set of bits and both byte orders:
what is written is read back exactly, whatever stands behind it.  Every field has the value that
was sent if it is marked, by its own bit or by that of a structure around it, and its default
otherwise.  Nothing is written when no bit of the descriptor is set. -/
theorem decodePvFieldWithBitset_encode (conv : ScalarConv) (order : ByteOrder) (b : BitSet)
    (d : FieldDesc) (bit : ℕ) (v : PvField) (hm : matchesDesc v d = true)
    (hl : markedWithinLimits b.get d bit v = true) (suffix : List UInt8) :
    (∃ w, decodePvFieldWithBitset order b d bit
          (encodePvFieldWithBitset conv order b v d bit ++ suffix) () = (.ok (w, suffix), ()) ∧
        shaped d w = true ∧
        ∀ j, leafAt d bit w j =
          if leafMark b.get d bit false j then leafAt d bit v j
          else leafAt d bit (defaultValueFor d) j) ∧
      ((∀ j, bit ≤ j → j < bit + d.totalBits → b.get j = false) →
        encodePvFieldWithBitset conv order b v d bit = []) := by
  have hfield : ∀ d v, matchesDesc v d = true → withinLimits v = true →
      Reads (decodePvField order d : Decoder Unit PvField) (encodePvField conv order v d) () v ()
      := by
    intro d v hm hl suffix
    obtain ⟨hfits, hnest⟩ := withinLimits_iff.1 hl
    exact zoom_eq_ok (reads_decodePvFieldAtDepth conv order TypeCache.empty v d maxFieldDepth hm
      hfits hnest suffix)
  have hread := reads_decodeWith hfield d bit v (shaped_of_matches d v hm)
    (sendable_of_matches d bit v hm hl)
  refine ⟨⟨_, hread suffix, shaped_overlay d _ _ _ _, fun j => leafAt_overlay d _ _ _ _ j⟩, ?_⟩
  intro hnone
  have hany : b.anyIn bit (bit + d.totalBits) = false := by
    rw [Bool.eq_false_iff, Ne, BitSet.anyIn_iff]
    rintro ⟨j, h₁, h₂, hget⟩
    rw [hnone j h₁ h₂] at hget
    cases hget
  rw [encodePvFieldWithBitset, hany, if_neg Bool.false_ne_true]

/-! ### In place -/

/-- **Decoding in place and decoding with defaults agree**: they fail together, and otherwise read the same bytes,
leave the same cache, and differ only in the fields that are not marked, which decoding in place leaves alone. -/
theorem decodePvFieldWithBitsetInto_agrees (order : ByteOrder) (bs : BitSet) (d : FieldDesc) (bit : ℕ)
    (dst : PvField) (i : List UInt8) (s : TypeCache) (h : shaped d dst = true) :
    (∃ e s', decodePvFieldWithBitsetCached order bs d bit i s = (.error e, s') ∧
      decodePvFieldWithBitsetInto order bs d dst bit i s = (.error e, s')) ∨
    ∃ v v' r s', decodePvFieldWithBitsetCached order bs d bit i s = (.ok (v, r), s') ∧
      decodePvFieldWithBitsetInto order bs d dst bit i s = (.ok (v', r), s') ∧ shaped d v' = true ∧
      (∀ j, leafMark bs.get d bit false j = true → leafAt d bit v' j = leafAt d bit v j) ∧
      ∀ j, leafMark bs.get d bit false j = false → leafAt d bit v' j = leafAt d bit dst j := by
  generalize hrun : decodePvFieldWithBitsetCached order bs d bit i s = run
  obtain ⟨out, s'⟩ := run
  cases out with
  | error e =>
    exact Or.inl ⟨e, s', rfl, decodePvFieldWithBitsetInto_error order bs d bit dst i s s' e hrun h⟩
  | ok vr =>
    obtain ⟨v, r⟩ := vr
    have hinto := decodePvFieldWithBitsetInto_eq order bs d bit dst i r s s' v hrun h
    refine Or.inr ⟨v, _, r, s', rfl, hinto, shaped_overlay d _ _ _ _, fun j hj => ?_, fun j hj => ?_⟩
    · rw [leafAt_overlay, if_pos hj]
    · rw [leafAt_overlay, if_neg (by simp [hj])]

def twoInts : FieldDesc := .struct "" [("a", .scalar .int), ("b", .scalar .int)]

def twoIntsValue : PvField :=
  .struct ⟨"", [("a", .scalar ⟨.int, (7 : Int32)⟩), ("b", .scalar ⟨.int, (8 : Int32)⟩)]⟩

/-- Of two numbers the second is marked and read; the first stays. -/
theorem decodePvFieldWithBitsetInto_agrees_second :
    ∃ v', decodePvFieldWithBitsetInto .big ⟨[0x04]⟩ twoInts twoIntsValue 0 [0, 0, 0, 5] .empty =
        (.ok (v', []), .empty) ∧
      leafAt twoInts 0 v' 1 = some (.scalar ⟨.int, (7 : Int32)⟩) := by
  rcases decodePvFieldWithBitsetInto_agrees .big ⟨[0x04]⟩ twoInts 0 twoIntsValue [0, 0, 0, 5] .empty
    (by decide) with ⟨e, s', hrun, -⟩ | ⟨v, v', r, s', hrun, hinto, -, -, hleft⟩
  · exact absurd (congrArg (fun out => out.1.toOption.isSome) hrun) nofun
  · obtain ⟨hout, rfl⟩ := Prod.mk.inj hrun
    obtain ⟨-, rfl⟩ := Prod.mk.inj (Except.ok.inj hout)
    exact ⟨v', hinto, hleft 1 rfl⟩

/-- The union and the rows of the sample are marked; the third bit is behind the last field. -/
def sampleBits : BitSet := ⟨[0x8A]⟩

theorem decodePvFieldWithBitset_encode_sample :
    matchesDesc sampleValue sampleDesc = true ∧
      markedWithinLimits sampleBits.get sampleDesc 0 sampleValue = true ∧
      ∃ w, decodePvFieldWithBitset .big sampleBits sampleDesc 0
          (encodePvFieldWithBitset ScalarConv.never .big sampleBits sampleValue sampleDesc 0 ++
            [0xFF]) () = (.ok (w, [0xFF]), ()) ∧
        leafAt sampleDesc 0 w 1 = leafAt sampleDesc 0 sampleValue 1 ∧
        leafAt sampleDesc 0 w 2 = some (.variant ⟨none, .null⟩) := by
  have hm : matchesDesc sampleValue sampleDesc = true := by decide
  have hl : markedWithinLimits sampleBits.get sampleDesc 0 sampleValue = true := by decide
  obtain ⟨w, hw, -, hleaf⟩ := (decodePvFieldWithBitset_encode ScalarConv.never .big sampleBits
    sampleDesc 0 sampleValue hm hl [0xFF]).1
  exact ⟨hm, hl, w, hw, hleaf 1, hleaf 2⟩

/-- Structures in each other, `n` of them, around a number. -/
def nestedStruct : ℕ → FieldDesc
  | 0 => .scalar .int
  | n + 1 => .struct "" [("a", nestedStruct n)]

/-- The default of a tower is decoded level by level, and the decoder has one level fewer than this
tower: under the bit of the root what was written is refused. -/
theorem nestedStruct_refused :
    distinctNames (nestedStruct 21) = true ∧
      matchesDesc (defaultValueFor (nestedStruct 21)) (nestedStruct 21) = true ∧
      ∃ e, (decodePvFieldWithBitset .big ⟨[0x01]⟩ (nestedStruct 21) 0
        (encodePvFieldWithBitset ScalarConv.never .big ⟨[0x01]⟩ (defaultValueFor (nestedStruct 21))
          (nestedStruct 21) 0) ()).1 = .error e :=
  ⟨by decide, by decide, _, rfl⟩

end Pva
