/-
**The monitor squash.**

The queues of both ends of a connection hold the bytes of updates, `changed | value | overrun`.
When one is full, `squash_monitor_bodies` decodes the newest update and the one at the tail, lays
the newer over the older and encodes the result, so that whoever applies it sees what they would
have seen of both.

Main result: `Pva.squash_wellFormed`.
-/

import EpicsRs.PvaOverlay

set_option autoImplicit false

namespace Pva

open ByteReader FieldDesc TypeCache BitSet

/-! ### The merge -/

structure MonitorBody where
  /-- `changed | value | overrun`. -/
  bytes : List UInt8
  order : ByteOrder
deriving DecidableEq, Repr

structure Update where
  changed : BitSet
  value : PvField
  overrun : BitSet

inductive BodyPart where
  | changed
  | value
  | overrun
deriving DecidableEq, Repr

def BodyPart.text : BodyPart → String
  | .changed => "changed bitset"
  | .value => "value"
  | .overrun => "overrun bitset"

/-- The message `{what}: {cause}` of a merge that failed. -/
structure SquashError where
  what : String
  cause : DecodeError
deriving DecidableEq, Repr

/-- The fault in a part of the older or of the newer body. -/
def squashFault (age : String) (part : BodyPart) (cause : DecodeError) : SquashError :=
  ⟨age ++ " " ++ part.text, cause⟩

/-- Read a body, with `value` for the decoder of what the changed set marks. -/
def readParts {ε : Type} (fault : BodyPart → DecodeError → ε) (order : ByteOrder)
    (value : BitSet → Decoder TypeCache PvField) : ByteReader ε TypeCache Update := do
  let changed ← mapFault (fault .changed) (BitSet.decode order)
  let v ← mapFault (fault .value) (value changed)
  let overrun ← mapFault (fault .overrun) (BitSet.decode order)
  pure ⟨changed, v, overrun⟩

def encodeParts (conv : ScalarConv) (intro : FieldDesc) (order : ByteOrder) (u : Update) :
    List UInt8 :=
  u.changed.writeInto order ++
    (encodePvFieldWithBitset conv order u.changed u.value intro 0 ++ u.overrun.writeInto order)

def squashMonitorBodies (conv : ScalarConv) (intro : FieldDesc) (older newer : MonitorBody)
    (outOrder : ByteOrder) : Except SquashError (List UInt8) := do
  let (a, _) ← (readParts (squashFault "older") older.order
    (fun changed => decodePvFieldWithBitset older.order changed intro 0)
    older.bytes TypeCache.empty).1
  let (b, _) ← (readParts (squashFault "newer") newer.order
    (fun changed => decodePvFieldWithBitsetInto newer.order changed intro a.value 0)
    newer.bytes TypeCache.empty).1
  let changed := (leafBits a.changed intro 0 false BitSet.new).unionInto
    (leafBits b.changed intro 0 false BitSet.new)
  let overrun := a.overrun.unionInto b.overrun
  pure (encodeParts conv intro outOrder ⟨changed, b.value, overrun⟩)

/-! ### The parts of a body -/

section

variable {ε : Type} {fault : BodyPart → DecodeError → ε} {order : ByteOrder}
  {value : BitSet → Decoder TypeCache PvField} {i r : List UInt8} {s s' : TypeCache} {u : Update}

lemma readParts_eq_ok :
    readParts fault order value i s = (.ok (u, r), s') ↔
      ∃ i₁ i₂, decode order i s = (.ok (u.changed, i₁), s) ∧
        value u.changed i₁ s = (.ok (u.value, i₂), s') ∧
        decode order i₂ s' = (.ok (u.overrun, r), s') := by
  simp only [readParts, bind_eq_ok, pure_eq_ok, mapFault_eq_ok]
  constructor
  · rintro ⟨changed, i₁, s₁, h₁, v, i₂, s₂, h₂, overrun, i₃, s₃, h₃, rfl, rfl, rfl⟩
    obtain rfl := (stateless_decode order _ _ _ _ _ h₁).1
    obtain rfl := (stateless_decode order _ _ _ _ _ h₃).1
    exact ⟨i₁, i₂, h₁, h₂, h₃⟩
  · rintro ⟨i₁, i₂, h₁, h₂, h₃⟩
    exact ⟨_, i₁, s, h₁, _, i₂, s', h₂, _, r, s', h₃, rfl, rfl, rfl⟩

end

/-- The body is that of the update: it can be read, and no descriptor in it is one that the type
cache of a connection has to be asked for. -/
structure WellFormed (intro : FieldDesc) (body : MonitorBody) (u : Update) : Prop where
  reads : ∃ rest, readParts (fun _ e => e) body.order
    (fun changed => decodePvFieldWithBitsetCached body.order changed intro 0)
    body.bytes TypeCache.empty = (.ok (u, rest), TypeCache.empty)
  labels : labelsShort u.value = true

section

variable {intro : FieldDesc} {body : MonitorBody} {u : Update}

lemma WellFormed.shaped_value (h : WellFormed intro body u) : shaped intro u.value = true := by
  obtain ⟨rest, hread⟩ := h.reads
  obtain ⟨i₁, i₂, -, hvalue, -⟩ := readParts_eq_ok.1 hread
  exact (shaped_decodeWith intro 0).2 _ _ _ _ _ not_false hvalue not_false

lemma WellFormed.carries (h : WellFormed intro body u) :
    Carries u.changed.get intro 0 false u.value := by
  obtain ⟨rest, hread⟩ := h.reads
  obtain ⟨i₁, i₂, -, hvalue, -⟩ := readParts_eq_ok.1 hread
  have hempty := not_touched.2 (rfl : empty = empty)
  exact (clean_decodeWith intro 0).2 _ _ _ _ _ hempty hvalue hempty h.labels

lemma WellFormed.length_overrun (h : WellFormed intro body u) :
    u.overrun.bytes.length < 2 ^ 32 := by
  obtain ⟨rest, hread⟩ := h.reads
  obtain ⟨i₁, i₂, -, -, hoverrun⟩ := readParts_eq_ok.1 hread
  exact length_of_decode hoverrun

variable {ε : Type} (fault : BodyPart → DecodeError → ε)

lemma WellFormed.reads_fresh (h : WellFormed intro body u) :
    ∃ rest, readParts fault body.order
      (fun changed => decodePvFieldWithBitset body.order changed intro 0) body.bytes
      empty = (.ok (u, rest), empty) := by
  obtain ⟨rest, hread⟩ := h.reads
  obtain ⟨i₁, i₂, hchanged, hvalue, hoverrun⟩ := readParts_eq_ok.1 hread
  have hfresh := decodeWith_fresh empty intro 0 i₁ i₂ u.value hvalue
  exact ⟨rest, readParts_eq_ok.2 ⟨i₁, i₂, hchanged, hfresh, hoverrun⟩⟩

lemma WellFormed.reads_into (h : WellFormed intro body u) {dst} (hdst : shaped intro dst = true) :
    ∃ rest, readParts fault body.order
      (fun changed => decodePvFieldWithBitsetInto body.order changed intro dst 0) body.bytes
      empty =
        (.ok (⟨u.changed, overlay u.changed.get intro 0 false u.value dst, u.overrun⟩, rest),
          empty) := by
  obtain ⟨rest, hread⟩ := h.reads
  obtain ⟨i₁, i₂, hchanged, hvalue, hoverrun⟩ := readParts_eq_ok.1 hread
  have hinto := decodePvFieldWithBitsetInto_eq body.order u.changed intro 0 dst _ _ _ _ _ hvalue hdst
  exact ⟨rest, readParts_eq_ok.2 ⟨i₁, i₂, hchanged, hinto, hoverrun⟩⟩

end

/-! ### The bits of the merge -/

lemma length_leafBits_le {src n} (d : FieldDesc) :
    ∀ bit whole out, out.bytes.length ≤ n → bit + d.totalBits ≤ 8 * n →
      (leafBits src d bit whole out).bytes.length ≤ n := by
  induction d using members_induction
    (Q := fun ms => ∀ bit whole out, out.bytes.length ≤ n →
      bit + totalBitsMembers ms ≤ 8 * n →
      (leafBitsMembers src ms bit whole out).bytes.length ≤ n) with
  | leaf d hd =>
    intro bit whole out hout hbit
    rw [totalBits_of_leaf hd] at hbit
    rw [leafBits_leaf hd]
    split_ifs
    · rw [length_set]
      omega
    · exact hout
  | nil _ _ _ hout => exact hout
  | cons name d ms hm hms bit whole out hout hbit =>
    rw [totalBitsMembers] at hbit
    exact hms _ _ _ (hm bit whole out hout (by omega)) (by omega)
  | struct i ms ih =>
    intro bit whole out hout hbit
    rw [totalBits] at hbit
    exact ih _ _ _ hout (by omega)

/-- The bits of the descriptor are as many as the count of a set can say. -/
def bitsFit (intro : FieldDesc) : Prop := intro.totalBits ≤ 8 * (2 ^ 32 - 1)

variable {intro : FieldDesc}

/-! ### What the merge returns -/

variable {u : Update}

/-- **A body is read back**: its sets without the zero bytes at their ends, and its value with the
defaults where it is not marked. -/
theorem reads_encodeParts (conv : ScalarConv) (order : ByteOrder)
    (hchanged : u.changed.bytes.length < 2 ^ 32) (hoverrun : u.overrun.bytes.length < 2 ^ 32)
    (hspelled : Joins u.changed.get u.changed.get u.changed.get intro 0 false false)
    (hshape : shaped intro u.value = true) (hcarry : Carries u.changed.get intro 0 false u.value) :
    Reads (readParts (fun _ e => e) order
        fun changed => decodePvFieldWithBitsetCached order changed intro 0)
      (encodeParts conv intro order u) empty
      ⟨u.changed.trim, overlay u.changed.get intro 0 false u.value (defaultValueFor intro),
        u.overrun.trim⟩ empty := by
  have htrim : u.changed.trim.get = u.changed.get := funext u.changed.get_trim
  have hfield : ∀ d v, matchesDesc v d = true → withinLimits v = true →
      Reads (decodePvFieldCached order d) (encodePvField conv order v d) empty v
        empty := by
    intro d v hm hl
    obtain ⟨hfits, hnest⟩ := withinLimits_iff.1 hl
    exact reads_decodePvFieldAtDepth conv order empty v d maxFieldDepth hm hfits hnest
  rw [← htrim] at hspelled hcarry
  have hvalue := reads_decodeWith hfield intro 0 u.value hshape
    (sendable_of_carries intro 0 u.value hspelled hcarry)
  rw [encodePvFieldWithBitset_congr u.changed.get_trim, htrim] at hvalue
  have hset : ∀ (b : BitSet), b.bytes.length < 2 ^ 32 →
      Reads (decode order) (b.writeInto order) empty b.trim empty :=
    fun b hb => reads_decode hb order empty
  intro rest
  rw [encodeParts, List.append_assoc, List.append_assoc]
  exact readParts_eq_ok.2 ⟨_, _, hset _ hchanged _, hvalue _, hset _ hoverrun rest⟩

/-- The update `u` is what the merge of `b` into `a` carries. -/
structure IsSquash (intro : FieldDesc) (u a b : Update) : Prop where
  changed : ∀ i, u.changed.get i =
    (leafMark a.changed.get intro 0 false i || leafMark b.changed.get intro 0 false i)
  value : u.value = overlay u.changed.get intro 0 false
    (overlay b.changed.get intro 0 false b.value a.value) (defaultValueFor intro)
  overrun : ∀ i, u.overrun.get i = (a.overrun.get i || b.overrun.get i)

/-- **The merged update is the two updates, one after the other.** -/
theorem IsSquash.overlay_eq {a b} (h : IsSquash intro u a b) (prior : PvField) :
    overlay u.changed.get intro 0 false u.value prior =
      overlay b.changed.get intro 0 false b.value
        (overlay a.changed.get intro 0 false a.value prior) := by
  have hjoins := joins_of_leafMark intro 0 false false fun j _ _ => h.changed j
  rw [h.value, overlay_same, overlay_overlay intro 0 false false _ _ _ hjoins]

section

variable {intro : FieldDesc} {older newer : MonitorBody} {a b : Update}

/-- **The merge succeeds** on well-formed bodies, and what it returns is one. -/
theorem squash_wellFormed (conv : ScalarConv) (hbits : bitsFit intro)
    (ha : WellFormed intro older a) (hb : WellFormed intro newer b) (outOrder : ByteOrder) :
    ∃ body u, squashMonitorBodies conv intro older newer outOrder = .ok body ∧
      WellFormed intro ⟨body, outOrder⟩ u ∧ IsSquash intro u a b := by
  obtain ⟨restA, hreadA⟩ := ha.reads_fresh (squashFault "older")
  obtain ⟨restB, hreadB⟩ := hb.reads_into (squashFault "newer") ha.shaped_value
  -- the bits of both, spelled out down to the leaves
  let changed := (leafBits a.changed intro 0 false new).unionInto
    (leafBits b.changed intro 0 false new)
  let value := overlay b.changed.get intro 0 false b.value a.value
  let u : Update := ⟨changed, value, a.overrun.unionInto b.overrun⟩
  have hget : ∀ i, changed.get i =
      (leafMark a.changed.get intro 0 false i || leafMark b.changed.get intro 0 false i) := by
    intro i
    simp only [changed, get_unionInto, get_leafBits, get_new, Bool.false_or]
  have hjoins := joins_of_leafMark intro 0 false false fun j _ _ => hget j
  -- no bit lies behind the last field, so the bit sets stay within their size
  have hlength : ∀ src : BitSet, (leafBits src intro 0 false new).bytes.length ≤ 2 ^ 32 - 1 :=
    fun src => length_leafBits_le intro 0 false new (Nat.zero_le _) (by rwa [Nat.zero_add])
  have hchanged := length_unionInto_le (hlength a.changed) (hlength b.changed)
  have hoverrun := length_unionInto_le (n := 2 ^ 32 - 1)
    (Nat.le_sub_one_of_lt ha.length_overrun) (Nat.le_sub_one_of_lt hb.length_overrun)
  -- what is sent is read back, because the marked fields came from the wire
  have hread := reads_encodeParts conv outOrder (u := u)
    (Nat.lt_of_le_pred (Nat.two_pow_pos 32) hchanged)
    (Nat.lt_of_le_pred (Nat.two_pow_pos 32) hoverrun)
    (Joins.self intro 0 false false hjoins) (shaped_overlay intro _ _ _ _)
    (carries_overlay intro 0 false false _ _ hjoins ha.carries hb.carries) []
  rw [List.append_nil] at hread
  refine ⟨encodeParts conv intro outOrder u, _, ?_, ⟨⟨[], hread⟩, ?_⟩, ?_⟩
  · simp only [squashMonitorBodies, hreadA, bind, Except.bind, hreadB]
    rfl
  · exact labelsShort_overlay _ intro _ _ _ _
      (labelsShort_overlay _ intro _ _ _ _ hb.labels ha.labels) (labelsShort_default intro)
  · refine ⟨fun i => ?_, ?_, fun i => ?_⟩
    · rw [get_trim]
      exact hget i
    · rw [show u.changed.trim.get = u.changed.get from funext u.changed.get_trim]
    · rw [get_trim, get_unionInto]

end

/-! ### What a consumer sees -/

/-- Decode a body with `decode_pv_field_with_bitset` and complete the value with
`fill_unmarked_from_prior`. -/
def applyBody (intro : FieldDesc) (body : MonitorBody) (prior : PvField) :
    Except DecodeError PvField := do
  let (u, _) ← (readParts (fun _ e => e) body.order
    (fun changed => decodePvFieldWithBitset body.order changed intro 0)
    body.bytes TypeCache.empty).1
  pure (fillUnmarkedFromPrior u.changed intro 0 u.value prior)

lemma applyBody_eq (hnames : distinctNames intro = true) {body} (h : WellFormed intro body u)
    {prior} (hprior : shaped intro prior = true) :
    applyBody intro body prior = .ok (overlay u.changed.get intro 0 false u.value prior) := by
  obtain ⟨rest, hread⟩ := h.reads_fresh fun _ e => e
  simp only [applyBody, hread]
  exact congrArg Except.ok
    (fillUnmarkedFromPrior_eq u.changed intro hnames 0 u.value prior h.shaped_value hprior)

/-- Decode a body in place, with `decode_pv_field_with_bitset_into`. -/
def assignBody (intro : FieldDesc) (body : MonitorBody) (prior : PvField) :
    Except DecodeError PvField := do
  let (u, _) ← (readParts (fun _ e => e) body.order
    (fun changed => decodePvFieldWithBitsetInto body.order changed intro prior 0)
    body.bytes TypeCache.empty).1
  pure u.value

lemma assignBody_eq {body} (h : WellFormed intro body u) {prior}
    (hprior : shaped intro prior = true) :
    assignBody intro body prior = .ok (overlay u.changed.get intro 0 false u.value prior) := by
  obtain ⟨rest, hread⟩ := h.reads_into (fun _ e => e) hprior
  simp only [assignBody, hread]
  rfl

/-- **A merge is the composition of its updates**: it succeeds, a consumer of it sees what it would
have seen of both, its changed set is that of both with the structures spelled out, and its overrun
set is that of both. -/
theorem squash_composes (conv : ScalarConv) {intro : FieldDesc}
    (hnames : distinctNames intro = true) (hbits : bitsFit intro) {older newer : MonitorBody}
    {a b : Update} (ha : WellFormed intro older a) (hb : WellFormed intro newer b)
    (outOrder : ByteOrder) :
    ∃ body u, squashMonitorBodies conv intro older newer outOrder = .ok body ∧
      WellFormed intro ⟨body, outOrder⟩ u ∧
      (∀ prior, shaped intro prior = true → ∃ between last,
        applyBody intro older prior = .ok between ∧ applyBody intro newer between = .ok last ∧
        applyBody intro ⟨body, outOrder⟩ prior = .ok last) ∧
      (∀ i, u.changed.get i =
        (leafMark a.changed.get intro 0 false i || leafMark b.changed.get intro 0 false i)) ∧
      (∀ i, u.overrun.get i = (a.overrun.get i || b.overrun.get i)) := by
  obtain ⟨body, u, hsquash, hu, his⟩ := squash_wellFormed conv hbits ha hb outOrder
  refine ⟨body, u, hsquash, hu, fun prior hprior => ?_, his.changed, his.overrun⟩
  refine ⟨_, _, applyBody_eq hnames ha hprior, applyBody_eq hnames hb (shaped_overlay intro _ _ _ _),
    ?_⟩
  rw [applyBody_eq hnames hu hprior, his.overlay_eq]

/-- A structure with a structure in it: bit 1 is `n`, bit 2 is `s`, bits 3 and 4 are its fields. -/
def pairDesc : FieldDesc :=
  .struct "" [("n", .scalar .int), ("s", .struct "" [("x", .scalar .byte), ("y", .scalar .byte)])]

/-- The older update marks the inner structure as a whole, and bit 9, which no field has. -/
def olderPair : MonitorBody := ⟨[2, 0x04, 0x02, 7, 8, 0], .little⟩

def newerPair : MonitorBody := ⟨[1, 0x08, 9, 1, 0x02], .big⟩

def olderPairUpdate : Update :=
  ⟨⟨[0x04, 0x02]⟩, .struct ⟨"", [("n", .scalar ⟨.int, (0 : Int32)⟩), ("s", .struct ⟨"",
    [("x", .scalar ⟨.byte, (7 : Int8)⟩), ("y", .scalar ⟨.byte, (8 : Int8)⟩)]⟩)]⟩, ⟨[]⟩⟩

@[inherit_doc olderPairUpdate]
def newerPairUpdate : Update :=
  ⟨⟨[0x08]⟩, .struct ⟨"", [("n", .scalar ⟨.int, (0 : Int32)⟩), ("s", .struct ⟨"",
    [("x", .scalar ⟨.byte, (9 : Int8)⟩), ("y", .scalar ⟨.byte, (0 : Int8)⟩)]⟩)]⟩, ⟨[0x02]⟩⟩

lemma bitsFit_pairDesc : bitsFit pairDesc := by
  rw [bitsFit]
  decide

lemma wellFormed_olderPair : WellFormed pairDesc olderPair olderPairUpdate :=
  ⟨⟨[], rfl⟩, rfl⟩

lemma wellFormed_newerPair : WellFormed pairDesc newerPair newerPairUpdate :=
  ⟨⟨[], rfl⟩, rfl⟩

/-- The field `x` is the newer one and the field `y` the older one. -/
theorem squash_composes_pair :
    distinctNames pairDesc = true ∧ bitsFit pairDesc ∧
      shaped pairDesc (defaultValueFor pairDesc) = true ∧ ∃ body between last,
        squashMonitorBodies ScalarConv.never pairDesc olderPair newerPair .little = .ok body ∧
        applyBody pairDesc olderPair (defaultValueFor pairDesc) = .ok between ∧
        applyBody pairDesc newerPair between = .ok last ∧
        applyBody pairDesc ⟨body, .little⟩ (defaultValueFor pairDesc) = .ok last := by
  obtain ⟨body, u, hsquash, -, happly, -, -⟩ := squash_composes ScalarConv.never
    (by decide : distinctNames pairDesc = true) bitsFit_pairDesc wellFormed_olderPair
    wellFormed_newerPair .little
  obtain ⟨between, last, h₁, h₂, h₃⟩ := happly (defaultValueFor pairDesc) (by decide)
  exact ⟨by decide, bitsFit_pairDesc, by decide, body, between, last, hsquash, h₁, h₂, h₃⟩

end Pva
