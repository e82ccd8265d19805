/-
**The header of a Channel Access message.**

A message has a header of sixteen bytes, big-endian, and a body.  A body or an element count that does not
fit the sixteen bits of the header is announced by the size `0xFFFF`: eight bytes follow then, with both
numbers in 32 bits.  Only peers from minor version 9 on know this form.

Main result: `Ca.CaHeader.fromBytesForPeer_toBytesExtended`.
-/

import EpicsRs.ByteWords

set_option autoImplicit false

namespace Ca

open Option

/-- `CaError`, as far as it is used here. -/
inductive CaError where
  | badCount
  | protocol (text : String)
deriving DecidableEq, Repr

/-- `ca_v49`: the peer knows the extended header. -/
def caV49 (minor : UInt16) : Bool := decide (9 ≤ minor)

/-! ### Words on the wire -/

/-- `to_be_bytes` of a `u16`. -/
def be16 (x : UInt16) : List UInt8 := ByteOrder.big.toBytes 2 x.toNat

/-- `to_be_bytes` of a `u32`. -/
def be32 (x : UInt32) : List UInt8 := ByteOrder.big.toBytes 4 x.toNat

/-- `u16::from_be_bytes` of two bytes of a buffer. -/
def getU16 (buf : List UInt8) (pos : ℕ) : UInt16 :=
  UInt16.ofNat (ByteOrder.big.ofBytes ((buf.drop pos).take 2))

/-- `u32::from_be_bytes` of four bytes of a buffer. -/
def getU32 (buf : List UInt8) (pos : ℕ) : UInt32 :=
  UInt32.ofNat (ByteOrder.big.ofBytes ((buf.drop pos).take 4))

@[simp] lemma length_be16 (x : UInt16) : (be16 x).length = 2 := ByteOrder.length_toBytes _ _ _

@[simp] lemma length_be32 (x : UInt32) : (be32 x).length = 4 := ByteOrder.length_toBytes _ _ _

lemma getU16_append (front : List UInt8) {pos} (x : UInt16) (back : List UInt8)
    (h : front.length = pos) : getU16 (front ++ (be16 x ++ back)) pos = x := by
  unfold getU16
  rw [List.drop_left' h, List.take_left' (length_be16 x), be16, ByteOrder.ofBytes_toBytes,
    Nat.mod_eq_of_lt (show x.toNat < 256 ^ 2 from x.toNat_lt), UInt16.ofNat_toNat]

lemma getU32_append (front : List UInt8) {pos} (x : UInt32) (back : List UInt8)
    (h : front.length = pos) : getU32 (front ++ (be32 x ++ back)) pos = x := by
  unfold getU32
  rw [List.drop_left' h, List.take_left' (length_be32 x), be32, ByteOrder.ofBytes_toBytes,
    Nat.mod_eq_of_lt (show x.toNat < 256 ^ 4 from x.toNat_lt), UInt32.ofNat_toNat]

/-! ### Headers -/

structure CaHeader where
  cmmd : UInt16
  postsize : UInt16
  dataType : UInt16
  count : UInt16
  cid : UInt32
  available : UInt32
  extendedPostsize : Option UInt32
  extendedCount : Option UInt32
deriving DecidableEq, Repr

def extendedExtra : ℕ := 8

namespace CaHeader

def size : ℕ := 16

def new (cmmd : UInt16) : CaHeader := ⟨cmmd, 0, 0, 0, 0, 0, none, none⟩

def isExtended (hdr : CaHeader) : Bool := hdr.postsize = 0xFFFF && hdr.extendedPostsize.isSome

def actualPostsize (hdr : CaHeader) : ℕ :=
  if hdr.postsize = 0xFFFF then
    match hdr.extendedPostsize with
    | some ext => ext.toNat
    | none => hdr.postsize.toNat
  else hdr.postsize.toNat

def actualCount (hdr : CaHeader) : UInt32 :=
  if hdr.postsize = 0xFFFF then
    match hdr.extendedCount with
    | some ext => ext
    | none => hdr.count.toUInt32
  else hdr.count.toUInt32

/-- `set_payload_size`.  The error is `ExtendedHeaderUnsupported`. -/
def setPayloadSize (hdr : CaHeader) (size : ℕ) (count : UInt32) (peerMinor : UInt16) :
    Except Unit CaHeader :=
  if 0xFFFF ≤ size ∨ 0xFFFF ≤ count then
    if !caV49 peerMinor then .error ()
    else .ok { hdr with
      postsize := 0xFFFF
      count := 0
      extendedPostsize := some (UInt32.ofNat size)
      extendedCount := some count }
  else .ok { hdr with
    postsize := UInt16.ofNat size
    count := count.toUInt16
    extendedPostsize := none
    extendedCount := none }

def toBytes (hdr : CaHeader) : List UInt8 :=
  be16 hdr.cmmd ++ (be16 hdr.postsize ++ (be16 hdr.dataType ++ (be16 hdr.count ++
    (be32 hdr.cid ++ be32 hdr.available))))

def toBytesExtended (hdr : CaHeader) : List UInt8 :=
  if hdr.isExtended then
    hdr.toBytes ++ (be32 (hdr.extendedPostsize.getD 0) ++ be32 (hdr.extendedCount.getD 0))
  else hdr.toBytes

def ofFields (buf : List UInt8) : CaHeader where
  cmmd := getU16 buf 0
  postsize := getU16 buf 2
  dataType := getU16 buf 4
  count := getU16 buf 6
  cid := getU32 buf 8
  available := getU32 buf 12
  extendedPostsize := none
  extendedCount := none

def fromBytes (buf : List UInt8) : Except CaError CaHeader :=
  if buf.length < 16 then
    .error (.protocol ("header too short: " ++ toString buf.length ++ " bytes"))
  else .ok (ofFields buf)

/-- `from_bytes_extended`, with the number of bytes that the header takes. -/
def fromBytesExtended (buf : List UInt8) : Except CaError (CaHeader × ℕ) :=
  if buf.length < 16 then
    .error (.protocol ("header too short: " ++ toString buf.length ++ " bytes"))
  else do
    let hdr ← fromBytes buf
    if hdr.postsize = 0xFFFF then
      if buf.length < 24 then .error (.protocol "extended header incomplete")
      else pure ({ hdr with
        extendedPostsize := some (getU32 buf 16)
        extendedCount := some (getU32 buf 20) }, 24)
    else pure (hdr, 16)

def fromBytesForPeer (buf : List UInt8) (peerMinor : UInt16) : Except CaError (CaHeader × ℕ) :=
  if caV49 peerMinor then fromBytesExtended buf
  else do
    let hdr ← fromBytes buf
    pure (hdr, 16)

@[simp] lemma length_toBytes (hdr : CaHeader) : hdr.toBytes.length = 16 := by
  simp [toBytes]

lemma length_toBytesExtended (hdr : CaHeader) :
    hdr.toBytesExtended.length = if hdr.isExtended then 24 else 16 := by
  unfold toBytesExtended
  split_ifs <;> simp

lemma ofFields_toBytes (hdr : CaHeader) (rest : List UInt8) :
    ofFields (hdr.toBytes ++ rest) =
      { hdr with extendedPostsize := none, extendedCount := none } := by
  obtain ⟨cmmd, postsize, dataType, count, cid, available, extPost, extCount⟩ := hdr
  simp only [ofFields, toBytes, List.append_assoc, CaHeader.mk.injEq, and_true]
  refine ⟨?_, ?_, ?_, ?_, ?_, ?_⟩
  · exact getU16_append [] cmmd _ rfl
  · exact getU16_append (be16 cmmd) postsize _ (by simp)
  · simpa using getU16_append (be16 cmmd ++ be16 postsize) dataType _ (by simp)
  · simpa using getU16_append (be16 cmmd ++ be16 postsize ++ be16 dataType) count _ (by simp)
  · simpa using getU32_append (be16 cmmd ++ be16 postsize ++ be16 dataType ++ be16 count) cid _ (by simp)
  · simpa using getU32_append (be16 cmmd ++ be16 postsize ++ be16 dataType ++ be16 count ++ be32 cid)
      available rest (by simp)

/-- The header is one that `set_payload_size` leaves: the size `0xFFFF` is kept for the extended form. -/
structure Formed (hdr : CaHeader) : Prop where
  extended : hdr.postsize = 0xFFFF → hdr.extendedPostsize.isSome ∧ hdr.extendedCount.isSome
  plain : hdr.postsize ≠ 0xFFFF → hdr.extendedPostsize = none ∧ hdr.extendedCount = none

variable {hdr : CaHeader}

lemma Formed.isExtended_eq (h : hdr.Formed) :
    hdr.isExtended = decide (hdr.postsize = 0xFFFF) := by
  unfold isExtended
  by_cases hpost : hdr.postsize = 0xFFFF
  · simp [hpost, (h.extended hpost).1]
  · simp [hpost]

variable {peerMinor : UInt16}

/-- `from_bytes_for_peer` of a buffer that is long enough. -/
lemma fromBytesForPeer_of_length {buf} (hlen : 16 ≤ buf.length)
    (hext : caV49 peerMinor → (ofFields buf).postsize = 0xFFFF → 24 ≤ buf.length) :
    fromBytesForPeer buf peerMinor =
      if caV49 peerMinor ∧ (ofFields buf).postsize = 0xFFFF then
        .ok ({ ofFields buf with
          extendedPostsize := some (getU32 buf 16)
          extendedCount := some (getU32 buf 20) }, 24)
      else .ok (ofFields buf, 16) := by
  have hnot : ¬ buf.length < 16 := Nat.not_lt.2 hlen
  simp only [fromBytesForPeer, fromBytesExtended, fromBytes, if_neg hnot, bind, Except.bind, pure,
    Except.pure]
  by_cases hv : caV49 peerMinor
  · by_cases hpost : (ofFields buf).postsize = 0xFFFF
    · rw [if_pos hv, if_pos hpost, if_neg (Nat.not_lt.2 (hext hv hpost)), if_pos ⟨hv, hpost⟩]
    · rw [if_pos hv, if_neg hpost, if_neg fun h => hpost h.2]
  · rw [if_neg hv, if_neg fun h => hv h.1]

/-- **A header is read back by the peer it was made for**, which knows its form. -/
theorem fromBytesForPeer_toBytesExtended (h : hdr.Formed)
    (hpeer : hdr.postsize = 0xFFFF → caV49 peerMinor) (rest : List UInt8) :
    fromBytesForPeer (hdr.toBytesExtended ++ rest) peerMinor =
      .ok (hdr, hdr.toBytesExtended.length) := by
  have hlen := hdr.length_toBytesExtended
  have hextended := h.isExtended_eq
  obtain ⟨cmmd, postsize, dataType, count, cid, available, extPost, extCount⟩ := hdr
  by_cases hpost : postsize = 0xFFFF
  · -- the extended form
    obtain ⟨hsize, hcount⟩ := h.extended hpost
    obtain ⟨size, rfl⟩ := isSome_iff_exists.1 hsize
    obtain ⟨elements, rfl⟩ := isSome_iff_exists.1 hcount
    rw [hextended, if_pos (by simpa using hpost)] at hlen
    rw [hlen, toBytesExtended, hextended, if_pos (by simpa using hpost)]
    generalize hhdr : (⟨cmmd, postsize, dataType, count, cid, available, some size,
      some elements⟩ : CaHeader) = hdr
    have hfields := hdr.ofFields_toBytes (be32 size ++ (be32 elements ++ rest))
    have hsize' := getU32_append hdr.toBytes size (be32 elements ++ rest) hdr.length_toBytes
    have hcount' : getU32 ((hdr.toBytes ++ be32 size) ++ (be32 elements ++ rest)) 20 = elements :=
      getU32_append _ elements rest (by simp)
    subst hhdr
    simp only [getD_some, List.append_assoc] at hfields hsize' hcount' ⊢
    rw [fromBytesForPeer_of_length (by simp) (fun _ _ => by simp; omega), hfields,
      if_pos ⟨hpeer hpost, hpost⟩, hsize', hcount']
  · obtain ⟨hsize, hcount⟩ := h.plain hpost
    obtain rfl : extPost = none := hsize
    obtain rfl : extCount = none := hcount
    have hform : decide (postsize = 0xFFFF) = false := decide_eq_false hpost
    rw [hlen, toBytesExtended, hextended, hform]
    simp only [Bool.false_eq_true, if_false]
    have hfields := ofFields_toBytes ⟨cmmd, postsize, dataType, count, cid, available, none, none⟩ rest
    have hbuf : 16 ≤ (toBytes ⟨cmmd, postsize, dataType, count, cid, available, none, none⟩ ++
        rest).length := by
      rw [List.length_append, length_toBytes]
      omega
    have hplain : (ofFields (toBytes ⟨cmmd, postsize, dataType, count, cid, available, none, none⟩ ++
        rest)).postsize ≠ 0xFFFF := by
      rw [hfields]
      exact hpost
    rw [fromBytesForPeer_of_length hbuf (fun _ h => absurd h hplain), if_neg fun h => hplain h.2, hfields]

/-- `set_payload_size` leaves a header of one of the two forms, with the size and the count. -/
lemma setPayloadSize_ok {hdr' size count} (hsize : size < 2 ^ 32)
    (h : hdr.setPayloadSize size count peerMinor = .ok hdr') :
    hdr'.Formed ∧ (hdr'.postsize = 0xFFFF → caV49 peerMinor) ∧ hdr'.actualPostsize = size ∧
      hdr'.actualCount = count ∧ hdr'.cmmd = hdr.cmmd ∧ hdr'.dataType = hdr.dataType ∧
      hdr'.cid = hdr.cid ∧ hdr'.available = hdr.available := by
  unfold setPayloadSize at h
  split_ifs at h with hform hv
  · obtain rfl := Except.ok.inj h
    refine ⟨⟨fun _ => ⟨rfl, rfl⟩, fun hne => absurd rfl hne⟩, fun _ => by simpa using hv, ?_, rfl, rfl,
      rfl, rfl, rfl⟩
    exact Nat.mod_eq_of_lt hsize
  · obtain rfl := Except.ok.inj h
    obtain ⟨hsmall, hfew⟩ := not_or.1 hform
    have hlt : size < 0xFFFF := by omega
    have hpost : UInt16.ofNat size ≠ 0xFFFF := by
      intro heq
      have := congrArg UInt16.toNat heq
      rw [UInt16.toNat_ofNat', Nat.mod_eq_of_lt (by omega)] at this
      exact absurd this (by simpa using Nat.ne_of_lt hlt)
    refine ⟨⟨fun heq => absurd heq hpost, fun _ => ⟨rfl, rfl⟩⟩, fun heq => absurd heq hpost, ?_, ?_,
      rfl, rfl, rfl, rfl⟩
    · simp only [actualPostsize, if_neg hpost]
      rw [UInt16.toNat_ofNat', Nat.mod_eq_of_lt (by omega)]
    · simp only [actualCount, if_neg hpost]
      have hcount : count.toNat < 2 ^ 16 := by
        have := UInt32.lt_iff_toNat_lt.1 (UInt32.not_le.1 hfew)
        have h16 : (0xFFFF : UInt32).toNat = 65535 := rfl
        omega
      apply UInt32.toNat_inj.1
      rw [UInt16.toNat_toUInt32, UInt32.toNat_toUInt16, Nat.mod_eq_of_lt hcount]

lemma setPayloadSize_error {size count} :
    hdr.setPayloadSize size count peerMinor = .error () ↔
      (0xFFFF ≤ size ∨ 0xFFFF ≤ count) ∧ peerMinor < 9 := by
  unfold setPayloadSize caV49
  split_ifs with hform hv
  · simp [hform] at hv ⊢
    exact hv
  · simp [hform] at hv ⊢
    exact hv
  · simp [hform]

end CaHeader

end Ca
