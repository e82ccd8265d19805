/-
**The primitive codecs of the PVA wire: integers, sizes and strings.**

This is `proto/buffer.rs`, `proto/size.rs` and `proto/string.rs`.  An encoder that appends to a
buffer is a function to the bytes it appends; a decoder over a `Cursor` is a `ByteReader`.  A size
is one byte below 254 and the marker `0xFE` with a 32-bit word from there on, with `0xFF` kept for
the null size; a string is a size and its bytes.

The lengths that the encoders are handed are `usize`, and they cut them to 32 bits.  Labels — the
names of fields and structures — are read lossily, values byte for byte.

Main results:

* `Pva.reads_decodeSize` — a size is read back;
* `Pva.reads_decodeLabel`, `Pva.reads_decodeStringValue` — a string shorter than `2 ^ 32` bytes is
  read back;
* `Pva.length_lt_of_decodeLabel` — a label that is read back is shorter than `2 ^ 32` bytes.
-/

import EpicsRs.ByteReader
import EpicsRs.ByteWords
import EpicsRs.Utf8Lossy

set_option autoImplicit false

namespace Pva

open ByteReader

/-- The faults of the decoders.  Every constructor is one message of the source, without the file
and line that `decode_err!` puts in front of it. -/
inductive DecodeError where
  /-- `short read {what}`. -/
  | shortRead (what : String)
  /-- `{what} cannot be null (0xFF size marker)`. -/
  | nullSize (what : String)
  /-- `FieldDesc nesting exceeds MAX_FIELD_DEPTH`. -/
  | descNesting
  /-- `FieldDesc node count exceeds MAX_FIELD_NODES — type-cache expansion too large`. -/
  | descNodes
  /-- `FieldDesc nesting exceeds MAX_FIELD_DEPTH after type-cache expansion`. -/
  | descExpansion
  /-- `typecache miss for slot {key}`. -/
  | cacheMiss (key : UInt16)
  /-- `{what}-array element resolved to a non-{what} descriptor`. -/
  | arrayElement (what : String)
  /-- `bounded string descriptor (0x83) is not a pvxs type code`. -/
  | boundedString
  /-- `unknown scalar array tag`. -/
  | unknownArrayTag (tag : UInt8)
  /-- `unknown type tag`. -/
  | unknownTag (tag : UInt8)
  /-- `PvField nesting exceeds MAX_FIELD_DEPTH`. -/
  | fieldNesting
  /-- `scalar array length {n} exceeds {remaining} remaining`. -/
  | arrayLength (n : ℕ)
  /-- `{what} element presence byte (expected 0x00 or 0x01)`. -/
  | presence (what : String) (b : UInt8)
  /-- `{what} selector {sel} out of range`. -/
  | selector (what : String) (sel : Int32)
  /-- `unknown status kind`. -/
  | statusKind (b : UInt8)
  /-- `{what} selector {sel_u32} out of range`, of the walk over a value. -/
  | walkSelector (what : String) (sel : UInt32)
  /-- `value flatten nesting exceeds MAX_FIELD_DEPTH`. -/
  | flattenNesting
  /-- `value flatten ran past end of frame`. -/
  | flattenEnd
deriving DecidableEq, Repr

/-- A decoder: what a function of `&mut Cursor<&[u8]>` and some mutable state computes. -/
abbrev Decoder (σ α : Type) : Type := ByteReader DecodeError σ α

variable {σ : Type}

/-! ### Integers -/

def putU16 (v : UInt16) (order : ByteOrder) : List UInt8 := order.toBytes 2 v.toNat

def putU32 (v : UInt32) (order : ByteOrder) : List UInt8 := order.toBytes 4 v.toNat

def getU8 : Decoder σ UInt8 := byte (.shortRead "u8")

def getU16 (order : ByteOrder) : Decoder σ UInt16 := do
  let buf ← bytes (.shortRead "u16") 2
  pure (UInt16.ofNat (order.ofBytes buf))

def getU32 (order : ByteOrder) : Decoder σ UInt32 := do
  let buf ← bytes (.shortRead "u32") 4
  pure (UInt32.ofNat (order.ofBytes buf))

def getBytes (n : ℕ) : Decoder σ (List UInt8) := bytes (.shortRead "bytes") n

lemma reads_getU8 (b : UInt8) (s : σ) : Reads getU8 [b] s b s := Reads.byte _ b s

/-- A word of `w` bytes is read back; the three widths of the wire are instances. -/
lemma reads_word (e : DecodeError) (order : ByteOrder) (w n : ℕ) (s : σ) :
    Reads (bytes e w) (order.toBytes w n) s (order.toBytes w n) s := by
  have h := Reads.bytes e (order.toBytes w n) s
  rwa [ByteOrder.length_toBytes] at h

lemma reads_getU16 (v : UInt16) (order : ByteOrder) (s : σ) :
    Reads (getU16 order) (putU16 v order) s v s := by
  have h := (reads_word (.shortRead "u16") order 2 v.toNat s).map
    fun buf => UInt16.ofNat (order.ofBytes buf)
  rw [ByteOrder.ofBytes_toBytes, Nat.mod_eq_of_lt (by simpa using v.toNat_lt),
    UInt16.ofNat_toNat] at h
  exact h

lemma reads_getU32 (v : UInt32) (order : ByteOrder) (s : σ) :
    Reads (getU32 order) (putU32 v order) s v s := by
  have h := (reads_word (.shortRead "u32") order 4 v.toNat s).map
    fun buf => UInt32.ofNat (order.ofBytes buf)
  rw [ByteOrder.ofBytes_toBytes, Nat.mod_eq_of_lt (by simpa using v.toNat_lt),
    UInt32.ofNat_toNat] at h
  exact h

lemma getU32_eq_ok {order v i r} {s s' : σ} :
    getU32 order i s = (.ok (v, r), s') ↔ ∃ word, i = word ++ r ∧ word.length = 4 ∧
      v = UInt32.ofNat (order.ofBytes word) ∧ s = s' := by
  rw [getU32, bind_eq_ok]
  constructor
  · rintro ⟨word, i₁, s₁, h₁, h₂⟩
    obtain ⟨rfl, rfl, rfl⟩ := pure_eq_ok.1 h₂
    obtain ⟨hi, hlen, hs⟩ := bytes_eq_ok.1 h₁
    exact ⟨word, hi, hlen, rfl, hs⟩
  · rintro ⟨word, hi, hlen, rfl, hs⟩
    exact ⟨word, r, s', bytes_eq_ok.2 ⟨hi, hlen, hs⟩, rfl⟩

lemma stateless_getU8 : Stateless (getU8 : Decoder σ _) := Stateless.byte _

variable (order : ByteOrder)

lemma stateless_getU16 : Stateless (getU16 order : Decoder σ _) :=
  (Stateless.bytes _ _).bind fun _ => Stateless.pure _

lemma stateless_getU32 : Stateless (getU32 order : Decoder σ _) :=
  (Stateless.bytes _ _).bind fun _ => Stateless.pure _

lemma stateless_getBytes (n : ℕ) : Stateless (getBytes n : Decoder σ _) := Stateless.bytes _ _

/-! ### Sizes -/

/-- `encode_size_into`. -/
def encodeSize (value : UInt32) (order : ByteOrder) : List UInt8 :=
  if value < 254 then [value.toUInt8] else 0xFE :: putU32 value order

/-- `decode_size`: `none` is the null marker. -/
def decodeSize (order : ByteOrder) : Decoder σ (Option UInt32) := do
  let b ← getU8
  if b = 0xFF then pure none
  else if b = 0xFE then do
    let v ← getU32 order
    pure (some v)
  else pure (some b.toUInt32)

def decodeSizeNonnull (order : ByteOrder) (what : String) : Decoder σ UInt32 := do
  match ← decodeSize order with
  | some n => pure n
  | none => fail (.nullSize what)

lemma reads_decodeSize (value : UInt32) (order : ByteOrder) (s : σ) :
    Reads (decodeSize order) (encodeSize value order) s (some value) s := by
  by_cases h : value < 254
  · -- the one-byte form: neither marker can be a size below 254
    have hv : value.toNat < 254 := by simpa using UInt32.lt_iff_toNat_lt.1 h
    have hbyte : value.toUInt8.toNat = value.toNat := by simp; omega
    have h₁ : value.toUInt8 ≠ 0xFF := by
      intro hc
      rw [hc] at hbyte
      simp at hbyte
      omega
    have h₂ : value.toUInt8 ≠ 0xFE := by
      intro hc
      rw [hc] at hbyte
      simp at hbyte
      omega
    have h₃ : value.toUInt8.toUInt32 = value := by
      apply UInt32.toNat_inj.1
      simpa using hbyte
    intro r
    simp only [encodeSize, h, if_true]
    rw [decodeSize, bind_of_ok (reads_getU8 _ s r)]
    simp only [h₁, h₂, if_false, h₃]
    rfl
  · intro r
    simp only [encodeSize, h, if_false]
    exact ((reads_getU32 value order s).map some) r

lemma reads_decodeSizeNonnull (value : UInt32) (order : ByteOrder) (what : String) (s : σ) :
    Reads (decodeSizeNonnull order what) (encodeSize value order) s value s := by
  intro r
  rw [decodeSizeNonnull, bind_of_ok (reads_decodeSize value order s r)]
  rfl

lemma stateless_decodeSize : Stateless (decodeSize order : Decoder σ _) :=
  stateless_getU8.bind fun _ => (Stateless.pure _).ite
    (((stateless_getU32 order).bind fun _ => Stateless.pure _).ite (Stateless.pure _))

lemma stateless_decodeSizeNonnull (what : String) :
    Stateless (decodeSizeNonnull order what : Decoder σ _) := by
  refine (stateless_decodeSize order).bind fun n => ?_
  cases n with
  | none => exact Stateless.fail _
  | some n => exact Stateless.pure n

/-! ### Strings -/

/-- A value string: raw bytes, as `PvString` keeps them. -/
abbrev PvString : Type := List UInt8

/-- `encode_string_bytes_into`: the length is cut to 32 bits. -/
def encodeStringBytes (bs : List UInt8) (order : ByteOrder) : List UInt8 :=
  encodeSize (UInt32.ofNat bs.length) order ++ bs

/-- `encode_string_into`. -/
def encodeString (value : String) (order : ByteOrder) : List UInt8 :=
  encodeStringBytes (asBytes value) order

def decodeStringBytes (order : ByteOrder) : Decoder σ (Option (List UInt8)) := do
  match ← decodeSize order with
  | some n => do
      let bs ← getBytes n.toNat
      pure (some bs)
  | none => pure none

def decodeString (order : ByteOrder) : Decoder σ (Option String) := do
  let bs ← decodeStringBytes order
  pure (bs.map fromUtf8Lossy)

def decodeStringValue (order : ByteOrder) : Decoder σ (Option PvString) :=
  decodeStringBytes order

/-- `decode_string(..)?.unwrap_or_default()`: how every label is read. -/
def decodeLabel (order : ByteOrder) : Decoder σ String := do
  let name ← decodeString order
  pure (name.getD "")

lemma reads_decodeStringBytes {bs} (h : bs.length < 2 ^ 32) (order : ByteOrder) (s : σ)
    : Reads (decodeStringBytes order) (encodeStringBytes bs order) s (some bs) s := by
  have hn : (UInt32.ofNat bs.length).toNat = bs.length := UInt32.toNat_ofNat_of_lt' h
  refine (reads_decodeSize (UInt32.ofNat bs.length) order s).bind ?_
  simp only [hn]
  exact (Reads.bytes _ bs s).map some

lemma reads_decodeStringValue {bs : PvString} (h : bs.length < 2 ^ 32) (order : ByteOrder)
    (s : σ) : Reads (decodeStringValue order) (encodeStringBytes bs order) s (some bs) s :=
  reads_decodeStringBytes h order s

lemma reads_decodeLabel {name} (h : (asBytes name).length < 2 ^ 32) (order : ByteOrder) (s : σ) :
    Reads (decodeLabel order) (encodeString name order) s name s := by
  have h₁ := (reads_decodeStringBytes h order s).map fun bs => bs.map fromUtf8Lossy
  have h₂ := h₁.map fun name => name.getD ""
  rw [Option.map_some, Option.getD_some, fromUtf8Lossy_asBytes] at h₂
  exact h₂

lemma stateless_decodeStringBytes : Stateless (decodeStringBytes order : Decoder σ _) := by
  refine (stateless_decodeSize order).bind fun n => ?_
  cases n with
  | none => exact Stateless.pure _
  | some n => exact (stateless_getBytes _).bind fun _ => Stateless.pure _

lemma stateless_decodeString : Stateless (decodeString order : Decoder σ _) :=
  (stateless_decodeStringBytes order).bind fun _ => Stateless.pure _

lemma stateless_decodeLabel : Stateless (decodeLabel order : Decoder σ _) :=
  (stateless_decodeString order).bind fun _ => Stateless.pure _

/-- A label that comes back from what was written for it is shorter than `2 ^ 32` bytes: a longer
one is announced with its length cut to 32 bits, and what is read back is too short. -/
lemma length_lt_of_decodeLabel {name order r r'} {s s' : σ}
    (h : decodeLabel order (encodeString name order ++ r) s = (.ok (name, r'), s')) :
    (asBytes name).length < 2 ^ 32 := by
  by_contra hlong
  set k := (asBytes name).length % 2 ^ 32 with hk
  have hk32 : k < 2 ^ 32 := Nat.mod_lt _ (by norm_num)
  -- the bytes that are read are the first `k` bytes of the label
  have hread : decodeStringBytes order (encodeString name order ++ r) s =
      (.ok (some ((asBytes name).take k), (asBytes name).drop k ++ r), s) := by
    rw [decodeStringBytes, encodeString, encodeStringBytes, List.append_assoc,
      bind_of_ok (reads_decodeSize _ order s (asBytes name ++ r))]
    have hsplit : asBytes name ++ r =
        (asBytes name).take k ++ ((asBytes name).drop k ++ r) := by
      rw [← List.append_assoc, List.take_append_drop]
    have hlen : ((asBytes name).take k).length = k := by
      rw [List.length_take]
      omega
    have hb := Reads.bytes (.shortRead "bytes" : DecodeError) ((asBytes name).take k) s
    rw [hlen] at hb
    rw [hsplit]
    exact (hb.map some) _
  have hname : fromUtf8Lossy ((asBytes name).take k) = name := by
    have hl : decodeLabel order (encodeString name order ++ r) s =
        (.ok (fromUtf8Lossy ((asBytes name).take k), (asBytes name).drop k ++ r), s) := by
      rw [decodeLabel, decodeString, bind_assoc', bind_of_ok hread]
      rfl
    rw [hl] at h
    simp only [Prod.mk.injEq, Except.ok.injEq] at h
    exact h.1.1
  have hshort := length_asBytes_fromUtf8Lossy_take name k
  rw [hname] at hshort
  omega

/-! ### The state is left alone -/

section

variable {I : σ → Prop}

lemma keeps_getU8 : Keeps I (getU8 : Decoder σ _) fun _ => True :=
  Keeps.of_state_eq fun i _ => by cases i <;> rfl

lemma keeps_getBytes (n : ℕ) : Keeps I (getBytes n : Decoder σ _) fun bs => bs.length = n :=
  Keeps.bytes _ n

variable (order : ByteOrder)

lemma keeps_getU16 : Keeps I (getU16 order : Decoder σ _) fun _ => True :=
  (Keeps.bytes _ 2).bind fun _ _ => Keeps.pure trivial

lemma keeps_getU32 : Keeps I (getU32 order : Decoder σ _) fun _ => True :=
  (Keeps.bytes _ 4).bind fun _ _ => Keeps.pure trivial

lemma keeps_decodeSize : Keeps I (decodeSize order : Decoder σ _) fun _ => True :=
  keeps_getU8.bind fun _ _ => Keeps.ite (fun _ => Keeps.pure trivial) fun _ =>
    Keeps.ite (fun _ => (keeps_getU32 order).bind fun _ _ => Keeps.pure trivial)
      fun _ => Keeps.pure trivial

lemma keeps_decodeSizeNonnull (what : String) :
    Keeps I (decodeSizeNonnull order what : Decoder σ _) fun _ => True := by
  refine (keeps_decodeSize order).bind fun n _ => ?_
  cases n with
  | none => exact Keeps.fail _
  | some n => exact Keeps.pure trivial

lemma keeps_decodeStringBytes : Keeps I (decodeStringBytes order : Decoder σ _)
      fun bs => ∀ b, bs = some b → b.length < 2 ^ 32 := by
  refine (keeps_decodeSize order).bind fun n _ => ?_
  cases n with
  | none => exact Keeps.pure (by simp)
  | some n =>
    refine (keeps_getBytes _).bind fun bs hbs => Keeps.pure ?_
    rintro b ⟨⟩
    rw [hbs]
    exact n.toNat_lt

lemma keeps_decodeString : Keeps I (decodeString order : Decoder σ _) fun _ => True :=
  (keeps_decodeStringBytes order).bind fun _ _ => Keeps.pure trivial

lemma keeps_decodeLabel : Keeps I (decodeLabel order : Decoder σ _) fun _ => True :=
  (keeps_decodeString order).bind fun _ _ => Keeps.pure trivial

end

end Pva
