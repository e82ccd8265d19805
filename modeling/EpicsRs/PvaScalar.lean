/-
**Scalars and arrays of scalars.**

`ScalarValue` and `TypedScalarArray` have one case for each of the twelve scalar types.  Here they
are a scalar type, and an element or a list of elements of that type.  Integers are machine
integers, the float types bit patterns, and a string is its bytes.  An array of words goes over the
wire as one copy of memory, or element by element; the bytes are the same.

Main results: `Pva.reads_decodeScalar`, `Pva.encodeTypedScalarArray_eq`,
`Pva.reads_decodeTypedScalarArray`.
-/

import EpicsRs.PvaProto
import EpicsRs.PvaFieldDesc

set_option autoImplicit false

namespace Pva

open ByteReader List

/-! ### Words -/

/-- `i8`. -/
def wordI8 : WordRep Int8 where
  width := 1
  toNat x := x.toUInt8.toNat
  ofNat n := (UInt8.ofNat n).toInt8
  toNat_lt x := x.toUInt8.toNat_lt
  ofNat_toNat x := by rw [UInt8.ofNat_toNat]; rfl

/-- `u8`. -/
def wordU8 : WordRep UInt8 where
  width := 1
  toNat x := x.toNat
  ofNat n := UInt8.ofNat n
  toNat_lt x := x.toNat_lt
  ofNat_toNat _ := UInt8.ofNat_toNat

/-- `i16`. -/
def wordI16 : WordRep Int16 where
  width := 2
  toNat x := x.toUInt16.toNat
  ofNat n := (UInt16.ofNat n).toInt16
  toNat_lt x := x.toUInt16.toNat_lt
  ofNat_toNat x := by rw [UInt16.ofNat_toNat]; rfl

/-- `u16`. -/
def wordU16 : WordRep UInt16 where
  width := 2
  toNat x := x.toNat
  ofNat n := UInt16.ofNat n
  toNat_lt x := x.toNat_lt
  ofNat_toNat _ := UInt16.ofNat_toNat

/-- `i32`. -/
def wordI32 : WordRep Int32 where
  width := 4
  toNat x := x.toUInt32.toNat
  ofNat n := (UInt32.ofNat n).toInt32
  toNat_lt x := x.toUInt32.toNat_lt
  ofNat_toNat x := by rw [UInt32.ofNat_toNat]; rfl

/-- `u32`, and the bits of an `f32`. -/
def wordU32 : WordRep UInt32 where
  width := 4
  toNat x := x.toNat
  ofNat n := UInt32.ofNat n
  toNat_lt x := x.toNat_lt
  ofNat_toNat _ := UInt32.ofNat_toNat

/-- `i64`. -/
def wordI64 : WordRep Int64 where
  width := 8
  toNat x := x.toUInt64.toNat
  ofNat n := (UInt64.ofNat n).toInt64
  toNat_lt x := x.toUInt64.toNat_lt
  ofNat_toNat x := by rw [UInt64.ofNat_toNat]; rfl

/-- `u64`, and the bits of an `f64`. -/
def wordU64 : WordRep UInt64 where
  width := 8
  toNat x := x.toNat
  ofNat n := UInt64.ofNat n
  toNat_lt x := x.toNat_lt
  ofNat_toNat _ := UInt64.ofNat_toNat

section

variable {α σ : Type} (w : WordRep α)

/-- `get_i8` to `get_f64`: a word, or a short read under the name of the type that is read. -/
def getWord (what : String) (order : ByteOrder) : Decoder σ α := do
  let buf ← bytes (.shortRead what) w.width
  pure (w.get order buf)

lemma reads_getWord (what : String) (order : ByteOrder) (x : α) (s : σ) :
    Reads (getWord w what order) (w.put order x) s x s := by
  have hb := Reads.bytes (.shortRead what : DecodeError) (w.put order x) s
  rw [w.length_put] at hb
  have h := hb.map (w.get order)
  rwa [w.get_put] at h

lemma stateless_getWord (what : String) (order : ByteOrder) :
    Stateless (getWord w what order : Decoder σ α) :=
  (Stateless.bytes _ _).bind fun _ => Stateless.pure _

end

/-! ### Scalars -/

def ScalarType.Elem : ScalarType → Type
  | boolean => Bool
  | byte => Int8
  | short => Int16
  | int => Int32
  | long => Int64
  | ubyte => UInt8
  | ushort => UInt16
  | uint => UInt32
  | ulong => UInt64
  | float => UInt32
  | double => UInt64
  | string => PvString

instance : (st : ScalarType) → DecidableEq st.Elem
  | .boolean => inferInstanceAs (DecidableEq Bool)
  | .byte => inferInstanceAs (DecidableEq Int8)
  | .short => inferInstanceAs (DecidableEq Int16)
  | .int => inferInstanceAs (DecidableEq Int32)
  | .long => inferInstanceAs (DecidableEq Int64)
  | .ubyte => inferInstanceAs (DecidableEq UInt8)
  | .ushort => inferInstanceAs (DecidableEq UInt16)
  | .uint => inferInstanceAs (DecidableEq UInt32)
  | .ulong => inferInstanceAs (DecidableEq UInt64)
  | .float => inferInstanceAs (DecidableEq UInt32)
  | .double => inferInstanceAs (DecidableEq UInt64)
  | .string => inferInstanceAs (DecidableEq (List UInt8))

structure ScalarValue where
  st : ScalarType
  val : st.Elem
deriving DecidableEq

structure TypedScalarArray where
  st : ScalarType
  items : List st.Elem
deriving DecidableEq

def TypedScalarArray.toScalarValues (arr : TypedScalarArray) : List ScalarValue :=
  arr.items.map fun x => ⟨arr.st, x⟩

/-- The value of `zero_scalar`. -/
def ScalarType.zero : (st : ScalarType) → st.Elem
  | boolean => false
  | byte => (0 : Int8)
  | short => (0 : Int16)
  | int => (0 : Int32)
  | long => (0 : Int64)
  | ubyte => (0 : UInt8)
  | ushort => (0 : UInt16)
  | uint => (0 : UInt32)
  | ulong => (0 : UInt64)
  | float => (0 : UInt32)
  | double => (0 : UInt64)
  | string => ([] : List UInt8)

def zeroScalar (st : ScalarType) : ScalarValue := ⟨st, st.zero⟩

/-- `super::coerce_scalar` in the mode `ScalarCopy::Out`: the conversions between scalar types,
of which only the type of the result matters here. -/
structure ScalarConv where
  copyOut : ScalarValue → ScalarType → Option ScalarValue
  st_copyOut : ∀ v st w, copyOut v st = some w → w.st = st

def ScalarConv.never : ScalarConv := ⟨fun _ _ => none, by simp⟩

def coerceScalar (conv : ScalarConv) (v : ScalarValue) (st : ScalarType) : ScalarValue :=
  if v.st = st then v else (conv.copyOut v st).getD (zeroScalar st)

lemma st_coerceScalar (conv : ScalarConv) (v : ScalarValue) (st : ScalarType) :
    (coerceScalar conv v st).st = st := by
  unfold coerceScalar
  split_ifs with h
  · exact h
  · cases hc : conv.copyOut v st with
    | none => rfl
    | some w => exact conv.st_copyOut v st w hc

lemma coerceScalar_self (conv : ScalarConv) (v : ScalarValue) : coerceScalar conv v v.st = v :=
  if_pos rfl

def boolByte (b : Bool) : UInt8 := if b then 1 else 0

/-- `encode_scalar_value`, on the element. -/
def encodeScalar (order : ByteOrder) : (st : ScalarType) → st.Elem → List UInt8
  | .boolean, b => [boolByte b]
  | .byte, x => wordI8.put order x
  | .ubyte, x => wordU8.put order x
  | .short, x => wordI16.put order x
  | .ushort, x => wordU16.put order x
  | .int, x => wordI32.put order x
  | .uint, x => wordU32.put order x
  | .long, x => wordI64.put order x
  | .ulong, x => wordU64.put order x
  | .float, x => wordU32.put order x
  | .double, x => wordU64.put order x
  | .string, x => encodeStringBytes x order

def encodeScalarValue (v : ScalarValue) (order : ByteOrder) : List UInt8 :=
  encodeScalar order v.st v.val

/-- `decode_scalar_value`, without the tag of the result. -/
def decodeScalar {σ : Type} (order : ByteOrder) : (st : ScalarType) → Decoder σ st.Elem
  | .boolean => do
      let b ← getU8
      pure (decide (b ≠ 0))
  | .byte => getWord wordI8 "u8" order
  | .ubyte => getWord wordU8 "u8" order
  | .short => getWord wordI16 "u16" order
  | .ushort => getWord wordU16 "u16" order
  | .int => getWord wordI32 "u32" order
  | .uint => getWord wordU32 "u32" order
  | .long => getWord wordI64 "u64" order
  | .ulong => getWord wordU64 "u64" order
  | .float => getWord wordU32 "f32" order
  | .double => getWord wordU64 "f64" order
  | .string => do
      let s ← decodeStringValue order
      pure (s.getD [])

def decodeScalarValue {σ : Type} (st : ScalarType) (order : ByteOrder) : Decoder σ ScalarValue := do
  let x ← decodeScalar order st
  pure ⟨st, x⟩

/-- A string is shorter than `2 ^ 32` bytes; every other scalar has a fixed width. -/
def ScalarType.elemFits : (st : ScalarType) → st.Elem → Bool
  | .string, x => decide (List.length (α := UInt8) x < 2 ^ 32)
  | _, _ => true

/-! ### Arrays -/

/-- The byte order of the host, as `cfg!(target_endian)` has it on the targets of the crate. -/
def hostOrder : ByteOrder := .little

/-- `emit_pod`: the memory of the array when the byte orders agree, its elements swapped one by one
when they do not. -/
def emitPod {α : Type} (w : WordRep α) (host order : ByteOrder) (a : List α) : List UInt8 :=
  if host = order then a.flatMap (w.put host) else a.flatMap (w.put order)

/-- `read_pod_array`: more bytes than there are left is a fault of its own, and nothing else is. -/
def readPodArray {α σ : Type} (w : WordRep α) (host order : ByteOrder) (n : ℕ) :
    Decoder σ (List α) := do
  let buf ← bytes (.arrayLength n) (n * w.width)
  pure (if host = order then w.getAll host n buf else w.getAll order n buf)

/-- `encode_typed_scalar_array`, on the elements. -/
def encodeTypedItems (order : ByteOrder) : (st : ScalarType) → List st.Elem → List UInt8
  | .boolean, a => List.map boolByte a
  | .byte, a => List.map Int8.toUInt8 a
  | .ubyte, a => a
  | .short, a => emitPod wordI16 hostOrder order a
  | .ushort, a => emitPod wordU16 hostOrder order a
  | .int, a => emitPod wordI32 hostOrder order a
  | .uint, a => emitPod wordU32 hostOrder order a
  | .long, a => emitPod wordI64 hostOrder order a
  | .ulong, a => emitPod wordU64 hostOrder order a
  | .float, a => emitPod wordU32 hostOrder order a
  | .double, a => emitPod wordU64 hostOrder order a
  | .string, a => List.flatMap (fun s => encodeStringBytes s order) a

def encodeTypedScalarArray (arr : TypedScalarArray) (order : ByteOrder) : List UInt8 :=
  encodeTypedItems order arr.st arr.items

/-- `decode_typed_scalar_array`, without the tag of the result. -/
def decodeTypedItems {σ : Type} (order : ByteOrder) (n : ℕ) :
    (st : ScalarType) → Decoder σ (List st.Elem)
  | .boolean => do
      let buf ← getBytes n
      pure (List.map (fun b : UInt8 => decide (b ≠ 0)) buf)
  | .byte => do
      let buf ← getBytes n
      pure (List.map UInt8.toInt8 buf)
  | .ubyte => getBytes n
  | .short => readPodArray wordI16 hostOrder order n
  | .ushort => readPodArray wordU16 hostOrder order n
  | .int => readPodArray wordI32 hostOrder order n
  | .uint => readPodArray wordU32 hostOrder order n
  | .long => readPodArray wordI64 hostOrder order n
  | .ulong => readPodArray wordU64 hostOrder order n
  | .float => readPodArray wordU32 hostOrder order n
  | .double => readPodArray wordU64 hostOrder order n
  | .string => times (do
      let s ← decodeStringValue order
      pure (s.getD [])) n

/-- `decode_typed_scalar_array`; it is total over the twelve types. -/
def decodeTypedScalarArray {σ : Type} (st : ScalarType) (n : ℕ) (order : ByteOrder) :
    Decoder σ TypedScalarArray := do
  let items ← decodeTypedItems order n st
  pure ⟨st, items⟩

/-! ### Words -/

/-- A scalar of the type is the word `w`, and an array of them is an array of words. -/
structure ScalarType.Pod (st : ScalarType) (w : WordRep st.Elem) (what : String) : Prop where
  fits : ∀ x, st.elemFits x = true
  encode : ∀ order, encodeScalar order st = w.put order
  decode : ∀ (σ : Type) order, (decodeScalar order st : Decoder σ _) = getWord w what order
  encodeItems : ∀ order, encodeTypedItems order st = emitPod w hostOrder order
  decodeItems : ∀ (σ : Type) order n,
    (decodeTypedItems order n st : Decoder σ _) = readPodArray w hostOrder order n

lemma ScalarType.pod_cases {P : ScalarType → Prop} (boolean : P .boolean) (string : P .string)
    (byte : P .byte) (ubyte : P .ubyte) (pod : ∀ st w what, Pod st w what → P st) (st) : P st := by
  cases st with
  | boolean => exact boolean
  | string => exact string
  | byte => exact byte
  | ubyte => exact ubyte
  | short => exact pod _ wordI16 "u16" (by constructor <;> intros <;> rfl)
  | ushort => exact pod _ wordU16 "u16" (by constructor <;> intros <;> rfl)
  | int => exact pod _ wordI32 "u32" (by constructor <;> intros <;> rfl)
  | uint => exact pod _ wordU32 "u32" (by constructor <;> intros <;> rfl)
  | long => exact pod _ wordI64 "u64" (by constructor <;> intros <;> rfl)
  | ulong => exact pod _ wordU64 "u64" (by constructor <;> intros <;> rfl)
  | float => exact pod _ wordU32 "f32" (by constructor <;> intros <;> rfl)
  | double => exact pod _ wordU64 "f64" (by constructor <;> intros <;> rfl)

/-! ### What is written is read -/

section

variable {α σ : Type} {order : ByteOrder}

theorem reads_decodeScalar {st : ScalarType} {x} (h : st.elemFits x = true) (s : σ) :
    Reads (decodeScalar order st) (encodeScalar order st x) s x s := by
  cases st using ScalarType.pod_cases with
  | boolean =>
    have hb := (reads_getU8 (boolByte x) s).map fun b => decide (b ≠ 0)
    cases x
    · exact hb
    · exact hb
  | string =>
    have hlen : length (α := UInt8) x < 2 ^ 32 := by
      simpa [ScalarType.elemFits] using h
    exact (reads_decodeStringValue hlen order s).map fun s => s.getD []
  | byte => exact reads_getWord wordI8 "u8" order x s
  | ubyte => exact reads_getWord wordU8 "u8" order x s
  | pod st w what hst =>
    rw [hst.decode, hst.encode]
    exact reads_getWord w what order x s

variable (st : ScalarType)

lemma stateless_decodeScalar : Stateless (decodeScalar order st : Decoder σ _) := by
  cases st using ScalarType.pod_cases with
  | boolean => exact stateless_getU8.bind fun _ => Stateless.pure _
  | string => exact (stateless_decodeStringBytes order).bind fun _ => Stateless.pure _
  | byte => exact stateless_getWord wordI8 _ order
  | ubyte => exact stateless_getWord wordU8 _ order
  | pod st w what hst => exact hst.decode σ order ▸ stateless_getWord w what order

lemma emitPod_eq (w : WordRep α) (host order : ByteOrder) (a : List α) :
    emitPod w host order a = a.flatMap (w.put order) := by
  unfold emitPod
  split_ifs with h
  · rw [h]
  · rfl

lemma readPodArray_eq (w : WordRep α) (host order : ByteOrder) (n : ℕ) :
    (readPodArray w host order n : Decoder σ _) =
      bytes (.arrayLength n) (n * w.width) >>= fun buf => pure (w.getAll order n buf) := by
  unfold readPodArray
  congr 1
  funext buf
  split_ifs with h
  · rw [h]
  · rfl

/-- **An array is written as its elements in order.** -/
theorem encodeTypedScalarArray_eq (items : List st.Elem) :
    encodeTypedScalarArray ⟨st, items⟩ order = items.flatMap (encodeScalar order st) := by
  cases st using ScalarType.pod_cases with
  | boolean => exact map_eq_flatMap (f := boolByte)
  | byte =>
    have h : ∀ x : Int8, wordI8.put order x = [x.toUInt8] := by
      intro x
      cases order <;> simp [WordRep.put, wordI8, ByteOrder.toBytes, leBytes]
    exact map_eq_flatMap.trans (flatMap_congr fun x _ => (h x).symm)
  | ubyte =>
    have h : ∀ x : UInt8, wordU8.put order x = [x] := by
      intro x
      cases order <;> simp [WordRep.put, wordU8, ByteOrder.toBytes, leBytes]
    have hid : items = map id items := (map_id items).symm
    exact (hid.trans map_eq_flatMap).trans (flatMap_congr fun x _ => (h x).symm)
  | string => rfl
  | pod st w what hst =>
    rw [encodeTypedScalarArray, hst.encodeItems, hst.encode]
    exact emitPod_eq w hostOrder order items

lemma reads_readPodArray (w : WordRep α) (host : ByteOrder) (a : List α) (s : σ) :
    Reads (readPodArray w host order a.length) (a.flatMap (w.put order)) s a s := by
  have hb := Reads.bytes (.arrayLength a.length : DecodeError) (a.flatMap (w.put order)) s
  rw [w.length_flatMap_put] at hb
  have h := hb.map (w.getAll order a.length)
  rw [w.getAll_flatMap_put] at h
  rw [readPodArray_eq]
  exact h

lemma reads_getBytes_map {f g} (hfg : ∀ x, f (g x) = x) (a : List α) (s : σ)
    : Reads (getBytes a.length >>= fun buf => pure (buf.map f)) (a.map g) s a s := by
  have hb := Reads.bytes (.shortRead "bytes" : DecodeError) (a.map g) s
  rw [length_map] at hb
  have h := hb.map (map f)
  rw [map_map, show f ∘ g = id from funext hfg, map_id] at h
  exact h

theorem reads_decodeTypedScalarArray {arr : TypedScalarArray}
    (h : ∀ x ∈ arr.items, arr.st.elemFits x = true) (s : σ) :
    Reads (decodeTypedScalarArray arr.st arr.items.length order)
      (encodeTypedScalarArray arr order) s arr s := by
  obtain ⟨st, items⟩ := arr
  suffices hitems : Reads (decodeTypedItems order items.length st)
      (encodeTypedScalarArray ⟨st, items⟩ order) s items s from
    hitems.map fun items => (⟨st, items⟩ : TypedScalarArray)
  cases st using ScalarType.pod_cases with
  | boolean =>
    have hb : ∀ b : Bool, decide (boolByte b ≠ 0) = b := by decide
    exact reads_getBytes_map hb items s
  | byte => exact reads_getBytes_map (g := Int8.toUInt8) (fun x => rfl) items s
  | ubyte => exact Reads.bytes _ items s
  | string =>
    have hitem : ∀ x ∈ items, Reads (decodeScalar order .string)
        (encodeScalar order .string x) s x s := fun x hx => reads_decodeScalar (h x hx) s
    exact Reads.times hitem
  | pod st w what hst =>
    rw [encodeTypedScalarArray, hst.encodeItems, hst.decodeItems, emitPod_eq]
    exact reads_readPodArray w hostOrder items s

lemma stateless_decodeTypedItems (n : ℕ) :
    Stateless (decodeTypedItems order n st : Decoder σ _) := by
  cases st using ScalarType.pod_cases with
  | boolean => exact (stateless_getBytes n).bind fun _ => Stateless.pure _
  | byte => exact (stateless_getBytes n).bind fun _ => Stateless.pure _
  | ubyte => exact stateless_getBytes n
  | string =>
    have hitem : Stateless (decodeScalar order .string : Decoder σ _) := stateless_decodeScalar .string
    exact Stateless.times hitem n
  | pod st w what hst =>
    rw [hst.decodeItems]
    exact (Stateless.bytes _ _).bind fun _ => Stateless.pure _

lemma stateless_decodeTypedScalarArray (n : ℕ) :
    Stateless (decodeTypedScalarArray st n order : Decoder σ _) :=
  (stateless_decodeTypedItems st n).bind fun _ => Stateless.pure _

end

end Pva
