/-
**The checksum of a Modbus RTU frame.**

`compute_crc` (`modbus-rs/src/interpose.rs`) shifts a register of 16 bits once for every bit of the
data, least significant bits first.  A shift is linear in exclusive or and loses nothing; so up to
16 bits that are fed one by one act as if they had stood in the register from the start, and a burst
of errors, fed to a register of zeros, leaves something in it.

Main result: `Modbus.rtu_frame_detects_bursts`.
-/

import Mathlib

set_option autoImplicit false

namespace Modbus

open List

/-! ### Framing on an RTU link -/

/-- `ModbusError`, as far as RTU frames give rise to it. -/
inductive ModbusError where
  | frameTooLarge (len : ℕ)
  | frameTooShort (got need : ℕ)
  | crcError
deriving DecidableEq, Repr

structure FramedRequest where
  bytes : List UInt8
  transactionId : Option UInt16
deriving DecidableEq, Repr

structure UnwrappedResponse where
  pdu : List UInt8
  transactionId : Option UInt16
deriving DecidableEq, Repr

/-- The body of the inner loop of `compute_crc`. -/
def crcShift (crc : BitVec 16) : BitVec 16 :=
  if crc &&& 0x0001#16 ≠ 0#16 then (crc >>> 1) ^^^ 0xA001#16 else crc >>> 1

/-- The body of the outer loop of `compute_crc`. -/
def crcByte (crc : BitVec 16) (byte : UInt8) : BitVec 16 :=
  Nat.iterate crcShift 8 (crc ^^^ byte.toBitVec.setWidth 16)

def computeCrc (data : List UInt8) : BitVec 16 := data.foldl crcByte 0xFFFF#16

def maxModbusFrameSize : ℕ := 600

/-- `frame_request`, its arm for `LinkType::Rtu`. -/
def frameRequestRtu (pdu : List UInt8) : Except ModbusError FramedRequest :=
  let crc := computeCrc pdu
  let frame := pdu ++ [⟨(crc &&& 0xFF#16).setWidth 8⟩, ⟨(crc >>> 8).setWidth 8⟩]
  if frame.length > maxModbusFrameSize then .error (.frameTooLarge frame.length)
  else .ok ⟨frame, none⟩

/-- `unwrap_response`, its arm for `LinkType::Rtu`. -/
def unwrapResponseRtu (frame : List UInt8) : Except ModbusError UnwrappedResponse :=
  if frame.length < 4 then .error (.frameTooShort frame.length 4)
  else if computeCrc frame ≠ 0#16 then .error .crcError
  else .ok ⟨(frame.take (frame.length - 2)).drop 1, none⟩

/-! ### One shift, bit by bit -/

lemma getLsbD_crcShift (crc : BitVec 16) (i : ℕ) :
    (crcShift crc).getLsbD i =
      (crc.getLsbD (i + 1) ^^ (crc.getLsbD 0 && (0xA001#16).getLsbD i)) := by
  have hlow : crc &&& 0x0001#16 ≠ 0#16 ↔ crc.getLsbD 0 = true := by
    rw [show (0x0001#16) = BitVec.twoPow 16 0 from rfl, BitVec.and_twoPow]
    cases crc.getLsbD 0 <;> decide
  unfold crcShift
  split_ifs with h
  · rw [hlow.1 h, Bool.true_and, BitVec.getLsbD_xor, BitVec.getLsbD_ushiftRight, Nat.add_comm]
  · rw [Bool.eq_false_iff.2 (mt hlow.2 h), Bool.false_and, Bool.xor_false,
      BitVec.getLsbD_ushiftRight, Nat.add_comm]

lemma crcShift_xor (a b : BitVec 16) : crcShift (a ^^^ b) = crcShift a ^^^ crcShift b := by
  refine BitVec.eq_of_getLsbD_eq fun i _ => ?_
  simp only [getLsbD_crcShift, BitVec.getLsbD_xor, Bool.and_xor_distrib_right, Bool.xor_assoc,
    Bool.xor_left_comm (b.getLsbD (i + 1))]

lemma eq_zero_of_crcShift {crc} (h : crcShift crc = 0#16) : crc = 0#16 := by
  have hbit (i : ℕ) : (crcShift crc).getLsbD i = false := by rw [h]; simp
  have hlow : crc.getLsbD 0 = false := by
    have htop := hbit 15
    rwa [getLsbD_crcShift, BitVec.getLsbD_of_ge crc (15 + 1) (by omega), Bool.false_xor,
      show (0xA001#16).getLsbD 15 = true from rfl, Bool.and_true] at htop
  refine BitVec.eq_of_getLsbD_eq fun i _ => ?_
  cases i with
  | zero => exact hlow
  | succ i =>
    have hup := hbit i
    rwa [getLsbD_crcShift, hlow, Bool.false_and, Bool.xor_false, ← BitVec.getLsbD_zero] at hup

lemma crcShift_shiftLeft {w : BitVec 16} (h : w.getLsbD 15 = false) : crcShift (w <<< 1) = w := by
  refine BitVec.eq_of_getLsbD_eq fun i hi => ?_
  rw [getLsbD_crcShift, BitVec.getLsbD_shiftLeft, BitVec.getLsbD_shiftLeft]
  rcases Nat.lt_or_ge i 15 with h15 | h15
  · simp [show i + 1 < 16 by omega]
  · obtain rfl : i = 15 := by omega
    rw [h]
    rfl

lemma iterate_eq_zero {crc} :
    ∀ n : ℕ, Nat.iterate crcShift n crc = 0#16 → crc = 0#16
  | 0, h => h
  | n + 1, h => eq_zero_of_crcShift (iterate_eq_zero n h)

/-! ### Feeding bits -/

def bit (b : Bool) : BitVec 16 := (BitVec.ofBool b).setWidth 16

def feed (crc : BitVec 16) (b : Bool) : BitVec 16 := crcShift (crc ^^^ bit b)

/-- The bits of a byte, **least significant first**. -/
def byteBits (b : UInt8) : List Bool := List.ofFn fun i : Fin 8 => b.toBitVec.getLsbD i

def bits (data : List UInt8) : List Bool := data.flatMap byteBits

def word : List Bool → BitVec 16
  | [] => 0#16
  | b :: bs => bit b ^^^ (word bs <<< 1)

lemma getLsbD_word (bs : List Bool) :
    ∀ i : ℕ, (word bs).getLsbD i = (decide (i < 16) && bs.getD i false) := by
  induction bs with
  | nil => intro i; simp [word]
  | cons b bs ih =>
    intro i
    cases i with
    | zero => simp [word, bit]
    | succ i =>
      rcases Nat.lt_or_ge (i + 1) 16 with h | h
      · rw [word, BitVec.getLsbD_xor, BitVec.getLsbD_shiftLeft, Nat.add_sub_cancel, ih]
        simp [bit, h, Nat.lt_of_succ_lt h]
      · simp [BitVec.getLsbD_of_ge _ _ h, Nat.not_lt.2 h]

/-- **Bits fed one by one act as if they had stood in the register from the start.** -/
theorem foldl_feed_eq (bs : List Bool) :
    ∀ crc : BitVec 16, bs.length ≤ 16 →
      bs.foldl feed crc = Nat.iterate crcShift bs.length (crc ^^^ word bs) := by
  induction bs with
  | nil => intro crc _; simp [word]
  | cons b bs ih =>
    intro crc hlen
    rw [length_cons] at hlen
    have htop : (word bs).getLsbD 15 = false := by
      rw [getLsbD_word, getD_eq_default _ _ (by omega), Bool.and_false]
    rw [foldl_cons, ih _ (by omega), length_cons, Nat.iterate, word,
      ← BitVec.xor_assoc, crcShift_xor, crcShift_shiftLeft htop, feed]

@[simp] lemma length_byteBits (b : UInt8) : (byteBits b).length = 8 := length_ofFn

lemma getD_byteBits (b : UInt8) (i : ℕ) : (byteBits b).getD i false = b.toBitVec.getLsbD i := by
  rcases Nat.lt_or_ge i 8 with h | h
  · rw [getD_eq_getElem _ _ (by simpa using h)]
    exact List.getElem_ofFn _
  · rw [getD_eq_default _ _ (by simpa using h), BitVec.getLsbD_of_ge _ _ h]

lemma word_byteBits (b : UInt8) : word (byteBits b) = b.toBitVec.setWidth 16 := by
  refine BitVec.eq_of_getLsbD_eq fun i _ => ?_
  rw [getLsbD_word, BitVec.getLsbD_setWidth, getD_byteBits]

lemma computeCrc_eq (data : List UInt8) :
    ∀ crc : BitVec 16, data.foldl crcByte crc = (bits data).foldl feed crc := by
  induction data with
  | nil => intro crc; rfl
  | cons b data ih =>
    intro crc
    have hbyte : crcByte crc b = (byteBits b).foldl feed crc := by
      rw [foldl_feed_eq _ _ (by simp), word_byteBits, length_byteBits, crcByte]
    rw [foldl_cons, hbyte, ih, bits, bits, flatMap_cons, foldl_append]

/-! ### The checksum of a frame as it was sent -/

/-- **A register fed with its own bits is empty.** -/
theorem foldl_own_bytes (crc : BitVec 16) :
    [⟨(crc &&& 0xFF#16).setWidth 8⟩, ⟨(crc >>> 8).setWidth 8⟩].foldl crcByte crc = 0#16 := by
  set lo : UInt8 := ⟨(crc &&& 0xFF#16).setWidth 8⟩ with hlo
  set hi : UInt8 := ⟨(crc >>> 8).setWidth 8⟩ with hhi
  have hbits : bits [lo, hi] = byteBits lo ++ byteBits hi := by simp [bits]
  have hword : word (bits [lo, hi]) = crc := by
    refine BitVec.eq_of_getLsbD_eq fun i h16 => ?_
    rw [getLsbD_word, hbits]
    rcases Nat.lt_or_ge i 8 with h | h
    · rw [getD_append _ _ _ _ (by simpa using h), getD_byteBits, hlo]
      interval_cases i <;> simp
    · rw [getD_append_right _ _ _ _ (by simpa using h), getD_byteBits, hhi, length_byteBits]
      simp [h16, show i - 8 < 8 by omega, show 8 + (i - 8) = i by omega]
  rw [computeCrc_eq, foldl_feed_eq _ _ (by simp [hbits]), hword, BitVec.xor_self]
  exact Function.iterate_fixed (by decide) _

/-! ### Errors -/

lemma foldl_feed_xor (bs : List Bool) :
    ∀ (cs : List Bool) (a b : BitVec 16), bs.length = cs.length →
      (zipWith xor bs cs).foldl feed (a ^^^ b) = bs.foldl feed a ^^^ cs.foldl feed b := by
  induction bs with
  | nil =>
    intro cs a b hlen
    obtain rfl := length_eq_zero_iff.1 hlen.symm
    rfl
  | cons x bs ih =>
    intro cs a b hlen
    obtain _ | ⟨y, cs⟩ := cs
    · cases hlen
    have hbit : bit (xor x y) = bit x ^^^ bit y := by cases x <;> cases y <;> rfl
    have hfeed : feed (a ^^^ b) (xor x y) = feed a x ^^^ feed b y := by
      rw [feed, feed, feed, ← crcShift_xor, hbit]
      ac_rfl
    rw [zipWith_cons_cons, foldl_cons, hfeed, ih cs _ _ (Nat.succ.inj hlen)]
    rfl

lemma foldl_feed_false {bs : List Bool} (h : ∀ b ∈ bs, b = false) (crc : BitVec 16) :
    bs.foldl feed crc = Nat.iterate crcShift bs.length crc := by
  induction bs generalizing crc with
  | nil => rfl
  | cons b bs ih =>
    obtain rfl : b = false := h b mem_cons_self
    rw [foldl_cons, ih fun c hc => h c (mem_cons_of_mem _ hc), feed]
    simp [bit]

lemma foldl_burst_ne_zero {bs : List Bool} {p} (hset : true ∈ bs)
    (hburst : ∀ i, bs[i]? = some true → p ≤ i ∧ i < p + 16) : bs.foldl feed 0#16 ≠ 0#16 := by
  set w := (bs.drop p).take 16 with hw
  have hbefore : ∀ b ∈ bs.take p, b = false := by
    intro b hb
    obtain ⟨i, hi⟩ := mem_iff_getElem?.1 hb
    rw [getElem?_take] at hi
    split_ifs at hi with hip
    cases b
    · rfl
    · exact absurd (hburst i hi).1 (Nat.not_le.2 hip)
  have hafter : ∀ b ∈ (bs.drop p).drop 16, b = false := by
    intro b hb
    obtain ⟨i, hi⟩ := mem_iff_getElem?.1 hb
    rw [getElem?_drop, getElem?_drop] at hi
    cases b
    · rfl
    · have := (hburst _ hi).2
      omega
  have hsplit : bs = bs.take p ++ (w ++ (bs.drop p).drop 16) := by simp [hw]
  have hmem : true ∈ w := by
    rw [hsplit, mem_append, mem_append] at hset
    rcases hset with h | h | h
    · cases hbefore _ h
    · exact h
    · cases hafter _ h
  intro hzero
  -- the zeros before the burst keep the register empty, those after it lose nothing
  rw [hsplit, foldl_append, foldl_append, foldl_feed_false hbefore,
    Function.iterate_fixed (by decide), foldl_feed_false hafter] at hzero
  have hburst := iterate_eq_zero _ hzero
  rw [foldl_feed_eq _ _ (by simp [hw]), BitVec.zero_xor] at hburst
  obtain ⟨i, hi, hget⟩ := mem_iff_getElem.1 hmem
  have h16 : i < 16 := Nat.lt_of_lt_of_le hi (by simp [hw])
  have hbit : (word w).getLsbD i = true := by
    rw [getLsbD_word, getD_eq_getElem _ _ hi, hget, decide_eq_true h16, Bool.true_and]
  rw [iterate_eq_zero _ hburst] at hbit
  simp at hbit

/-! ### The main result -/

/-- The bytes of a frame with the bits of an error pattern flipped. -/
def flip (frame err : List UInt8) : List UInt8 := List.zipWith (· ^^^ ·) frame err

/-- An error pattern with a set bit, whose set bits stand within 16 consecutive ones. -/
def IsBurst (err : List UInt8) : Prop :=
  true ∈ bits err ∧ ∃ p : ℕ, ∀ i, (bits err)[i]? = some true → p ≤ i ∧ i < p + 16

lemma bits_flip (frame : List UInt8) :
    ∀ err : List UInt8, err.length = frame.length →
      bits (flip frame err) = zipWith xor (bits frame) (bits err) := by
  induction frame with
  | nil => intro err _; rfl
  | cons b frame ih =>
    intro err hlen
    obtain _ | ⟨c, err⟩ := err
    · cases hlen
    have hbyte : byteBits (b ^^^ c) = zipWith xor (byteBits b) (byteBits c) := by
      simp [byteBits]
    have htail := ih err (Nat.succ.inj hlen)
    simp only [bits, flip, zipWith_cons_cons, flatMap_cons] at htail ⊢
    rw [zipWith_append (by simp), hbyte, htail]

lemma length_bits (data : List UInt8) : (bits data).length = 8 * data.length := by
  induction data with
  | nil => rfl
  | cons b data ih =>
    rw [bits, flatMap_cons, length_append, length_byteBits, ← bits, ih, length_cons]
    omega

lemma unwrapResponseRtu_ok {frame resp} (h : unwrapResponseRtu frame = .ok resp)
    : computeCrc frame = 0#16 := by
  unfold unwrapResponseRtu at h
  split_ifs at h with hlen hcrc
  exact not_not.1 hcrc

/-- **What `frame_request` frames is accepted, without its first byte; and an accepted frame is
rejected once an error of up to 16 consecutive bits has hit it.** -/
theorem rtu_frame_detects_bursts :
    (∀ (pdu : List UInt8) (req : FramedRequest), 2 ≤ pdu.length → frameRequestRtu pdu = .ok req →
      unwrapResponseRtu req.bytes = .ok ⟨pdu.drop 1, none⟩) ∧
    ∀ (frame err : List UInt8) (resp : UnwrappedResponse), 4 ≤ frame.length →
      unwrapResponseRtu frame = .ok resp → err.length = frame.length → IsBurst err →
        unwrapResponseRtu (flip frame err) = .error .crcError := by
  constructor
  · intro pdu req hlen hreq
    simp only [frameRequestRtu] at hreq
    split_ifs at hreq
    cases hreq
    have hcrc : computeCrc (pdu ++ _) = 0#16 :=
      foldl_append.trans (foldl_own_bytes (computeCrc pdu))
    rw [unwrapResponseRtu, if_neg (by simp; omega), if_neg (not_not.2 hcrc)]
    simp
  · intro frame err resp hlen hok herr hburst
    obtain ⟨hset, p, hp⟩ := hburst
    have hflip : (flip frame err).length = frame.length := by simp [flip, herr]
    have hcrc : computeCrc (flip frame err) ≠ 0#16 := by
      have hzero := unwrapResponseRtu_ok hok
      rw [computeCrc, computeCrc_eq] at hzero
      rw [computeCrc, computeCrc_eq, bits_flip _ _ herr, ← BitVec.xor_zero (x := 0xFFFF#16),
        foldl_feed_xor _ _ _ _ (by simp [length_bits, herr]), hzero, BitVec.zero_xor]
      exact foldl_burst_ne_zero hset hp
    rw [unwrapResponseRtu, if_neg (by omega), if_pos hcrc]

theorem rtu_burst_over_checksum :
    unwrapResponseRtu [1, 3, 0x40, 0x21] = .ok ⟨[3], none⟩ ∧
      unwrapResponseRtu (flip [1, 3, 0x40, 0x21] [0, 0x80, 0x01, 0]) = .error .crcError :=
  ⟨rtu_frame_detects_bursts.1 [1, 3] ⟨[1, 3, 0x40, 0x21], none⟩ (by decide) (by decide +kernel),
    rtu_frame_detects_bursts.2 _ _ ⟨[3], none⟩ (by decide) (by decide +kernel) (by decide)
      ⟨by decide, 15, fun i hi => by
        have hlt : i < 32 := (List.getElem?_eq_some_iff.1 hi).1
        interval_cases i <;> first | (exact ⟨by decide, by decide⟩) | (cases hi)⟩⟩

end Modbus
