/-
**The receive buffer of a CA server.**

The server appends what it reads to a buffer and parses messages off it behind a cursor.  Of a
message that it refuses, the part that has not arrived is counted, and thrown away as it lands.
`Ca.verdict` makes the decision of `next_message` from the rest of the stream alone, and does not
change it when more bytes follow.  The rate limit is off.

Main result:

* `Ca.RecvAccumulator.nextMessage_eq` — **`next_message` gives the verdict about the bytes behind the cursor**.
-/

import EpicsRs.CaHeader

set_option autoImplicit false

namespace Ca

open List Option

/-! ### Decisions -/

def caProtoVersion : UInt16 := 0

def caMinimumSupportedVersion : UInt16 := 4

/-- `defmsg`: a status from its severity and its number. -/
def defmsg (sev num : UInt32) : UInt32 := ((num <<< 3) &&& 0x0000FFF8) ||| (sev &&& 0x00000007)

/-- `ECA_TOLARGE`, a warning. -/
def ecaTolarge : UInt32 := defmsg 0 9

/-- `ECA_INTERNAL`, a fatal error. -/
def ecaInternal : UInt32 := defmsg 6 17

/-- `ECA_DEFUNCT`, a fatal error. -/
def ecaDefunct : UInt32 := defmsg 6 34

def isLegalTcpCommand (cmmd : UInt16) : Bool :=
  cmmd ∈ [0, 1, 2, 3, 4, 6, 8, 9, 10, 12, 15, 18, 19, 20, 21, 23]

def badTcpCommandDiagnostic : String := "invalid (damaged?) request code from TCP"

def misalignedDiagnostic : String := "CAS: Missaligned protocol rejected"

def tooLargeMessage (ceiling : ℕ) : String :=
  "CAS: Server unable to load large request message. Max bytes=" ++ toString ceiling

structure GateError where
  hdr : CaHeader
  status : UInt32
  diagnostic : String
  context : String
  mnum : ℕ
deriving DecidableEq, Repr

/-- `Gate`, without the answers of the rate limit. -/
inductive Gate where
  | needMore
  | deliver (hdr : CaHeader) (payload : List UInt8)
  | refuse (error : GateError)
  | tearDown (error : Option GateError) (reason : CaError)
deriving DecidableEq, Repr

def GateError.badTcpCommand (hdr : CaHeader) : GateError :=
  ⟨hdr, ecaInternal, badTcpCommandDiagnostic, badTcpCommandDiagnostic, 0⟩

def GateError.defunct (hdr : CaHeader) (minor : UInt16) (mnum : ℕ) : GateError :=
  ⟨hdr, ecaDefunct, "CAS: Client version " ++ toString minor.toNat ++ " too old",
    "CAS: Client version too old", mnum⟩

def GateError.misaligned (hdr : CaHeader) (mnum : ℕ) : GateError :=
  ⟨hdr, ecaInternal, misalignedDiagnostic, misalignedDiagnostic, mnum⟩

def GateError.tooLarge (hdr : CaHeader) (ceiling mnum : ℕ) : GateError :=
  ⟨hdr, ecaTolarge, tooLargeMessage ceiling, "CAS: server unable to load large request message", mnum⟩

/-- The reason when the length of a message has no representation. -/
def unrepresentable (body : ℕ) : CaError :=
  .protocol ("declared CA body of " ++ toString body ++ " bytes has no representable message length")

def illegalCommand (cmmd : UInt16) : CaError :=
  .protocol ("illegal TCP command " ++ toString cmmd.toNat ++ " (C bad_tcp_cmd_action)")

/-! ### The accumulator -/

/-- `usize::MAX`. -/
def usizeMax : ℕ := 2 ^ 64 - 1

def saturatingAdd (a b : ℕ) : ℕ := min (a + b) usizeMax

/-- `RecvAccumulator`, without the state of the rate limit. -/
structure RecvAccumulator where
  buf : List UInt8
  toDrain : ℕ
  offset : ℕ
  bodyCeiling : ℕ
  nmsg : ℕ
deriving DecidableEq, Repr

inductive Admit where
  | parse
  | draining
  | overflow (ceiling : ℕ)
deriving DecidableEq, Repr

inductive Refused where
  | resumeAt (offset : ℕ)
  | drainPending
deriving DecidableEq, Repr

def messageLen (hdrSize declaredBody : ℕ) : Option ℕ :=
  if 2 ^ 32 - 1 - (CaHeader.size + extendedExtra) ≤ declaredBody then none
  else some (hdrSize + declaredBody)

namespace RecvAccumulator

variable (a : RecvAccumulator)

def new (bodyCeiling : ℕ) : RecvAccumulator := ⟨[], 0, 0, bodyCeiling, 0⟩

def accumulationCeiling : ℕ := saturatingAdd (saturatingAdd a.bodyCeiling 24) (64 * 1024)

def room : ℕ := a.accumulationCeiling - a.buf.length

def accept (chunk : List UInt8) : RecvAccumulator × Admit :=
  let dropNow := min a.toDrain chunk.length
  let toDrain := a.toDrain - dropNow
  let rest := chunk.drop dropNow
  let a := { a with nmsg := 0, toDrain := toDrain }
  if 0 < toDrain then (a, .draining)
  else if a.accumulationCeiling < saturatingAdd a.buf.length rest.length then
    (a, .overflow a.accumulationCeiling)
  else ({ a with buf := a.buf ++ rest }, .parse)

def consume (upto : ℕ) : RecvAccumulator := { a with buf := a.buf.drop upto }

def refuse (offset msgLen : ℕ) : RecvAccumulator × Refused :=
  let arrived := a.buf.length - offset
  if msgLen ≤ arrived then (a, .resumeAt (offset + msgLen))
  else ({ a with toDrain := msgLen - arrived }, .drainPending)

def compact : RecvAccumulator := { a with offset := 0 }.consume a.offset

def skipRefused (msgLen : ℕ) : RecvAccumulator :=
  match a.refuse a.offset msgLen with
  | (a, .resumeAt next) => { a with offset := next }
  | (a, .drainPending) => { a with offset := a.buf.length }

/-- `next_message` behind the formation of the message length. -/
def gate (minor : UInt16) (hdr : CaHeader) (hdrSize msgLen : ℕ) : RecvAccumulator × Gate :=
  if hdr.cmmd ≠ caProtoVersion ∧ minor < caMinimumSupportedVersion then
    (a.skipRefused msgLen, .refuse (.defunct hdr minor a.nmsg))
  else if msgLen % 8 ≠ 0 then
    (a, .tearDown (some (.misaligned hdr a.nmsg)) (.protocol "misaligned CA payload"))
  else if a.bodyCeiling < hdr.actualPostsize then
    (a.skipRefused msgLen, .refuse (.tooLarge hdr a.bodyCeiling a.nmsg))
  else if a.buf.length < a.offset + msgLen then (a.compact, .needMore)
  else
    let a := { a with offset := a.offset + msgLen, nmsg := a.nmsg + 1 }
    if !isLegalTcpCommand hdr.cmmd then
      (a, .tearDown (some (.badTcpCommand hdr)) (illegalCommand hdr.cmmd))
    else
      (a, .deliver hdr ((a.buf.take a.offset).drop (a.offset - msgLen + hdrSize)))

def nextMessage (minor : UInt16) : RecvAccumulator × Gate :=
  let head := a.buf.drop a.offset
  if head.length < CaHeader.size then (a.compact, .needMore)
  else if caV49 minor ∧ head.length < 24 ∧ head[2]? = some 0xFF ∧ head[3]? = some 0xFF then
    (a.compact, .needMore)
  else
    match CaHeader.fromBytesForPeer head minor with
    | .error e => (a, .tearDown none e)
    | .ok (hdr, hdrSize) =>
        match messageLen hdrSize hdr.actualPostsize with
        | none => (a, .tearDown none (unrepresentable hdr.actualPostsize))
        | some msgLen => a.gate minor hdr hdrSize msgLen

end RecvAccumulator

/-! ### Verdicts on a stream -/

/-- The header at the head of a stream, with its length, once it is complete: sixteen bytes, or 24 when the
peer knows the extended form and the size is `0xFFFF`. -/
def headerOf (minor : UInt16) (stream : List UInt8) : Option (CaHeader × ℕ) :=
  if stream.length < 16 then none
  else if caV49 minor ∧ (CaHeader.ofFields stream).postsize = 0xFFFF then
    if stream.length < 24 then none
    else some ({ CaHeader.ofFields stream with
      extendedPostsize := some (getU32 stream 16)
      extendedCount := some (getU32 stream 20) }, 24)
  else some (CaHeader.ofFields stream, 16)

/-- The decision about a message with this header, and the length of the message. -/
def verdictOf (ceiling : ℕ) (minor : UInt16) (hdr : CaHeader) (hdrSize : ℕ) (stream : List UInt8) :
    Option (Gate × ℕ) :=
  if 2 ^ 32 - 1 - 24 ≤ hdr.actualPostsize then
    some (.tearDown none (unrepresentable hdr.actualPostsize), hdrSize + hdr.actualPostsize)
  else if hdr.cmmd ≠ caProtoVersion ∧ minor < caMinimumSupportedVersion then
    some (.refuse (.defunct hdr minor 0), hdrSize + hdr.actualPostsize)
  else if (hdrSize + hdr.actualPostsize) % 8 ≠ 0 then
    some (.tearDown (some (.misaligned hdr 0)) (.protocol "misaligned CA payload"),
      hdrSize + hdr.actualPostsize)
  else if ceiling < hdr.actualPostsize then
    some (.refuse (.tooLarge hdr ceiling 0), hdrSize + hdr.actualPostsize)
  else if stream.length < hdrSize + hdr.actualPostsize then none
  else if !isLegalTcpCommand hdr.cmmd then
    some (.tearDown (some (.badTcpCommand hdr)) (illegalCommand hdr.cmmd), hdrSize + hdr.actualPostsize)
  else
    some (.deliver hdr ((stream.drop hdrSize).take hdr.actualPostsize), hdrSize + hdr.actualPostsize)

/-- The decision about the message at the head of a stream, and its length; nothing while it depends on bytes
that are to come. -/
def verdict (ceiling : ℕ) (minor : UInt16) (stream : List UInt8) : Option (Gate × ℕ) :=
  (headerOf minor stream).bind fun hdr => verdictOf ceiling minor hdr.1 hdr.2 stream

variable {stream : List UInt8}

lemma getU16_of_append {pos} (h : pos + 2 ≤ stream.length) (more : List UInt8) :
    getU16 (stream ++ more) pos = getU16 stream pos := by
  unfold getU16
  rw [drop_append_of_le_length (by omega), take_append_of_le_length]
  rw [length_drop]
  omega

lemma getU32_of_append {pos} (h : pos + 4 ≤ stream.length) (more : List UInt8) :
    getU32 (stream ++ more) pos = getU32 stream pos := by
  unfold getU32
  rw [drop_append_of_le_length (by omega), take_append_of_le_length]
  rw [length_drop]
  omega

lemma ofFields_append (h : 16 ≤ stream.length) (more : List UInt8) :
    CaHeader.ofFields (stream ++ more) = CaHeader.ofFields stream := by
  simp only [CaHeader.ofFields, CaHeader.mk.injEq, and_true]
  refine ⟨?_, ?_, ?_, ?_, ?_, ?_⟩
  · exact getU16_of_append (by omega) more
  · exact getU16_of_append (by omega) more
  · exact getU16_of_append (by omega) more
  · exact getU16_of_append (by omega) more
  · exact getU32_of_append (by omega) more
  · exact getU32_of_append (by omega) more

variable {minor : UInt16}

lemma headerOf_length {hdr n} (h : headerOf minor stream = some (hdr, n)) :
    (n = 16 ∨ n = 24) ∧ n ≤ stream.length := by
  unfold headerOf at h
  split_ifs at h with hshort hform hshort'
  · obtain ⟨-, rfl⟩ := Prod.mk.inj (some.inj h)
    omega
  · obtain ⟨-, rfl⟩ := Prod.mk.inj (some.inj h)
    omega

lemma headerOf_append {hdr} (h : headerOf minor stream = some hdr) (more : List UInt8) :
    headerOf minor (stream ++ more) = some hdr := by
  unfold headerOf at h ⊢
  split_ifs at h with hshort hform hshort'
  · rw [if_neg (by rw [length_append]; omega), ofFields_append (by omega), if_pos hform,
      if_neg (by rw [length_append]; omega), getU32_of_append (by omega), getU32_of_append (by omega)]
    exact h
  · rw [if_neg (by rw [length_append]; omega), ofFields_append (by omega), if_neg hform]
    exact h

variable {ceiling : ℕ}

lemma verdictOf_append {hdr hdrSize v} (h : verdictOf ceiling minor hdr hdrSize stream = some v)
    (more : List UInt8) :
    verdictOf ceiling minor hdr hdrSize (stream ++ more) = some v := by
  unfold verdictOf at h ⊢
  split_ifs at h with h1 h2 h3 h4 h5 h6
  · rw [if_pos h1]
    exact h
  · rw [if_neg h1, if_pos h2]
    exact h
  · rw [if_neg h1, if_neg h2, if_pos h3]
    exact h
  · rw [if_neg h1, if_neg h2, if_neg h3, if_pos h4]
    exact h
  · rw [if_neg h1, if_neg h2, if_neg h3, if_neg h4, if_neg (by rw [length_append]; omega), if_pos h6]
    exact h
  · rw [if_neg h1, if_neg h2, if_neg h3, if_neg h4, if_neg (by rw [length_append]; omega), if_neg h6,
      drop_append_of_le_length (by omega), take_append_of_le_length (by
        rw [length_drop]
        omega)]
    exact h

/-- **A verdict stands, whatever follows.** -/
theorem verdict_append {v} (h : verdict ceiling minor stream = some v) (more : List UInt8)
    : verdict ceiling minor (stream ++ more) = some v := by
  obtain ⟨hdr, hhdr, hv⟩ := bind_eq_some_iff.1 h
  exact bind_eq_some_iff.2 ⟨hdr, headerOf_append hhdr more, verdictOf_append hv more⟩

lemma verdict_length {g len} (h : verdict ceiling minor stream = some (g, len)) :
    0 < len ∧ 16 ≤ stream.length ∧ ∀ hdr payload, g = .deliver hdr payload → len ≤ stream.length := by
  obtain ⟨⟨hdr, n⟩, hhdr, hv⟩ := bind_eq_some_iff.1 h
  obtain ⟨hn, hle⟩ := headerOf_length hhdr
  unfold verdictOf at hv
  split_ifs at hv
  all_goals
    obtain ⟨rfl, rfl⟩ := Prod.mk.inj (some.inj hv)
    refine ⟨by omega, by omega, ?_⟩
    first
    | exact fun _ _ _ => by omega
    | exact nofun

lemma length_of_verdict_none (h : verdict ceiling minor stream = none) :
    stream.length < 24 + ceiling := by
  unfold verdict at h
  cases hhdr : headerOf minor stream with
  | none =>
    unfold headerOf at hhdr
    split_ifs at hhdr <;> omega
  | some hdr =>
    rw [hhdr, bind_some] at h
    have hn := (headerOf_length (show headerOf minor stream = some (hdr.1, hdr.2) from hhdr)).1
    unfold verdictOf at h
    split_ifs at h
    omega

/-! ### `next_message` gives the verdict -/

/-- The size is `0xFFFF` if both of its bytes are. -/
lemma postsize_eq_iff {head} (h : 16 ≤ head.length) :
    (CaHeader.ofFields head).postsize = 0xFFFF ↔ head[2]? = some 0xFF ∧ head[3]? = some 0xFF := by
  match head, h with
  | b0 :: b1 :: b2 :: b3 :: rest, _ =>
    have hsize : (CaHeader.ofFields (b0 :: b1 :: b2 :: b3 :: rest)).postsize =
        UInt16.ofNat (b3.toNat + 256 * b2.toNat) := rfl
    rw [hsize]
    have h2 := b2.toNat_lt
    have h3 := b3.toNat_lt
    have heq : UInt16.ofNat (b3.toNat + 256 * b2.toNat) = 0xFFFF ↔
        b3.toNat + 256 * b2.toNat = 0xFFFF := by
      rw [← UInt16.toNat_inj, UInt16.toNat_ofNat', Nat.mod_eq_of_lt (by omega)]
      rfl
    have hbyte : ∀ b : UInt8, b = 0xFF ↔ b.toNat = 255 := fun b => by
      rw [← UInt8.toNat_inj]
      rfl
    simp only [getElem?_cons_succ, getElem?_cons_zero, some.injEq, hbyte, heq]
    omega

def GateError.unnumbered (e : GateError) : GateError := { e with mnum := 0 }

/-- A gate without the number of the message in the pass, which is for the log. -/
def Gate.unnumbered : Gate → Gate
  | .refuse e => .refuse e.unnumbered
  | .tearDown e reason => .tearDown (e.map GateError.unnumbered) reason
  | g => g

namespace RecvAccumulator

variable (a : RecvAccumulator) (minor : UInt16)

lemma nextMessage_of_no_header (h : headerOf minor (a.buf.drop a.offset) = none) :
    a.nextMessage minor = (a.compact, .needMore) := by
  unfold nextMessage
  unfold headerOf at h
  split_ifs at h with hshort hform hannex
  · exact if_pos hshort
  · rw [if_neg (show ¬ (a.buf.drop a.offset).length < CaHeader.size from hshort)]
    have hbytes := (postsize_eq_iff (Nat.not_lt.1 hshort)).1 hform.2
    exact if_pos ⟨hform.1, hannex, hbytes⟩

lemma nextMessage_of_header {hdr n} (h : headerOf minor (a.buf.drop a.offset) = some (hdr, n)) :
    a.nextMessage minor =
      if 2 ^ 32 - 1 - 24 ≤ hdr.actualPostsize then
        (a, .tearDown none (unrepresentable hdr.actualPostsize))
      else a.gate minor hdr n (n + hdr.actualPostsize) := by
  have hparse : ¬ (a.buf.drop a.offset).length < 16 ∧
      ¬ (caV49 minor ∧ (a.buf.drop a.offset).length < 24 ∧ (a.buf.drop a.offset)[2]? = some 0xFF ∧
        (a.buf.drop a.offset)[3]? = some 0xFF) ∧
      CaHeader.fromBytesForPeer (a.buf.drop a.offset) minor = .ok (hdr, n) := by
    generalize a.buf.drop a.offset = head at h
    unfold headerOf at h
    split_ifs at h with hshort hform hannex
    · refine ⟨hshort, fun hwait => hannex hwait.2.1, ?_⟩
      rw [CaHeader.fromBytesForPeer_of_length (Nat.not_lt.1 hshort) fun _ _ => Nat.not_lt.1 hannex,
        if_pos hform]
      exact congrArg Except.ok (some.inj h)
    · have hnot : ¬ (caV49 minor ∧ head[2]? = some 0xFF ∧ head[3]? = some 0xFF) := fun hbytes =>
        hform ⟨hbytes.1, (postsize_eq_iff (Nat.not_lt.1 hshort)).2 hbytes.2⟩
      refine ⟨hshort, fun hwait => hnot ⟨hwait.1, hwait.2.2⟩, ?_⟩
      rw [CaHeader.fromBytesForPeer_of_length (Nat.not_lt.1 hshort) fun hv hpost =>
        absurd ⟨hv, hpost⟩ hform, if_neg hform]
      exact congrArg Except.ok (some.inj h)
  obtain ⟨hlong, hwait, hok⟩ := hparse
  unfold nextMessage
  rw [if_neg (show ¬ (a.buf.drop a.offset).length < CaHeader.size from hlong), if_neg hwait, hok]
  dsimp only
  by_cases hlimit : 2 ^ 32 - 1 - 24 ≤ hdr.actualPostsize
  · rw [if_pos hlimit, show messageLen n hdr.actualPostsize = none from if_pos hlimit]
  · rw [if_neg hlimit,
      show messageLen n hdr.actualPostsize = some (n + hdr.actualPostsize) from if_neg hlimit]

/-- What `next_message` does on a verdict: it waits and drops what is parsed, goes on behind the message, or ends
the circuit. -/
inductive Answers (a : RecvAccumulator) : Option (Gate × ℕ) → RecvAccumulator × Gate → Prop
  | wait : Answers a none (a.compact, .needMore)
  | deliver (hdr : CaHeader) (payload : List UInt8) (len : ℕ) :
      Answers a (some (.deliver hdr payload, len))
        ({ a with offset := a.offset + len, nmsg := a.nmsg + 1 }, .deliver hdr payload)
  | refuse (e : GateError) (len : ℕ) :
      Answers a (some (.refuse e.unnumbered, len)) (a.skipRefused len, .refuse e)
  | tearDown (e : Option GateError) (reason : CaError) (len : ℕ) (a' : RecvAccumulator)
      (h : a'.buf = a.buf) :
      Answers a (some (.tearDown (e.map GateError.unnumbered) reason, len)) (a', .tearDown e reason)

/-- **`next_message` gives the verdict about the bytes behind the cursor.** -/
theorem nextMessage_answers :
    Answers a (verdict a.bodyCeiling minor (a.buf.drop a.offset)) (a.nextMessage minor) := by
  cases hhdr : headerOf minor (a.buf.drop a.offset) with
  | none =>
    rw [a.nextMessage_of_no_header minor hhdr, verdict, hhdr]
    exact .wait
  | some header =>
    obtain ⟨hdr, n⟩ := header
    have hn := headerOf_length hhdr
    rw [a.nextMessage_of_header minor hhdr, verdict, hhdr, bind_some]
    unfold verdictOf gate
    rw [length_drop] at hn ⊢
    have harrived : a.buf.length - a.offset < n + hdr.actualPostsize ↔
        a.buf.length < a.offset + (n + hdr.actualPostsize) := by omega
    simp only [harrived]
    split_ifs with h1 h2 h3 h4 h5 h6
    · exact .tearDown none _ _ a rfl
    · exact .refuse (.defunct hdr minor a.nmsg) _
    · exact .tearDown (some (.misaligned hdr a.nmsg)) _ _ a rfl
    · exact .refuse (.tooLarge hdr a.bodyCeiling a.nmsg) _
    · exact .wait
    · exact .tearDown (some (.badTcpCommand hdr)) _ _ _ rfl
    · have hslice : (a.buf.take (a.offset + (n + hdr.actualPostsize))).drop
          (a.offset + (n + hdr.actualPostsize) - (n + hdr.actualPostsize) + n) =
          ((a.buf.drop a.offset).drop n).take hdr.actualPostsize := by
        rw [drop_take, drop_drop]
        congr 1
        · omega
        · congr 1
          omega
      rw [hslice]
      exact .deliver hdr _ _

section Inversion

variable {a a' : RecvAccumulator} {minor : UInt16}

lemma verdict_of_needMore (h : a.nextMessage minor = (a', .needMore)) :
    verdict a.bodyCeiling minor (a.buf.drop a.offset) = none ∧ a' = a.compact := by
  have hanswers := a.nextMessage_answers minor
  rw [h] at hanswers
  generalize verdict a.bodyCeiling minor (a.buf.drop a.offset) = v at hanswers
  cases hanswers
  exact ⟨rfl, rfl⟩

lemma verdict_of_deliver {hdr payload} (h : a.nextMessage minor = (a', .deliver hdr payload)) :
    ∃ len, verdict a.bodyCeiling minor (a.buf.drop a.offset) = some (.deliver hdr payload, len) ∧
      a' = { a with offset := a.offset + len, nmsg := a.nmsg + 1 } := by
  have hanswers := a.nextMessage_answers minor
  rw [h] at hanswers
  generalize verdict a.bodyCeiling minor (a.buf.drop a.offset) = v at hanswers
  cases hanswers
  exact ⟨_, rfl, rfl⟩

lemma verdict_of_refuse {e} (h : a.nextMessage minor = (a', .refuse e)) :
    ∃ len, verdict a.bodyCeiling minor (a.buf.drop a.offset) = some (.refuse e.unnumbered, len) ∧
      a' = a.skipRefused len := by
  have hanswers := a.nextMessage_answers minor
  rw [h] at hanswers
  generalize verdict a.bodyCeiling minor (a.buf.drop a.offset) = v at hanswers
  cases hanswers
  exact ⟨_, rfl, rfl⟩

lemma verdict_of_tearDown {e reason} (h : a.nextMessage minor = (a', .tearDown e reason)) :
    ∃ len, verdict a.bodyCeiling minor (a.buf.drop a.offset) =
      some (.tearDown (e.map GateError.unnumbered) reason, len) ∧ a'.buf = a.buf := by
  have hanswers := a.nextMessage_answers minor
  rw [h] at hanswers
  generalize verdict a.bodyCeiling minor (a.buf.drop a.offset) = v at hanswers
  cases hanswers with
  | tearDown _ _ len a' hbuf => exact ⟨len, rfl, hbuf⟩

end Inversion

lemma skipRefused_eq (len : ℕ) : a.skipRefused len =
    if len ≤ a.buf.length - a.offset then { a with offset := a.offset + len }
    else { a with toDrain := len - (a.buf.length - a.offset), offset := a.buf.length } := by
  unfold skipRefused refuse
  dsimp only
  split_ifs <;> rfl

lemma nextMessage_advances {a a' : RecvAccumulator} {minor g} (h : a.nextMessage minor = (a', g))
    (hmore : g ≠ .needMore) (hopen : ∀ e reason, g ≠ .tearDown e reason) :
    a'.buf.length - a'.offset < a.buf.length - a.offset := by
  have hanswers := a.nextMessage_answers minor
  rw [h] at hanswers
  generalize hv : verdict a.bodyCeiling minor (a.buf.drop a.offset) = v at hanswers
  cases hanswers with
  | wait => exact absurd rfl hmore
  | deliver hdr payload len =>
    obtain ⟨hpos, hhead, -⟩ := verdict_length hv
    rw [length_drop] at hhead
    dsimp only
    omega
  | refuse e len =>
    obtain ⟨hpos, hhead, -⟩ := verdict_length hv
    rw [length_drop] at hhead
    rw [skipRefused_eq]
    split_ifs
    · dsimp only
      omega
    · dsimp only
      omega
  | tearDown e reason len a' hbuf => exact absurd rfl (hopen e reason)

/-! ### The bytes that are left -/

/-- The bytes that have arrived and are not parsed, but for those that are to be thrown away. -/
def pending (more : List UInt8) : List UInt8 := (a.buf.drop a.offset ++ more).drop a.toDrain

lemma pending_skipRefused {a : RecvAccumulator} (hdrain : a.toDrain = 0) (len : ℕ)
    (more : List UInt8) :
    (a.skipRefused len).pending more = (a.pending more).drop len := by
  rw [skipRefused_eq]
  unfold pending
  rw [hdrain, drop_zero]
  split_ifs with hle
  · -- all of it has arrived
    rw [drop_zero, ← drop_drop, drop_append_of_le_length]
    rw [length_drop]
    exact hle
  · dsimp only
    have hgone : (a.buf.drop a.offset).drop len = [] :=
      drop_of_length_le (by rw [length_drop]; omega)
    rw [drop_length, nil_append, drop_append, hgone, nil_append, length_drop]

lemma accumulationCeiling_eq (h : a.bodyCeiling < 2 ^ 32) :
    a.accumulationCeiling = a.bodyCeiling + 24 + 65536 := by
  unfold accumulationCeiling saturatingAdd usizeMax
  omega

lemma accept_eq {chunk} (h : a.buf.length + chunk.length ≤ a.accumulationCeiling) :
    a.accept chunk =
      if chunk.length < a.toDrain then
        ({ a with nmsg := 0, toDrain := a.toDrain - chunk.length }, .draining)
      else ({ a with nmsg := 0, toDrain := 0, buf := a.buf ++ chunk.drop a.toDrain }, .parse) := by
  unfold accept
  dsimp only
  by_cases hmore : chunk.length < a.toDrain
  · rw [if_pos hmore, Nat.min_eq_right hmore.le, if_pos (by omega)]
  · have hfits : ¬ a.accumulationCeiling < saturatingAdd a.buf.length (chunk.drop a.toDrain).length := by
      unfold saturatingAdd
      rw [length_drop]
      omega
    rw [if_neg hmore, Nat.min_eq_left (Nat.not_lt.1 hmore), Nat.sub_self, if_neg (Nat.lt_irrefl 0)]
    exact if_neg hfits

lemma pending_accept {chunk} (hdrain : 0 < a.toDrain → a.buf = [])
    (h : a.buf.length + chunk.length ≤ a.accumulationCeiling) (hoffset : a.offset ≤ a.buf.length)
    (more : List UInt8) : (a.accept chunk).1.pending more = a.pending (chunk ++ more) := by
  rw [a.accept_eq h]
  unfold pending
  split_ifs with hmore
  · -- the whole chunk is thrown away
    rw [hdrain (by omega), drop_nil, nil_append, nil_append, drop_append,
      drop_of_length_le hmore.le, nil_append]
  · dsimp only
    rw [drop_zero]
    rcases Nat.eq_zero_or_pos a.toDrain with hzero | hpos
    · rw [hzero, drop_zero, drop_zero, drop_append_of_le_length hoffset, append_assoc]
    · have hoff : a.offset = 0 := by
        rw [hdrain hpos] at hoffset
        exact Nat.le_zero.1 hoffset
      rw [hdrain hpos, hoff, nil_append, drop_zero, drop_zero, nil_append,
        drop_append_of_le_length (Nat.not_lt.1 hmore)]

end RecvAccumulator

end Ca
