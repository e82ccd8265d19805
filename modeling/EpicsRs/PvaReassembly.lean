/-
**Frames off a stream, and messages out of frames.**

`try_parse_frame_role` (`decode.rs`) takes one frame off the front of the bytes that have been read.
A control frame has no payload; the others wait until theirs is there.  A message that is too large
for a frame comes in segments: a first one, any number of middle ones and a last one, which
`SegmentAssembler` puts together.

Main result: `Pva.messages_reassembled`.
-/

import EpicsRs.FrameStream
import EpicsRs.PvaFrame

set_option autoImplicit false

namespace Pva

open ByteReader List

/-! ### Frames -/

/-- `PvaError`, as the framing raises it. -/
inductive FrameError where
  /-- `Decode(e)`, where the header ends early. -/
  | decode (e : DecodeError)
  /-- `Decode("bad magic 0x{magic:02X}, expected 0xCA")`. -/
  | badMagic (magic : UInt8)
  /-- `Decode("bad version byte 0x00 (pvxs from_wire(Header) reserves zero)")`. -/
  | badVersion
  /-- `Protocol("inbound frame has Server direction bit set (…) — expected client→server")`. -/
  | directionSet (command flags : UInt8)
  /-- `Protocol("inbound frame has Server direction bit clear (…) — expected server→client")`. -/
  | directionClear (command flags : UInt8)
  /-- `Protocol("PVA segmentation violation: …")`. -/
  | segmentation (expect continuation : Bool) (command saved : UInt8)
  /-- `Protocol("segmented PVA message exceeds max_message_size ({size} > {cap})")`. -/
  | tooLarge (size cap : ℕ)
deriving DecidableEq, Repr

namespace HeaderFlags

def segmentFirst : UInt8 := 0x10

def segmentLast : UInt8 := 0x20

def segmentMask : UInt8 := 0x30

def isControl (flags : HeaderFlags) : Bool := decide (flags.bits &&& control ≠ 0)

def isServer (flags : HeaderFlags) : Bool := decide (flags.bits &&& server ≠ 0)

def segment (flags : HeaderFlags) : UInt8 := flags.bits &&& segmentMask

def whole (flags : HeaderFlags) : HeaderFlags := ⟨flags.bits &&& ~~~segmentMask⟩

def continuation (flags : HeaderFlags) : Bool := decide (flags.segment &&& segmentLast ≠ 0)

end HeaderFlags

namespace PvaHeader

def size : ℕ := 8

def magic : UInt8 := 0xCA

def decode : ByteReader FrameError Unit PvaHeader := do
  let found ← mapFault .decode getU8
  if found ≠ magic then fail (.badMagic found)
  else do
    let version ← mapFault .decode getU8
    if version = 0 then fail .badVersion
    else do
      let flags ← mapFault .decode getU8
      let command ← mapFault .decode getU8
      let payloadLength ← mapFault .decode (getU32 (HeaderFlags.byteOrder ⟨flags⟩))
      pure ⟨version, ⟨flags⟩, command, payloadLength⟩

end PvaHeader

inductive PeerRole where
  | server | client | either
deriving DecidableEq, Repr

/-- What `try_parse_frame_role` makes of a header. -/
def frameBehind (buf : List UInt8) (role : PeerRole) (header : PvaHeader) :
    Except FrameError (Option (Frame × ℕ)) :=
  if role = .server && header.flags.isServer then
    .error (.directionSet header.command header.flags.bits)
  else if role = .client && !header.flags.isServer then
    .error (.directionClear header.command header.flags.bits)
  else if header.flags.isControl then .ok (some (⟨header, []⟩, PvaHeader.size))
  else if buf.length < PvaHeader.size + header.payloadLength.toNat then .ok none
  else .ok (some (⟨header, (buf.drop PvaHeader.size).take header.payloadLength.toNat⟩,
    PvaHeader.size + header.payloadLength.toNat))

def tryParseFrameRole (buf : List UInt8) (role : PeerRole) :
    Except FrameError (Option (Frame × ℕ)) :=
  if buf.length < PvaHeader.size then .ok none
  else ((PvaHeader.decode buf ()).1.map Prod.fst).bind (frameBehind buf role)

/-! ### Segments -/

structure SegmentAssembler where
  buf : List UInt8
  cmd : UInt8
  flags : HeaderFlags
  expect : Bool
deriving DecidableEq, Repr

namespace SegmentAssembler

/-- `SegmentAssembler::default`. -/
def new : SegmentAssembler := ⟨[], 0, ⟨0⟩, false⟩

def extended (s : SegmentAssembler) (frame : Frame) : SegmentAssembler :=
  if frame.header.flags.segment = HeaderFlags.segmentFirst then
    ⟨frame.payload, frame.header.command, frame.header.flags.whole, true⟩
  else { s with buf := s.buf ++ frame.payload }

/-- The message that a last segment completes. -/
def message (s : SegmentAssembler) (frame : Frame) : Frame :=
  ⟨⟨frame.header.version, s.flags, s.cmd, UInt32.ofNat s.buf.length⟩, s.buf⟩

/-- `SegmentAssembler::push`; a fault closes the circuit. -/
def push (s : SegmentAssembler) (frame : Frame) (cap : Option ℕ) :
    Except FrameError (Option Frame × SegmentAssembler) :=
  if (frame.header.flags.continuation ^^ s.expect) ||
      (frame.header.flags.continuation && decide (frame.header.command ≠ s.cmd)) then
    .error (.segmentation s.expect frame.header.flags.continuation frame.header.command s.cmd)
  else match cap.filter (· < s.buf.length + frame.payload.length) with
    | some cap => .error (.tooLarge (s.buf.length + frame.payload.length) cap)
    | none =>
        if frame.header.flags.segment = 0 then .ok (some frame, s)
        else if frame.header.flags.segment ≠ HeaderFlags.segmentLast then
          .ok (none, s.extended frame)
        else .ok (some ((s.extended frame).message frame),
          { s.extended frame with buf := [], expect := false })

def pushAll (cap : Option ℕ) : SegmentAssembler → List Frame →
    Except FrameError (List (Option Frame) × SegmentAssembler)
  | s, [] => .ok ([], s)
  | s, frame :: frames => do
      let (out, s) ← s.push frame cap
      let (outs, s) ← pushAll cap s frames
      pure (out :: outs, s)

def Idle (s : SegmentAssembler) : Prop := s.buf = [] ∧ s.expect = false

end SegmentAssembler

/-- The frames of one message: a first, middle ones with both bits, and a last. -/
structure Segmented (first : Frame) (middle : List Frame) (last : Frame) : Prop where
  first_eq : first.header.flags.segment = HeaderFlags.segmentFirst
  middle_eq : ∀ frame ∈ middle, frame.header.flags.segment = HeaderFlags.segmentMask
  last_eq : last.header.flags.segment = HeaderFlags.segmentLast
  command_eq : ∀ frame ∈ middle ++ [last], frame.header.command = first.header.command

def Within (cap : Option ℕ) (size : ℕ) : Prop := ∀ c, cap = some c → size ≤ c

/-! ### The loop -/

/-- One round of the loop: the frame at the front, and what the assembler makes of it. -/
def circuitParse (role : PeerRole) (cap : Option ℕ) (s : SegmentAssembler) (buf : List UInt8) :
    Option (Except FrameError (SegmentAssembler × List Frame × ℕ)) :=
  match tryParseFrameRole buf role with
  | .error e => some (.error e)
  | .ok none => none
  | .ok (some (frame, n)) =>
      if frame.header.flags.isControl then some (.ok (s, [], n))
      else some ((s.push frame cap).map fun x => (x.2, x.1.toList, n))

/-! ### A decision stays -/

lemma decode_append {buf} (h : PvaHeader.size ≤ buf.length) (more : List UInt8) :
    (PvaHeader.decode (buf ++ more) ()).1.map Prod.fst =
      (PvaHeader.decode buf ()).1.map Prod.fst := by
  match buf, h with
  | b₀ :: b₁ :: b₂ :: b₃ :: b₄ :: b₅ :: b₆ :: b₇ :: rest, _ =>
    simp only [cons_append, PvaHeader.decode, getU8, bind_apply, mapFault, byte_cons]
    by_cases hmagic : b₀ ≠ PvaHeader.magic
    · simp only [if_pos hmagic]
      rfl
    · simp only [if_neg hmagic, bind_apply, mapFault, byte_cons]
      by_cases hversion : b₁ = 0
      · simp only [if_pos hversion]
        rfl
      · simp only [if_neg hversion, bind_apply, mapFault, byte_cons]
        rfl

lemma frameBehind_append (buf more : List UInt8) (role : PeerRole) (header : PvaHeader) :
    frameBehind buf role header = .ok none ∨
      frameBehind (buf ++ more) role header = frameBehind buf role header := by
  rw [frameBehind, frameBehind]
  split_ifs with _ _ _ hbuf hmore hmore
  · exact Or.inr rfl
  · exact Or.inr rfl
  · exact Or.inr rfl
  · exact Or.inl rfl
  · exact Or.inl rfl
  · rw [length_append] at hmore
    omega
  · -- the payload is there
    have hlen : header.payloadLength.toNat ≤ (buf.drop PvaHeader.size).length := by
      rw [length_drop]
      omega
    rw [drop_append_of_le_length (by omega), take_append_of_le_length hlen]
    exact Or.inr rfl

/-- **What is decided about a frame stays** when more bytes arrive. -/
theorem tryParseFrameRole_append (buf more : List UInt8) (role : PeerRole) :
    tryParseFrameRole buf role = .ok none ∨
      tryParseFrameRole (buf ++ more) role = tryParseFrameRole buf role := by
  by_cases hlen : buf.length < PvaHeader.size
  · exact Or.inl (if_pos hlen)
  · have hmore : ¬ (buf ++ more).length < PvaHeader.size := by
      rw [length_append]
      omega
    rw [tryParseFrameRole, tryParseFrameRole, if_neg hlen, if_neg hmore,
      decode_append (Nat.le_of_not_lt hlen)]
    cases (PvaHeader.decode buf ()).1.map Prod.fst with
    | error e => exact Or.inr rfl
    | ok header => exact frameBehind_append buf more role header

lemma tryParseFrameRole_takes {buf role frame n}
    (h : tryParseFrameRole buf role = .ok (some (frame, n))) : 0 < n ∧ n ≤ buf.length := by
  rw [tryParseFrameRole] at h
  split_ifs at h with hlen
  · cases h
  · cases hdecode : (PvaHeader.decode buf ()).1.map Prod.fst with
    | error e => simp [hdecode, Except.bind] at h
    | ok header =>
      rw [hdecode, Except.bind, frameBehind] at h
      split_ifs at h with _ _ _ hbuf
      all_goals
        simp only [Except.ok.injEq, Option.some.injEq, Prod.mk.injEq, reduceCtorEq] at h
      all_goals
        rw [← h.2, PvaHeader.size] at *
        omega

/-- The loop, as a stream that arrives in pieces. -/
def circuit (role : PeerRole) (cap : Option ℕ) :
    FrameStream SegmentAssembler UInt8 Frame FrameError where
  parse := circuitParse role cap
  idle _ := rfl
  extend := by
    intro s buf r h more
    rcases tryParseFrameRole_append buf more role with hnone | heq
    · simp [circuitParse, hnone] at h
    · rw [← h, circuitParse, circuitParse, heq]
  takes := by
    intro s buf t out n h
    cases hframe : tryParseFrameRole buf role with
    | error e => simp [circuitParse, hframe] at h
    | ok r =>
        cases r with
        | none => simp [circuitParse, hframe] at h
        | some r =>
            obtain ⟨frame, n'⟩ := r
            rw [circuitParse, hframe] at h
            have hn : n' = n := by
              change (if _ then _ else _) = _ at h
              split_ifs at h
              · exact (Prod.mk.inj (Prod.mk.inj (Except.ok.inj (Option.some.inj h))).2).2
              · cases hpush : s.push frame cap with
                | error e => simp [hpush, Except.map] at h
                | ok x =>
                    rw [hpush] at h
                    exact (Prod.mk.inj (Prod.mk.inj (Except.ok.inj (Option.some.inj h))).2).2
            exact hn ▸ tryParseFrameRole_takes hframe

/-! ### Segments make a message -/

section

variable {s : SegmentAssembler} {frame : Frame} {cap : Option ℕ}

lemma push_eq (hcont : frame.header.flags.continuation = s.expect)
    (hcmd : s.expect = true → frame.header.command = s.cmd)
    (hcap : Within cap (s.buf.length + frame.payload.length)) :
    s.push frame cap =
      if frame.header.flags.segment = 0 then .ok (some frame, s)
      else if frame.header.flags.segment ≠ HeaderFlags.segmentLast then
        .ok (none, s.extended frame)
      else .ok (some ((s.extended frame).message frame),
        { s.extended frame with buf := [], expect := false }) := by
  have hfilter : cap.filter (· < s.buf.length + frame.payload.length) = none := by
    rw [Option.filter_eq_none_iff]
    intro c hc
    have := hcap c hc
    simpa using this
  have hok : ((frame.header.flags.continuation ^^ s.expect) ||
      (frame.header.flags.continuation && decide (frame.header.command ≠ s.cmd))) = false := by
    cases hexpect : s.expect with
    | false => simp [hcont, hexpect]
    | true => simp [hcont, hexpect, hcmd hexpect]
  rw [SegmentAssembler.push, hok, hfilter]
  rfl

lemma push_next {acc cmd flags}
    (hseg : frame.header.flags.segment = HeaderFlags.segmentMask ∨
      frame.header.flags.segment = HeaderFlags.segmentLast) (hcmd : frame.header.command = cmd)
    (hcap : Within cap (acc ++ frame.payload).length) :
    SegmentAssembler.push ⟨acc, cmd, flags, true⟩ frame cap =
      if frame.header.flags.segment = HeaderFlags.segmentMask then
        .ok (none, ⟨acc ++ frame.payload, cmd, flags, true⟩)
      else .ok (some (SegmentAssembler.message ⟨acc ++ frame.payload, cmd, flags, true⟩ frame),
        ⟨[], cmd, flags, false⟩) := by
  rw [length_append] at hcap
  have hcont : frame.header.flags.continuation = true := by
    rcases hseg with hseg | hseg <;> rw [HeaderFlags.continuation, hseg] <;> decide
  rw [push_eq hcont (fun _ => hcmd) hcap]
  rcases hseg with hseg | hseg <;> rw [SegmentAssembler.extended, hseg] <;> rfl

/-- The middle segments and the last one, behind those whose payload is in `acc`. -/
lemma pushAll_rest {acc cmd} (flags : HeaderFlags) {last middle}
    (hmiddle : ∀ frame ∈ middle, frame.header.flags.segment = HeaderFlags.segmentMask)
    (hlast : last.header.flags.segment = HeaderFlags.segmentLast)
    (hcmd : ∀ frame ∈ middle ++ [last], frame.header.command = cmd)
    (hcap : Within cap (acc ++ (middle ++ [last]).flatMap Frame.payload).length) :
    SegmentAssembler.pushAll cap ⟨acc, cmd, flags, true⟩ (middle ++ [last]) =
      .ok (replicate middle.length none ++
        [some (SegmentAssembler.message ⟨acc ++ (middle ++ [last]).flatMap Frame.payload, cmd, flags,
          true⟩ last)], ⟨[], cmd, flags, false⟩) := by
  induction middle generalizing acc with
  | nil =>
    simp only [nil_append, flatMap_singleton] at hcap ⊢
    rw [SegmentAssembler.pushAll, push_next (Or.inr hlast) (hcmd _ (by simp)) hcap, hlast]
    rfl
  | cons frame middle ih =>
    obtain ⟨hframe, hmiddle⟩ := forall_mem_cons.1 hmiddle
    obtain ⟨hcmd', hcmd⟩ := forall_mem_cons.1 hcmd
    rw [cons_append, flatMap_cons, ← append_assoc] at hcap ⊢
    have hnow : Within cap (acc ++ frame.payload).length := fun c hc => by
      have := hcap c hc
      rw [length_append] at this
      omega
    rw [SegmentAssembler.pushAll, push_next (Or.inl hframe) hcmd' hnow, if_pos hframe]
    change (SegmentAssembler.pushAll cap _ _ >>= _) = _
    rw [ih hmiddle hcmd hcap]
    rfl

end

/-- **Messages are put together again.**  What comes out of a stream, and the fault it ends with,
do not depend on how it is cut; and the segments of a message within the cap come out as one message
with all of the payload, the command and the flags of the first segment. -/
theorem messages_reassembled (role : PeerRole) (cap : Option ℕ) :
    (∀ pieces : List (List UInt8), (circuit role cap).feed .new [] pieces =
      (circuit role cap).drain .new pieces.flatten) ∧
    ∀ (s : SegmentAssembler) (first : Frame) (middle : List Frame) (last : Frame), s.Idle →
      Segmented first middle last →
      Within cap ((first :: (middle ++ [last])).flatMap Frame.payload).length →
      ∃ message t, s.pushAll cap (first :: (middle ++ [last])) =
          .ok (List.replicate (middle.length + 1) none ++ [some message], t) ∧ t.Idle ∧
        message.payload = (first :: (middle ++ [last])).flatMap Frame.payload ∧
        message.header.command = first.header.command ∧
        message.header.flags = first.header.flags.whole := by
  refine ⟨fun pieces => FrameStream.feed_eq_drain pieces rfl,
    fun s first middle last hidle hseg hcap => ?_⟩
  rw [flatMap_cons] at hcap ⊢
  have hfirst : s.push first cap =
      .ok (none, ⟨first.payload, first.header.command, first.header.flags.whole, true⟩) := by
    have hcont : first.header.flags.continuation = s.expect := by
      rw [HeaderFlags.continuation, hseg.first_eq, hidle.2]
      decide
    have hnow : Within cap (s.buf.length + first.payload.length) := fun c hc => by
      have := hcap c hc
      rw [length_append] at this
      rw [hidle.1, length_nil]
      omega
    rw [push_eq hcont (fun h => by simp [hidle.2] at h) hnow, SegmentAssembler.extended,
      hseg.first_eq]
    rfl
  have hrest := pushAll_rest first.header.flags.whole hseg.middle_eq hseg.last_eq hseg.command_eq
    hcap
  refine ⟨SegmentAssembler.message ⟨first.payload ++ (middle ++ [last]).flatMap Frame.payload,
    first.header.command, first.header.flags.whole, true⟩ last,
    ⟨[], first.header.command, first.header.flags.whole, false⟩, ?_, ⟨rfl, rfl⟩, rfl, rfl, rfl⟩
  rw [SegmentAssembler.pushAll, hfirst]
  change (SegmentAssembler.pushAll cap _ _ >>= _) = _
  rw [hrest]
  rfl

/-- A segment of a PUT from a client, with one byte. -/
def putSegment (segment byte : UInt8) : Frame := ⟨⟨2, ⟨segment⟩, 11, 1⟩, [byte]⟩

/-- Three segments of one byte each, under a cap of three bytes. -/
theorem messages_reassembled_three :
    ∃ message t, SegmentAssembler.new.pushAll (some 3)
        [putSegment 0x10 1, putSegment 0x30 2, putSegment 0x20 3] =
          .ok ([none, none, some message], t) ∧ t.Idle ∧ message.payload = [1, 2, 3] ∧
      message.header.command = 11 ∧ message.header.flags = ⟨0⟩ :=
  (messages_reassembled .server (some 3)).2 .new (putSegment 0x10 1) [putSegment 0x30 2]
    (putSegment 0x20 3) ⟨rfl, rfl⟩ ⟨by decide, by decide, by decide, by decide⟩
    fun _ h => (Option.some.inj h).le

end Pva
