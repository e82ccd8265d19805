/-
**Frames.**

A message on the wire is a header of eight bytes and a payload.  The header says in which byte order
the numbers of the message are, which way it goes, and what it is about.  Most answers of a server
carry a status (`proto/status.rs`) in front of everything else.

Main definitions:

* `Pva.HeaderFlags`, `Pva.PvaHeader`, `Pva.Frame`;
* `Pva.Command` — what a message is about;
* `Pva.Status`, `Pva.Status.decode`.
-/

import EpicsRs.PvaProto

set_option autoImplicit false

namespace Pva

open ByteReader

/-! ### Headers -/

def fromHeaderFlag (flag : UInt8) : ByteOrder := if flag &&& 0x80 ≠ 0 then .big else .little

structure HeaderFlags where
  bits : UInt8
deriving DecidableEq, Repr

namespace HeaderFlags

def control : UInt8 := 0x01

def server : UInt8 := 0x40

def bigEndian : UInt8 := 0x80

def new (isServer isControl : Bool) (order : ByteOrder) : HeaderFlags :=
  ⟨(if isControl then control else 0) ||| (if isServer then server else 0) |||
    (if order = .big then bigEndian else 0)⟩

def byteOrder (flags : HeaderFlags) : ByteOrder := fromHeaderFlag flags.bits

lemma byteOrder_new (isServer isControl : Bool) (order : ByteOrder) :
    (new isServer isControl order).byteOrder = order := by
  cases isServer <;> cases isControl <;> cases order <;> rfl

end HeaderFlags

structure PvaHeader where
  version : UInt8
  flags : HeaderFlags
  command : UInt8
  payloadLength : UInt32
deriving DecidableEq, Repr

def pvaVersion : UInt8 := 2

def PvaHeader.application (server : Bool) (order : ByteOrder) (command : UInt8)
    (payloadLength : UInt32) : PvaHeader :=
  ⟨pvaVersion, HeaderFlags.new server false order, command, payloadLength⟩

structure Frame where
  header : PvaHeader
  payload : List UInt8
deriving DecidableEq, Repr

def Frame.order (frame : Frame) : ByteOrder := frame.header.flags.byteOrder

/-! ### Commands -/

inductive Command where
  | beacon | connectionValidation | echo | search | searchResponse | authNZ | aclChange
  | createChannel | destroyChannel | connectionValidated | get | put | putGet | monitor | array
  | destroyRequest | process | getField | message | multipleData | rpc | cancelRequest | originTag
deriving DecidableEq, Repr

namespace Command

def code : Command → UInt8
  | beacon => 0
  | connectionValidation => 1
  | echo => 2
  | search => 3
  | searchResponse => 4
  | authNZ => 5
  | aclChange => 6
  | createChannel => 7
  | destroyChannel => 8
  | connectionValidated => 9
  | get => 10
  | put => 11
  | putGet => 12
  | monitor => 13
  | array => 14
  | destroyRequest => 15
  | process => 16
  | getField => 17
  | message => 18
  | multipleData => 19
  | rpc => 20
  | cancelRequest => 21
  | originTag => 22

def fromCode (code : UInt8) : Option Command :=
  match code.toNat with
  | 0 => some beacon
  | 1 => some connectionValidation
  | 2 => some echo
  | 3 => some search
  | 4 => some searchResponse
  | 5 => some authNZ
  | 6 => some aclChange
  | 7 => some createChannel
  | 8 => some destroyChannel
  | 9 => some connectionValidated
  | 10 => some get
  | 11 => some put
  | 12 => some putGet
  | 13 => some monitor
  | 14 => some array
  | 15 => some destroyRequest
  | 16 => some process
  | 17 => some getField
  | 18 => some message
  | 19 => some multipleData
  | 20 => some rpc
  | 21 => some cancelRequest
  | 22 => some originTag
  | _ => none

lemma fromCode_code (cmd : Command) : fromCode cmd.code = some cmd := by
  cases cmd <;> rfl

end Command

/-! ### Statuses -/

inductive StatusKind where
  | ok | warning | error | fatal
deriving DecidableEq, Repr

def StatusKind.fromByte (b : UInt8) : Option StatusKind :=
  if b = 0 then some ok
  else if b = 1 then some warning
  else if b = 2 then some error
  else if b = 3 then some fatal
  else none

inductive Status where
  | okNoMsg
  | detailed (kind : StatusKind) (message stack : String)
deriving DecidableEq, Repr

namespace Status

def ok : Status := okNoMsg

def isSuccess : Status → Bool
  | okNoMsg => true
  | detailed kind _ _ => kind = .ok || kind = .warning

def decode {σ : Type} (order : ByteOrder) : Decoder σ Status := do
  let kindByte ← getU8
  if kindByte = 0xFF then pure okNoMsg
  else
    match StatusKind.fromByte kindByte with
    | none => fail (.statusKind kindByte)
    | some kind => do
        let message ← decodeLabel order
        let stack ← decodeLabel order
        pure (detailed kind message stack)

lemma stateless_decode {σ : Type} (order : ByteOrder) : Stateless (decode order : Decoder σ _) := by
  refine stateless_getU8.bind fun kindByte => (Stateless.pure _).ite ?_
  split
  · exact Stateless.fail _
  · exact (stateless_decodeLabel order).bind fun _ => (stateless_decodeLabel order).bind fun _ =>
      Stateless.pure _

end Status

end Pva
