/-
**The answers to an operation.**

The answer to INIT has the type of the value or an error.  Then come the data: bits and the fields
they mark for GET, PUT and MONITOR, a type and a value for RPC.  One function of `decode.rs` decodes
them, by the command and the `subcmd` byte.  Where the body of the last frame of a MONITOR starts is
decided by `monitor_finish_body` on the whole payload; here it is a step that moves the cursor.

Main result: `Pva.decodeOp_answers`.
-/

import EpicsRs.PvaFrame
import EpicsRs.PvaOverlay

set_option autoImplicit false

namespace Pva

open ByteReader List BitSet

/-! ### Responses -/

/-- `PvaError`, as the decoders of responses raise it. -/
inductive PvaError where
  /-- `Protocol("unknown command {code}")`. -/
  | unknownCommand (code : UInt8)
  /-- `Protocol("not an op response: {cmd:?}")`. -/
  | notOpResponse (cmd : Command)
  /-- `Protocol("expected GetField (17), got {code}")`. -/
  | notGetField (code : UInt8)
  /-- `Protocol("data response without prior introspection")`. -/
  | noIntrospection
  /-- `Decode(e)`. -/
  | decode (e : DecodeError)
  /-- `Decode("MONITOR FINISH frame too short: {len} bytes")`. -/
  | finishShort (len : ℕ)
  /-- `Decode("MONITOR FINISH status decode failed: {e}")`. -/
  | finishStatus (e : DecodeError)
deriving DecidableEq, Repr

structure OpInitResponse where
  ioid : UInt32
  subcmd : UInt8
  status : Status
  fieldName : String
  introspection : FieldDesc

structure OpDataResponse where
  ioid : UInt32
  subcmd : UInt8
  status : Status
  changed : BitSet
  value : PvField
  overrun : BitSet
  responseDesc : Option FieldDesc

structure OpStatusResponse where
  ioid : UInt32
  subcmd : UInt8
  status : Status

inductive OpResponse where
  | init (response : OpInitResponse)
  | data (response : OpDataResponse)
  | status (response : OpStatusResponse)

def OpResponse.ioid : OpResponse → UInt32
  | .init response => response.ioid
  | .data response => response.ioid
  | .status response => response.ioid

/-- The `subcmd` byte. -/
def OpResponse.subcmd : OpResponse → UInt8
  | .init response => response.subcmd
  | .data response => response.subcmd
  | .status response => response.subcmd

structure GetFieldResponse where
  ioid : UInt32
  status : Status
  introspection : Option FieldDesc

/-! ### The decoder -/

/-- The `INIT` bit. -/
def bitInit : UInt8 := 0x08

/-- The bit of the last frame of a MONITOR, and of the last request of everything else. -/
def bitLast : UInt8 := 0x10

/-- The bit of a PUT that reads back. -/
def bitGet : UInt8 := 0x40

/-- `subcmd & bit != 0`. -/
def hasBit (subcmd bit : UInt8) : Bool := decide (subcmd &&& bit ≠ 0)

/-- `Status::decode` with a cursor at `start`: the status, and the position behind it. -/
def statusFrom (payload : List UInt8) (start : ℕ) (order : ByteOrder) :
    Except DecodeError (Status × ℕ) :=
  match (Status.decode order : Decoder TypeCache Status) (payload.drop start) TypeCache.empty with
  | (.ok (status, left), _) => .ok (status, payload.length - left.length)
  | (.error e, _) => .error e

def monitorFinishBody (payload : List UInt8) (order : ByteOrder) :
    Except PvaError (Status × Option ℕ) :=
  match payload[4]? with
  | none => .error (.finishShort payload.length)
  | some subcmd =>
      match statusFrom payload 5 order with
      | .error e => .error (.finishStatus e)
      | .ok (status, pos) =>
          .ok (status, if status.isSuccess && !hasBit subcmd bitInit && decide (pos < payload.length)
            then some pos else none)

def opDataBodyStart (payload : List UInt8) (order : ByteOrder) (cmd : Command) (subcmd : UInt8) :
    Option ℕ :=
  if cmd = .monitor then
    if hasBit subcmd bitLast then
      match monitorFinishBody payload order with
      | .ok (_, body) => body
      | .error _ => none
    else some 5
  else if cmd = .put && !hasBit subcmd bitGet then none
  else
    match statusFrom payload 5 order with
    | .ok (status, pos) => if status.isSuccess then some pos else none
    | .error _ => none

abbrev OpDecoder (α : Type) : Type := ByteReader PvaError TypeCache α

/-- `.map_err(|e| PvaError::Decode(e.to_string()))`. -/
def orDecodeError {α : Type} (p : Decoder TypeCache α) : OpDecoder α := mapFault .decode p

/-- The type in the answer to INIT, which an RPC does not have. -/
def decodeIntro (order : ByteOrder) (cmd : Command) : OpDecoder FieldDesc :=
  if cmd = .rpc then pure .variant else orDecodeError (decodeTypeDescCached order)

def initPhase (order : ByteOrder) (cmd : Command) (ioid : UInt32) (subcmd : UInt8) :
    OpDecoder OpResponse := do
  let status ← orDecodeError (Status.decode order)
  if !status.isSuccess then pure (.init ⟨ioid, subcmd, status, "", .variant⟩)
  else do
    let intro ← decodeIntro order cmd
    pure (.init ⟨ioid, subcmd, status, "", intro⟩)

/-- A PUT that does not read back. -/
def statusPhase (order : ByteOrder) (ioid : UInt32) (subcmd : UInt8) : OpDecoder OpResponse := do
  let status ← orDecodeError (Status.decode order)
  pure (.status ⟨ioid, subcmd, status⟩)

/-- The value of an RPC under its type; the null type has none. -/
def decodeRespValue (order : ByteOrder) : Option FieldDesc → OpDecoder PvField
  | some desc => orDecodeError (decodePvFieldCached order desc)
  | none => pure .null

/-- The data of an RPC, with their type in front of them. -/
def rpcPhase (order : ByteOrder) (ioid : UInt32) (subcmd : UInt8) : OpDecoder OpResponse := do
  let status ← orDecodeError (Status.decode order)
  if !status.isSuccess then pure (.status ⟨ioid, subcmd, status⟩)
  else do
    let respDesc ← orDecodeError (decodeTypeDescCachedOpt order)
    let respValue ← decodeRespValue order respDesc
    pure (.data ⟨ioid, subcmd, status, BitSet.new.set 0, respValue, BitSet.new, respDesc⟩)

/-- The set of overruns, which only a MONITOR has. -/
def decodeOverrun (order : ByteOrder) (cmd : Command) : OpDecoder BitSet :=
  if cmd = .monitor then orDecodeError (BitSet.decode order) else pure BitSet.new

/-- `changed | value | [overrun]`. -/
def dataBody (order : ByteOrder) (cmd : Command) (intro : FieldDesc) (ioid : UInt32)
    (subcmd : UInt8) (status : Status) : OpDecoder OpResponse := do
  let changed ← orDecodeError (BitSet.decode order)
  let value ← orDecodeError (decodePvFieldWithBitsetCached order changed intro 0)
  let overrun ← decodeOverrun order cmd
  pure (.data ⟨ioid, subcmd, status, changed, value, overrun, none⟩)

/-- The data of a GET, a PUT that reads back and a MONITOR; `finish` is the status of the last frame
of a MONITOR. -/
def dataPhase (order : ByteOrder) (cmd : Command) (introspection : Option FieldDesc)
    (ioid : UInt32) (subcmd : UInt8) (finish : Option Status) : OpDecoder OpResponse :=
  match introspection with
  | none => fail .noIntrospection
  | some intro => do
      let status ← match finish with
        | some status => pure status
        | none =>
            if cmd = .get || cmd = .put then orDecodeError (Status.decode order)
            else pure Status.ok
      if (cmd = .get || cmd = .put) && !status.isSuccess then
        pure (.status ⟨ioid, subcmd, status⟩)
      else dataBody order cmd intro ioid subcmd status

/-- What is behind the id and the `subcmd` byte. -/
def opPhase (order : ByteOrder) (cmd : Command) (introspection : Option FieldDesc)
    (ioid : UInt32) (subcmd : UInt8) (finish : Option Status) : OpDecoder OpResponse :=
  if hasBit subcmd bitInit then initPhase order cmd ioid subcmd
  else if cmd = .put && !hasBit subcmd bitGet then statusPhase order ioid subcmd
  else if cmd = .rpc then rpcPhase order ioid subcmd
  else dataPhase order cmd introspection ioid subcmd finish

/-- The last frame of a MONITOR: its status, and the body if there is one. -/
def decodeFinish (payload : List UInt8) (order : ByteOrder) (introspection : Option FieldDesc)
    (ioid : UInt32) (subcmd : UInt8) : OpDecoder OpResponse :=
  match monitorFinishBody payload order with
  | .error e => fail e
  | .ok (status, none) => pure (.status ⟨ioid, subcmd, status⟩)
  | .ok (status, some start) => do
      seek (payload.drop start)
      opPhase order .monitor introspection ioid subcmd (some status)

/-- `decode_op_response_cached`, from where the command is known. -/
def decodeOp (payload : List UInt8) (order : ByteOrder) (cmd : Command)
    (introspection : Option FieldDesc) : OpDecoder OpResponse := do
  let ioid ← orDecodeError (getU32 order)
  let subcmd ← orDecodeError getU8
  if cmd = .monitor && hasBit subcmd bitLast then
    decodeFinish payload order introspection ioid subcmd
  else opPhase order cmd introspection ioid subcmd none

def Command.isOp (cmd : Command) : Bool :=
  cmd = .get || cmd = .put || cmd = .monitor || cmd = .rpc

def decodeOpResponseCached (frame : Frame) (introspection : Option FieldDesc) (cache : TypeCache) :
    Except PvaError OpResponse × TypeCache :=
  match Command.fromCode frame.header.command with
  | none => (.error (.unknownCommand frame.header.command), cache)
  | some cmd =>
      if cmd.isOp then
        match decodeOp frame.payload frame.order cmd introspection frame.payload cache with
        | (.ok (response, _), cache) => (.ok response, cache)
        | (.error e, cache) => (.error e, cache)
      else (.error (.notOpResponse cmd), cache)

/-- `decode_op_response`: a cache of its own. -/
def decodeOpResponse (frame : Frame) (introspection : Option FieldDesc) :
    Except PvaError OpResponse :=
  (decodeOpResponseCached frame introspection TypeCache.empty).1

/-- The body of `decode_get_field_response`, over the decoder of the type. -/
def getFieldPhase (order : ByteOrder) (type : Decoder TypeCache FieldDesc) :
    OpDecoder GetFieldResponse := do
  let ioid ← orDecodeError (getU32 order)
  let status ← orDecodeError (Status.decode order)
  if !status.isSuccess then pure ⟨ioid, status, none⟩
  else do
    let intro ← orDecodeError type
    pure ⟨ioid, status, some intro⟩

def decodeGetFieldResponse (frame : Frame) : Except PvaError GetFieldResponse :=
  if frame.header.command ≠ Command.getField.code then .error (.notGetField frame.header.command)
  else
    match getFieldPhase frame.order (decodeTypeDesc frame.order) frame.payload TypeCache.empty with
    | (.ok (response, _), _) => .ok response
    | (.error e, _) => .error e

/-! ### Behind the head -/

/-- The decoder answers `a` to the bytes `i`, wherever it stops. -/
def Answers {α : Type} (p : OpDecoder α) (i : List UInt8) (cache : TypeCache) (a : α)
    (cache' : TypeCache) : Prop := ∃ r, p i cache = (.ok (a, r), cache')

/-- The first five bytes of a payload: the id of the operation and the `subcmd` byte. -/
structure Head (order : ByteOrder) (ioid : UInt32) (subcmd : UInt8) (head : List UInt8) : Prop where
  exists_word : ∃ word, head = word ++ [subcmd] ∧ word.length = 4 ∧
    ioid = UInt32.ofNat (order.ofBytes word)

/-- A status is read off `st`. -/
def ReadsStatus (order : ByteOrder) (st : List UInt8) (status : Status) : Prop :=
  ∀ cache : TypeCache, Reads (Status.decode order) st cache status cache

section

variable {order : ByteOrder} {ioid : UInt32} {subcmd : UInt8} {head st left : List UInt8}
  {status : Status}

lemma Head.length (h : Head order ioid subcmd head) : head.length = 5 := by
  obtain ⟨word, rfl, hlen, -⟩ := h.exists_word
  simp [hlen]

lemma Head.getElem? (h : Head order ioid subcmd head) (body : List UInt8) :
    (head ++ body)[4]? = some subcmd := by
  obtain ⟨word, rfl, hlen, -⟩ := h.exists_word
  rw [append_assoc, ← hlen, getElem?_append_right le_rfl]
  simp

/-- A status in front of `left`. -/
lemma statusFrom_eq {n} (hhead : head.length = n) (hst : ReadsStatus order st status) :
    statusFrom (head ++ (st ++ left)) n order = .ok (status, n + st.length) := by
  have hpos : (head ++ (st ++ left)).length - left.length = n + st.length := by
    simp only [length_append, hhead]
    omega
  rw [statusFrom, drop_left' hhead, hst TypeCache.empty left]
  simp only [hpos]

lemma monitorFinishBody_eq (hhead : Head order ioid subcmd head)
    (hst : ReadsStatus order st status) :
    monitorFinishBody (head ++ (st ++ left)) order = .ok (status,
      if status.isSuccess && !hasBit subcmd bitInit && decide (left ≠ [])
      then some (5 + st.length) else none) := by
  have hlen : 5 + st.length < (head ++ (st ++ left)).length ↔ left ≠ [] := by
    rw [← length_pos_iff]
    simp only [length_append, hhead.length]
    omega
  rw [monitorFinishBody, hhead.getElem?]
  simp only [statusFrom_eq hhead.length hst, hlen]

end

def finishPhase (order : ByteOrder) (introspection : Option FieldDesc) (ioid : UInt32)
    (subcmd : UInt8) : OpDecoder OpResponse := do
  let status ← mapFault .finishStatus (Status.decode order)
  let left ← rest
  if status.isSuccess && !hasBit subcmd bitInit && decide (left ≠ []) then
    opPhase order .monitor introspection ioid subcmd (some status)
  else pure (.status ⟨ioid, subcmd, status⟩)

def framePhase (order : ByteOrder) (cmd : Command) (introspection : Option FieldDesc)
    (ioid : UInt32) (subcmd : UInt8) : OpDecoder OpResponse :=
  if cmd = .monitor && hasBit subcmd bitLast then finishPhase order introspection ioid subcmd
  else opPhase order cmd introspection ioid subcmd none

section

variable {order : ByteOrder} {cmd : Command} {introspection : Option FieldDesc} {ioid : UInt32}
  {subcmd : UInt8}

lemma stateless_orDecodeError {α : Type} {p : Decoder TypeCache α} (hp : Stateless p) :
    Stateless (orDecodeError p) := hp.mapFault

variable {cache' cache : TypeCache}

lemma reads_orDecodeError {α : Type} {p : Decoder TypeCache α} {c a} :
    Reads (orDecodeError p) c cache a cache' ↔ Reads p c cache a cache' :=
  forall_congr' fun _ => mapFault_eq_ok

lemma status_bind_eq_ok {f} {α : Type} {k : Status → OpDecoder α} {i r a} :
    (mapFault f (Status.decode order) >>= k) i cache = (.ok (a, r), cache') ↔
      ∃ st status left, i = st ++ left ∧ ReadsStatus order st status ∧
        k status left cache = (.ok (a, r), cache') := by
  rw [(Status.stateless_decode order).mapFault.bind_eq_ok]
  simp only [ReadsStatus, Reads, mapFault_eq_ok]

lemma head_bind_eq_ok {α : Type} {k : UInt32 → UInt8 → OpDecoder α} {i r a} :
    (orDecodeError (getU32 order) >>= fun ioid => orDecodeError getU8 >>= fun subcmd =>
        k ioid subcmd) i cache = (.ok (a, r), cache') ↔
      ∃ ioid subcmd head body, i = head ++ body ∧ Head order ioid subcmd head ∧
        k ioid subcmd body cache = (.ok (a, r), cache') := by
  constructor
  · intro h
    obtain ⟨ioid, i₁, s₁, h₁, h₂⟩ := bind_eq_ok.1 h
    obtain ⟨subcmd, i₂, s₂, h₃, h₄⟩ := bind_eq_ok.1 h₂
    obtain ⟨word, rfl, hlen, hioid, rfl⟩ := getU32_eq_ok.1 (mapFault_eq_ok.1 h₁)
    obtain ⟨rfl, rfl⟩ := byte_eq_ok.1 (mapFault_eq_ok.1 h₃)
    exact ⟨ioid, subcmd, word ++ [subcmd], i₂, by simp, ⟨word, rfl, hlen, hioid⟩, h₄⟩
  · rintro ⟨ioid, subcmd, head, body, rfl, ⟨word, rfl, hlen, hioid⟩, h⟩
    have h₁ : orDecodeError (getU32 order) (word ++ [subcmd] ++ body) cache =
        (.ok (ioid, subcmd :: body), cache) :=
      mapFault_eq_ok.2 (getU32_eq_ok.2 ⟨word, by simp, hlen, hioid, rfl⟩)
    have h₂ : orDecodeError getU8 (subcmd :: body) cache = (.ok (subcmd, body), cache) :=
      mapFault_eq_ok.2 (byte_cons ..)
    rw [bind_of_ok h₁, bind_of_ok h₂, h]

lemma Head.eq_of_append {ioid' subcmd' head head' body body'} (h : Head order ioid subcmd head)
    (h' : Head order ioid' subcmd' head') (heq : head ++ body = head' ++ body') :
    ioid = ioid' ∧ subcmd = subcmd' ∧ body = body' := by
  obtain ⟨hhead, hbody⟩ := append_inj heq (h.length.trans h'.length.symm)
  obtain ⟨word, rfl, -, rfl⟩ := h.exists_word
  obtain ⟨word', rfl, -, rfl⟩ := h'.exists_word
  obtain ⟨rfl, hsub⟩ := append_inj' hhead rfl
  exact ⟨rfl, (cons.inj hsub).1, hbody⟩

variable {response : OpResponse}

lemma decodeFinish_answers {head body : List UInt8} (hhead : Head order ioid subcmd head) :
    Answers (decodeFinish (head ++ body) order introspection ioid subcmd) body cache response
        cache' ↔
      Answers (finishPhase order introspection ioid subcmd) body cache response cache' := by
  -- both need the status, and do the same once it is there
  have hboth : ∀ {st status left}, body = st ++ left → ReadsStatus order st status →
      (Answers (decodeFinish (head ++ body) order introspection ioid subcmd) body cache response
          cache' ↔
        Answers (finishPhase order introspection ioid subcmd) body cache response cache') := by
    rintro st status left rfl hst
    have hdrop : (head ++ (st ++ left)).drop (5 + st.length) = left := by
      rw [← append_assoc]
      exact drop_left' (by rw [length_append, hhead.length])
    have hstatus : mapFault PvaError.finishStatus (Status.decode order) (st ++ left) cache =
        (.ok (status, left), cache) := mapFault_eq_ok.2 (hst cache left)
    rw [Answers, Answers, decodeFinish, monitorFinishBody_eq hhead hst, finishPhase,
      bind_of_ok hstatus, bind_of_ok (rest_apply _ _)]
    split_ifs with hbody
    · simp only [hdrop]
      rfl
    · simp [pure_eq_ok]
  constructor
  · rintro ⟨r, h⟩
    have hstatus : ∃ status pos, statusFrom (head ++ body) 5 order = .ok (status, pos) := by
      rw [decodeFinish, monitorFinishBody, hhead.getElem?] at h
      cases hfrom : statusFrom (head ++ body) 5 order with
      | error e => simp [hfrom] at h
      | ok x => exact ⟨x.1, x.2, rfl⟩
    obtain ⟨status, pos, hfrom⟩ := hstatus
    rw [statusFrom, drop_left' hhead.length] at hfrom
    match hdec : (Status.decode order : Decoder TypeCache Status) body TypeCache.empty with
    | (.error e, s) => simp [hdec] at hfrom
    | (.ok (status, left), s) =>
      obtain ⟨-, st, hbody, hst⟩ := Status.stateless_decode order _ _ _ _ _ hdec
      exact (hboth hbody hst).1 ⟨r, h⟩
  · rintro ⟨r, h⟩
    obtain ⟨st, status, left, hbody, hst, -⟩ := status_bind_eq_ok.1 h
    exact (hboth hbody hst).2 ⟨r, h⟩

/-- **Behind its head, a frame is decoded by what is left of it.** -/
theorem decodeOp_answers {head body : List UInt8} (hhead : Head order ioid subcmd head) :
    Answers (decodeOp (head ++ body) order cmd introspection) (head ++ body) cache response cache' ↔
      Answers (framePhase order cmd introspection ioid subcmd) body cache response cache' := by
  have hbehind : Answers (decodeOp (head ++ body) order cmd introspection) (head ++ body) cache
      response cache' ↔ Answers (if cmd = .monitor && hasBit subcmd bitLast then
        decodeFinish (head ++ body) order introspection ioid subcmd
        else opPhase order cmd introspection ioid subcmd none) body cache response cache' := by
    refine exists_congr fun r => ?_
    rw [decodeOp, head_bind_eq_ok]
    constructor
    · rintro ⟨ioid', subcmd', head', body', heq, hhead', h⟩
      obtain ⟨rfl, rfl, rfl⟩ := hhead.eq_of_append hhead' heq
      exact h
    · exact fun h => ⟨ioid, subcmd, head, body, rfl, hhead, h⟩
  rw [hbehind, framePhase]
  split_ifs
  · exact decodeFinish_answers hhead
  · rfl

lemma exists_head {payload : List UInt8}
    (h : Answers (decodeOp payload order cmd introspection) payload cache response cache') :
    ∃ ioid subcmd head body, payload = head ++ body ∧ Head order ioid subcmd head := by
  obtain ⟨r, h⟩ := h
  obtain ⟨ioid, subcmd, head, body, hi, hhead, -⟩ := head_bind_eq_ok.1 h
  exact ⟨ioid, subcmd, head, body, hi, hhead⟩

end

/-! ### Frames without data -/

section

variable {order : ByteOrder} {cmd : Command} {ioid : UInt32} {subcmd : UInt8} {body : List UInt8}
  {cache cache' : TypeCache} {response : OpResponse}

lemma initPhase_cases (h : Answers (initPhase order cmd ioid subcmd) body cache response cache') :
    ∃ st status left, body = st ++ left ∧ ReadsStatus order st status ∧
      ((status.isSuccess = false ∧ response = .init ⟨ioid, subcmd, status, "", .variant⟩ ∧
          cache' = cache) ∨
        ∃ d tail, status.isSuccess = true ∧ response = .init ⟨ioid, subcmd, status, "", d⟩ ∧
          decodeIntro order cmd left cache = (.ok (d, tail), cache')) := by
  obtain ⟨r, h⟩ := h
  obtain ⟨st, status, left, rfl, hst, h₁⟩ := status_bind_eq_ok.1 h
  refine ⟨st, status, left, rfl, hst, ?_⟩
  cases hsuccess : status.isSuccess with
  | false =>
    rw [hsuccess] at h₁
    obtain ⟨rfl, -, rfl⟩ := pure_eq_ok.1 h₁
    exact Or.inl ⟨rfl, rfl, rfl⟩
  | true =>
    rw [hsuccess] at h₁
    obtain ⟨d, tail, s₁, hd, h₂⟩ := bind_eq_ok.1 h₁
    obtain ⟨rfl, -, rfl⟩ := pure_eq_ok.1 h₂
    exact Or.inr ⟨d, tail, rfl, rfl, hd⟩

variable {status : Status}

lemma initPhase_failure {st left : List UInt8} (hst : ReadsStatus order st status)
    (hfailure : status.isSuccess = false) (cache : TypeCache) :
    Answers (initPhase order cmd ioid subcmd) (st ++ left) cache
      (.init ⟨ioid, subcmd, status, "", .variant⟩) cache := by
  refine ⟨left, status_bind_eq_ok.2 ⟨st, status, left, rfl, hst, ?_⟩⟩
  rw [hfailure]
  rfl

lemma initPhase_success {st left tail} {d : FieldDesc} (hst : ReadsStatus order st status)
    (hsuccess : status.isSuccess = true)
    (hd : decodeIntro order cmd left cache = (.ok (d, tail), cache')) :
    Answers (initPhase order cmd ioid subcmd) (st ++ left) cache
      (.init ⟨ioid, subcmd, status, "", d⟩) cache' := by
  refine ⟨tail, status_bind_eq_ok.2 ⟨st, status, left, rfl, hst, ?_⟩⟩
  rw [hsuccess]
  exact bind_of_ok hd

lemma rpcPhase_cases (h : Answers (rpcPhase order ioid subcmd) body cache response cache') :
    ∃ st status left, body = st ++ left ∧ ReadsStatus order st status ∧
      ((status.isSuccess = false ∧ response = .status ⟨ioid, subcmd, status⟩ ∧ cache' = cache) ∨
        ∃ o value i₁ s₁ tail, status.isSuccess = true ∧
          response = .data ⟨ioid, subcmd, status, new.set 0, value, new, o⟩ ∧
          decodeTypeDescCachedOpt order left cache = (.ok (o, i₁), s₁) ∧
          decodeRespValue order o i₁ s₁ = (.ok (value, tail), cache')) := by
  obtain ⟨r, h⟩ := h
  obtain ⟨st, status, left, rfl, hst, h₁⟩ := status_bind_eq_ok.1 h
  refine ⟨st, status, left, rfl, hst, ?_⟩
  cases hsuccess : status.isSuccess with
  | false =>
    rw [hsuccess] at h₁
    obtain ⟨rfl, -, rfl⟩ := pure_eq_ok.1 h₁
    exact Or.inl ⟨rfl, rfl, rfl⟩
  | true =>
    rw [hsuccess] at h₁
    obtain ⟨o, i₁, s₁, ho, h₂⟩ := bind_eq_ok.1 h₁
    obtain ⟨value, tail, s₂, hvalue, h₃⟩ := bind_eq_ok.1 h₂
    obtain ⟨rfl, -, rfl⟩ := pure_eq_ok.1 h₃
    exact Or.inr ⟨o, value, i₁, s₁, tail, rfl, rfl, mapFault_eq_ok.1 ho, hvalue⟩

lemma rpcPhase_failure {st left : List UInt8} (hst : ReadsStatus order st status)
    (hfailure : status.isSuccess = false) (cache : TypeCache) :
    Answers (rpcPhase order ioid subcmd) (st ++ left) cache (.status ⟨ioid, subcmd, status⟩)
      cache := by
  refine ⟨left, status_bind_eq_ok.2 ⟨st, status, left, rfl, hst, ?_⟩⟩
  rw [hfailure]
  rfl

lemma rpcPhase_success {st left i₁ tail} {o : Option FieldDesc} {value} {s₁ : TypeCache}
    (hst : ReadsStatus order st status) (hsuccess : status.isSuccess = true)
    (ho : decodeTypeDescCachedOpt order left cache = (.ok (o, i₁), s₁))
    (hvalue : decodeRespValue order o i₁ s₁ = (.ok (value, tail), cache')) :
    Answers (rpcPhase order ioid subcmd) (st ++ left) cache
      (.data ⟨ioid, subcmd, status, new.set 0, value, new, o⟩) cache' := by
  refine ⟨tail, status_bind_eq_ok.2 ⟨st, status, left, rfl, hst, ?_⟩⟩
  have ho' : orDecodeError (decodeTypeDescCachedOpt order) left cache = (.ok (o, i₁), s₁) :=
    mapFault_eq_ok.2 ho
  rw [hsuccess]
  exact (bind_of_ok ho').trans (bind_of_ok hvalue)

end

/-! ### GET_FIELD -/

lemma getFieldPhase_answers {order} {type : Decoder TypeCache FieldDesc} {i : List UInt8}
    {cache cache' : TypeCache} {response} :
    Answers (getFieldPhase order type) i cache response cache' ↔
      ∃ word st status left, i = word ++ (st ++ left) ∧ word.length = 4 ∧
        ReadsStatus order st status ∧
        ((status.isSuccess = false ∧ cache' = cache ∧
            response = ⟨UInt32.ofNat (order.ofBytes word), status, none⟩) ∨
          ∃ d tail, status.isSuccess = true ∧ type left cache = (.ok (d, tail), cache') ∧
            response = ⟨UInt32.ofNat (order.ofBytes word), status, some d⟩) := by
  constructor
  · rintro ⟨r, h⟩
    obtain ⟨ioid, i₁, s₁, h₁, h₂⟩ := bind_eq_ok.1 h
    obtain ⟨word, rfl, hlen, rfl, rfl⟩ := getU32_eq_ok.1 (mapFault_eq_ok.1 h₁)
    obtain ⟨st, status, left, rfl, hst, h₃⟩ := status_bind_eq_ok.1 h₂
    refine ⟨word, st, status, left, rfl, hlen, hst, ?_⟩
    cases hsuccess : status.isSuccess with
    | false =>
      rw [hsuccess] at h₃
      obtain ⟨rfl, -, rfl⟩ := pure_eq_ok.1 h₃
      exact Or.inl ⟨rfl, rfl, rfl⟩
    | true =>
      rw [hsuccess] at h₃
      obtain ⟨d, tail, s₂, hd, h₄⟩ := bind_eq_ok.1 h₃
      obtain ⟨rfl, -, rfl⟩ := pure_eq_ok.1 h₄
      exact Or.inr ⟨d, tail, rfl, mapFault_eq_ok.1 hd, rfl⟩
  · rintro ⟨word, st, status, left, rfl, hlen, hst, hcases⟩
    have hioid : orDecodeError (getU32 order) (word ++ (st ++ left)) cache =
        (.ok (UInt32.ofNat (order.ofBytes word), st ++ left), cache) :=
      mapFault_eq_ok.2 (getU32_eq_ok.2 ⟨word, rfl, hlen, rfl, rfl⟩)
    rw [Answers, getFieldPhase, bind_of_ok hioid]
    rcases hcases with ⟨hfailure, rfl, rfl⟩ | ⟨d, tail, hsuccess, hd, rfl⟩
    · refine ⟨left, status_bind_eq_ok.2 ⟨st, status, left, rfl, hst, ?_⟩⟩
      rw [hfailure]
      rfl
    · have hd' : orDecodeError type left cache = (.ok (d, tail), cache') := mapFault_eq_ok.2 hd
      refine ⟨tail, status_bind_eq_ok.2 ⟨st, status, left, rfl, hst, ?_⟩⟩
      rw [hsuccess]
      exact bind_of_ok hd'

/-! ### Frames with data -/

/-- Behind the status in `st`, a frame is decoded as a body, and that is where the body starts. -/
structure Opens (order : ByteOrder) (cmd : Command) (ioid : UInt32) (subcmd : UInt8)
    (st : List UInt8) (status : Status) : Prop where
  phase : ∀ {intro x}, x ≠ [] → ∀ cache, framePhase order cmd (some intro) ioid subcmd (st ++ x)
    cache = dataBody order cmd intro ioid subcmd status x cache
  start : ∀ {head x}, Head order ioid subcmd head → x ≠ [] →
    opDataBodyStart (head ++ (st ++ x)) order cmd subcmd = some (5 + st.length)

/-- A frame that is a status and nothing else, whatever the cache. -/
structure StatusOnly (order : ByteOrder) (cmd : Command) (introspection : Option FieldDesc)
    (ioid : UInt32) (subcmd : UInt8) (body : List UInt8) (response : OpResponse) : Prop where
  eq_status : ∃ status, response = .status ⟨ioid, subcmd, status⟩
  answers : ∀ cache, Answers (framePhase order cmd introspection ioid subcmd) body cache response
    cache
  start : ∀ {head}, Head order ioid subcmd head → opDataBodyStart (head ++ body) order cmd subcmd =
    none

section

variable {order : ByteOrder} {cmd : Command} {introspection : Option FieldDesc} {ioid : UInt32}
  {subcmd : UInt8} {body : List UInt8} {cache cache' : TypeCache} {response : OpResponse}

/-- What a frame with data can be. -/
def DataCases (order : ByteOrder) (cmd : Command) (introspection : Option FieldDesc)
    (ioid : UInt32) (subcmd : UInt8) (body : List UInt8) (cache : TypeCache)
    (response : OpResponse) (cache' : TypeCache) : Prop :=
  (StatusOnly order cmd introspection ioid subcmd body response ∧ cache' = cache) ∨
  ∃ intro st status x, introspection = some intro ∧ body = st ++ x ∧ x ≠ [] ∧
    Opens order cmd ioid subcmd st status ∧
    Answers (dataBody order cmd intro ioid subcmd status) x cache response cache'

lemma ne_nil_of_dataBody {intro status x}
    (h : Answers (dataBody order cmd intro ioid subcmd status) x cache response cache') :
    x ≠ [] := by
  rintro rfl
  obtain ⟨r, h⟩ := h
  cases h

lemma finish_cases (hlast : hasBit subcmd bitLast = true)
    (h : Answers (framePhase order .monitor introspection ioid subcmd) body cache response cache') :
    DataCases order .monitor introspection ioid subcmd body cache response cache' := by
  have hphase : ∀ introspection, framePhase order .monitor introspection ioid subcmd =
      finishPhase order introspection ioid subcmd := by
    intro introspection
    simp [framePhase, hlast]
  have hstart : ∀ {head st left status}, Head order ioid subcmd head →
      ReadsStatus order st status → opDataBodyStart (head ++ (st ++ left)) order .monitor subcmd =
        if status.isSuccess && !hasBit subcmd bitInit && decide (left ≠ [])
        then some (5 + st.length) else none := by
    intro head st left status hhead hst
    simp [opDataBodyStart, hlast, monitorFinishBody_eq hhead hst]
  have hread : ∀ introspection {st left status} cache, ReadsStatus order st status →
      framePhase order .monitor introspection ioid subcmd (st ++ left) cache =
        (if status.isSuccess && !hasBit subcmd bitInit && decide (left ≠ []) then
          opPhase order .monitor introspection ioid subcmd (some status)
        else pure (.status ⟨ioid, subcmd, status⟩)) left cache := by
    intro introspection st left status cache hst
    rw [hphase, finishPhase, bind_of_ok (mapFault_eq_ok.2 (hst cache left)),
      bind_of_ok (rest_apply _ _)]
  have hdata : ∀ {intro status}, hasBit subcmd bitInit = false →
      opPhase order .monitor (some intro) ioid subcmd (some status) =
        dataBody order .monitor intro ioid subcmd status := by
    intro intro status hinit
    simp [opPhase, hinit, dataPhase]
  obtain ⟨r, h⟩ := h
  have hfinish := h
  rw [hphase] at hfinish
  obtain ⟨st, status, left, rfl, hst, -⟩ := status_bind_eq_ok.1 hfinish
  rw [hread _ _ hst] at h
  split_ifs at h with hbody
  · -- a success, not an INIT, and something is left: the body
    simp only [Bool.and_eq_true, Bool.not_eq_true', decide_eq_true_eq] at hbody
    obtain ⟨⟨hsuccess, hinit⟩, hleft⟩ := hbody
    have hopen : Opens order .monitor ioid subcmd st status := by
      refine ⟨fun {intro x} hx cache => ?_, fun {head x} hhead hx => ?_⟩
      · rw [hread _ _ hst, if_pos (by simp [hsuccess, hinit, hx]), hdata hinit]
      · rw [hstart hhead hst, if_pos (by simp [hsuccess, hinit, hx])]
    cases introspection with
    | none => simp [opPhase, hinit, dataPhase] at h
    | some intro =>
      rw [hdata hinit] at h
      exact Or.inr ⟨intro, st, status, left, rfl, rfl, hleft, hopen, r, h⟩
  · -- the status alone is the answer, and the flattener finds no body
    obtain ⟨rfl, rfl, rfl⟩ := pure_eq_ok.1 h
    refine Or.inl ⟨⟨⟨status, rfl⟩, fun cache => ⟨left, ?_⟩, fun {head} hhead => ?_⟩, rfl⟩
    · rw [hread _ _ hst, if_neg hbody]
      rfl
    · rw [hstart hhead hst, if_neg hbody]

lemma status_first_cases (hcmd : cmd = .get ∨ cmd = .put ∧ hasBit subcmd bitGet = true)
    (hinit : hasBit subcmd bitInit = false)
    (h : Answers (framePhase order cmd introspection ioid subcmd) body cache response cache') :
    DataCases order cmd introspection ioid subcmd body cache response cache' := by
  -- one reading of the status serves the frame at hand and the one that is handed on
  have hphase : ∀ introspection, framePhase order cmd introspection ioid subcmd =
      dataPhase order cmd introspection ioid subcmd none := by
    intro introspection
    rcases hcmd with rfl | ⟨rfl, hget⟩
    · simp [framePhase, opPhase, hinit]
    · simp [framePhase, opPhase, hinit, hget]
  have hput : (cmd = .get || cmd = .put) = true := by
    rcases hcmd with rfl | ⟨rfl, -⟩ <;> rfl
  have hstart : ∀ {head st left status}, Head order ioid subcmd head →
      ReadsStatus order st status → opDataBodyStart (head ++ (st ++ left)) order cmd subcmd =
        if status.isSuccess then some (5 + st.length) else none := by
    intro head st left status hhead hst
    rcases hcmd with rfl | ⟨rfl, hget⟩
    · simp [opDataBodyStart, statusFrom_eq hhead.length hst]
    · simp [opDataBodyStart, hget, statusFrom_eq hhead.length hst]
  have hread : ∀ intro {st left status} cache, ReadsStatus order st status →
      framePhase order cmd (some intro) ioid subcmd (st ++ left) cache =
        (if !status.isSuccess then pure (.status ⟨ioid, subcmd, status⟩)
        else dataBody order cmd intro ioid subcmd status) left cache := by
    intro intro st left status cache hst
    have hstatus : orDecodeError (Status.decode order) (st ++ left) cache =
        (.ok (status, left), cache) := mapFault_eq_ok.2 (hst cache left)
    rw [hphase, dataPhase]
    simp only [hput, if_true, Bool.true_and]
    rw [bind_of_ok hstatus]
  obtain ⟨r, h⟩ := h
  cases introspection with
  | none =>
    rw [hphase] at h
    simp [dataPhase] at h
  | some intro =>
    have hfirst := h
    rw [hphase, dataPhase] at hfirst
    simp only [hput, if_true] at hfirst
    obtain ⟨st, status, left, rfl, hst, -⟩ := status_bind_eq_ok.1 hfirst
    rw [hread _ _ hst] at h
    -- a failure ends the frame; a success opens the body, which is not empty
    cases hsuccess : status.isSuccess with
    | false =>
      rw [hsuccess] at h
      obtain ⟨rfl, rfl, rfl⟩ := pure_eq_ok.1 h
      refine Or.inl ⟨⟨⟨status, rfl⟩, fun cache => ⟨left, ?_⟩, fun {head} hhead => ?_⟩, rfl⟩
      · rw [hread _ _ hst, hsuccess]
        rfl
      · rw [hstart hhead hst, hsuccess]
        rfl
    | true =>
      rw [hsuccess] at h
      have hbody : Answers (dataBody order cmd intro ioid subcmd status) left cache response
          cache' := ⟨r, h⟩
      refine Or.inr ⟨intro, st, status, left, rfl, rfl, ne_nil_of_dataBody hbody,
        ⟨fun {intro x} _ cache => ?_, fun {head x} hhead _ => ?_⟩, hbody⟩
      · rw [hread _ _ hst, hsuccess]
        rfl
      · rw [hstart hhead hst, hsuccess]
        rfl

lemma monitor_cases (hinit : hasBit subcmd bitInit = false)
    (hlast : hasBit subcmd bitLast = false)
    (h : Answers (framePhase order .monitor introspection ioid subcmd) body cache response cache') :
    DataCases order .monitor introspection ioid subcmd body cache response cache' := by
  have hphase : ∀ introspection, framePhase order .monitor introspection ioid subcmd =
      dataPhase order .monitor introspection ioid subcmd none := by
    intro introspection
    simp [framePhase, opPhase, hinit, hlast]
  have hdata : ∀ intro, framePhase order .monitor (some intro) ioid subcmd =
      dataBody order .monitor intro ioid subcmd Status.ok := by
    intro intro
    simp [hphase, dataPhase]
  cases introspection with
  | none =>
    obtain ⟨r, h⟩ := h
    rw [hphase] at h
    simp [dataPhase] at h
  | some intro =>
    rw [hdata] at h
    refine Or.inr ⟨intro, [], Status.ok, body, rfl, rfl, ne_nil_of_dataBody h,
      ⟨fun {intro x} _ cache => ?_, fun {head x} _ _ => ?_⟩, h⟩
    · rw [hdata]
      rfl
    · simp [opDataBodyStart, hlast]

lemma put_cases (hinit : hasBit subcmd bitInit = false) (hget : hasBit subcmd bitGet = false)
    (h : Answers (framePhase order .put introspection ioid subcmd) body cache response cache') :
    DataCases order .put introspection ioid subcmd body cache response cache' := by
  have hphase : framePhase order .put introspection ioid subcmd = statusPhase order ioid subcmd := by
    simp [framePhase, opPhase, hinit, hget]
  obtain ⟨r, h⟩ := h
  rw [hphase] at h
  obtain ⟨st, status, left, rfl, hst, hpure⟩ := status_bind_eq_ok.1 h
  obtain ⟨rfl, rfl, rfl⟩ := pure_eq_ok.1 hpure
  refine Or.inl ⟨⟨⟨status, rfl⟩, fun cache => ⟨left, ?_⟩, fun {head} _ => ?_⟩, rfl⟩
  · rw [hphase]
    exact status_bind_eq_ok.2 ⟨st, status, left, rfl, hst, rfl⟩
  · simp [opDataBodyStart, hget]

/-- **A frame with data is a status, or a status and a body.** -/
theorem framePhase_data_cases (hcmd : cmd = .get ∨ cmd = .put ∨ cmd = .monitor)
    (hinit : hasBit subcmd bitInit = false ∨ cmd = .monitor ∧ hasBit subcmd bitLast = true)
    (h : Answers (framePhase order cmd introspection ioid subcmd) body cache response cache') :
    DataCases order cmd introspection ioid subcmd body cache response cache' := by
  rcases hcmd with rfl | rfl | rfl
  · exact status_first_cases (Or.inl rfl) (hinit.resolve_right (by simp)) h
  · have hinit := hinit.resolve_right (by simp)
    cases hget : hasBit subcmd bitGet with
    | true => exact status_first_cases (Or.inr ⟨rfl, hget⟩) hinit h
    | false => exact put_cases hinit hget h
  · cases hlast : hasBit subcmd bitLast with
    | true => exact finish_cases hlast h
    | false => exact monitor_cases (hinit.resolve_right (by simp [hlast])) hlast h

end

end Pva
