/-
**Flattening.**

Markers only mean something in the order in which the frames arrive, so the task that reads a
connection rewrites each frame with its descriptors inline, and whoever decodes it has an empty
cache.  The types of the values it takes from the answers to INIT.

One run decodes every frame with the cache of the connection, the other what the reader hands on,
with an empty one.  The answers are the same if those of the first run are self-contained: a
descriptor may not be admitted inline, the reader gives up on values that are too deep for it, and
it hands on the last answer of an RPC as it is.

Main result: `Pva.flattened_run`.
-/

import EpicsRs.PvaOpResponse
import EpicsRs.PvaWalk

set_option autoImplicit false

namespace Pva

open ByteReader List TypeCache BitSet

/-! ### The reader -/

/-- `payload[..start] | bytes | payload[stop..]`, with the length in the header. -/
def Frame.rebuild (frame : Frame) (start stop : ℕ) (bytes : List UInt8) : Frame :=
  let rebuilt := frame.payload.take start ++ bytes ++ frame.payload.drop stop
  ⟨{ frame.header with payloadLength := UInt32.ofNat rebuilt.length }, rebuilt⟩

/-- What becomes of a frame when its descriptors were decoded, from `descsStart` on: they are put
inline. -/
def Frame.withDescs (frame : Frame) (order : ByteOrder) (descsStart : ℕ) :
    Except DecodeError (List FieldDesc × List UInt8) × TypeCache →
      Option (List FieldDesc) × Frame × TypeCache
  | (.ok (descs, left), cache) =>
      let descsEnd := frame.payload.length - left.length
      let inline := descs.flatMap (encodeTypeDesc order)
      (some descs,
        if inline ≠ slice frame.payload descsStart descsEnd then
          frame.rebuild descsStart descsEnd inline
        else frame,
        cache)
  | (.error _, cache) => (none, frame, cache)

def rewriteAfterStatus (frame : Frame) (order : ByteOrder) (cache : TypeCache)
    (prefixLen descCount : ℕ) : Option (List FieldDesc) × Frame × TypeCache :=
  if frame.payload.length < prefixLen then (none, frame, cache)
  else
    match statusFrom frame.payload prefixLen order with
    | .error _ => (none, frame, cache)
    | .ok (status, descsStart) =>
        if !status.isSuccess then (none, frame, cache)
        else frame.withDescs order descsStart
          (times (decodeTypeDescCached order) descCount (frame.payload.drop descsStart) cache)

/-- What becomes of a frame when its value was walked over; on any difficulty it is left as it
is. -/
def Frame.withValue (frame : Frame) (valueStart : ℕ) :
    Except DecodeError (ℕ × Option (List UInt8)) × TypeCache → Frame × TypeCache
  | (.ok (valueEnd, some rewritten), cache) => (frame.rebuild valueStart valueEnd rewritten, cache)
  | (.ok (_, none), cache) => (frame, cache)
  | (.error _, cache) => (frame, cache)

/-- The types of the operations that are under way: `DashMap<u32, FieldDesc>`. -/
abbrev Introspections : Type := UInt32 → Option FieldDesc

def flattenOpDataValue (frame : Frame) (order : ByteOrder) (cache : TypeCache) (cmd : Command)
    (subcmd : UInt8) (ioid : UInt32) (introspection : Introspections) : Frame × TypeCache :=
  match introspection ioid with
  | none => (frame, cache)
  | some intro =>
      if !descContainsVariant intro then (frame, cache)
      else
        match opDataBodyStart frame.payload order cmd subcmd with
        | none => (frame, cache)
        | some bodyStart =>
            match (BitSet.decode order : Decoder TypeCache BitSet) (frame.payload.drop bodyStart)
                cache with
            | (.error _, cache) => (frame, cache)
            | (.ok (changed, left), cache) =>
                let valueStart := frame.payload.length - left.length
                frame.withValue valueStart
                  (flattenValueMarkers frame.payload valueStart intro changed order cache)

def flattenRpcDataValue (frame : Frame) (order : ByteOrder) (cache : TypeCache) :
    Frame × TypeCache :=
  match rewriteAfterStatus frame order cache 5 1 with
  | (some (respDesc :: _), frame, cache) =>
      if !descContainsVariant respDesc then (frame, cache)
      else
        match (do
            let _ ← Status.decode order
            decodeTypeDesc order : Decoder TypeCache FieldDesc) (frame.payload.drop 5) cache with
        | (.error _, cache) => (frame, cache)
        | (.ok (_, left), cache) =>
            let valueStart := frame.payload.length - left.length
            frame.withValue valueStart
              (flattenValueMarkersFull frame.payload valueStart respDesc order cache)
  | (_, frame, cache) => (frame, cache)

def peekU8 (payload : List UInt8) (off : ℕ) : Option UInt8 := payload[off]?

def peekU32 (payload : List UInt8) (off : ℕ) (order : ByteOrder) : Option UInt32 :=
  if off + 4 ≤ payload.length then
    some (UInt32.ofNat (order.ofBytes (slice payload off (off + 4))))
  else none

/-- What the reader keeps: the type cache, and the types of the operations. -/
structure Reader where
  cache : TypeCache
  introspection : Introspections

def Reader.new : Reader := ⟨TypeCache.empty, fun _ => none⟩

def flattenOp (frame : Frame) (order : ByteOrder) (cmd : Command) (ioid : UInt32)
    (reader : Reader) : Frame × Reader :=
  match peekU8 frame.payload 4 with
  | none => (frame, reader)
  | some subcmd =>
      let flattened := flattenOpDataValue frame order reader.cache cmd subcmd ioid
        reader.introspection
      if cmd = .monitor && hasBit subcmd bitLast then
        (flattened.1, ⟨flattened.2, Function.update reader.introspection ioid none⟩)
      else if hasBit subcmd bitInit then
        match rewriteAfterStatus frame order reader.cache 5 1 with
        | (some (d :: _), frame, cache) =>
            (frame, ⟨cache, Function.update reader.introspection ioid (some d)⟩)
        | (_, frame, cache) => (frame, ⟨cache, reader.introspection⟩)
      else (flattened.1, ⟨flattened.2, reader.introspection⟩)

def flattenRpc (frame : Frame) (order : ByteOrder) (ioid : UInt32) (reader : Reader) :
    Frame × Reader :=
  match peekU8 frame.payload 4 with
  | none => (frame, reader)
  | some subcmd =>
      if hasBit subcmd bitLast then
        (frame, { reader with introspection := Function.update reader.introspection ioid none })
      else if hasBit subcmd bitInit then (frame, reader)
      else
        let flattened := flattenRpcDataValue frame order reader.cache
        (flattened.1, { reader with cache := flattened.2 })

def flattenTypeCacheMarkers (frame : Frame) (reader : Reader) : Frame × Reader :=
  let order := frame.order
  match Command.fromCode frame.header.command with
  | none => (frame, reader)
  | some cmd =>
      match peekU32 frame.payload 0 order with
      | none => (frame, reader)
      | some ioid =>
          match cmd with
          | .getField =>
              let rewritten := rewriteAfterStatus frame order reader.cache 4 1
              (rewritten.2.1, { reader with cache := rewritten.2.2 })
          | .get | .put | .monitor => flattenOp frame order cmd ioid reader
          | .rpc => flattenRpc frame order ioid reader
          | _ => (frame, reader)

/-! ### Rewriting a frame -/

/-- `frame'` is `frame` with another payload. -/
structure Rewritten (frame frame' : Frame) (payload : List UInt8) : Prop where
  payload_eq : frame'.payload = payload
  command_eq : frame'.header.command = frame.header.command
  flags_eq : frame'.header.flags = frame.header.flags

section

variable {frame frame' : Frame} {order : ByteOrder} {front st c left tail : List UInt8}
  {cache cache' : TypeCache} {status : Status} {d : FieldDesc}

lemma Rewritten.refl (frame : Frame) : Rewritten frame frame frame.payload := ⟨rfl, rfl, rfl⟩

lemma Rewritten.trans {frame'' payload payload'} (h : Rewritten frame frame' payload)
    (h' : Rewritten frame' frame'' payload') :
    Rewritten frame frame'' payload' :=
  ⟨h'.payload_eq, h'.command_eq.trans h.command_eq, h'.flags_eq.trans h.flags_eq⟩

lemma Rewritten.order_eq {payload} (h : Rewritten frame frame' payload) :
    frame'.order = frame.order := by
  rw [Frame.order, Frame.order, h.flags_eq]

lemma rewritten_rebuild {stop} (hfront : frame.payload = front ++ left)
    (hstop : frame.payload.drop stop = tail) (bytes : List UInt8) :
    Rewritten frame (frame.rebuild front.length stop bytes) (front ++ (bytes ++ tail)) := by
  refine ⟨?_, rfl, rfl⟩
  rw [Frame.rebuild, hstop, hfront, take_left, append_assoc]

variable {prefixLen : ℕ}

/-- What follows a status in front of `left`. -/
lemma rewriteAfterStatus_eq (cache : TypeCache) (hfrontLen : front.length = prefixLen)
    (hpayload : frame.payload = front ++ (st ++ left)) (hst : ReadsStatus order st status) :
    rewriteAfterStatus frame order cache prefixLen 1 =
      if !status.isSuccess then (none, frame, cache)
      else frame.withDescs order (prefixLen + st.length)
        (times (decodeTypeDescCached order) 1 left cache) := by
  have hlen : ¬ frame.payload.length < prefixLen := by
    rw [hpayload, length_append]
    omega
  have hstatus : statusFrom frame.payload prefixLen order = .ok (status, prefixLen + st.length) := by
    rw [hpayload]
    exact statusFrom_eq hfrontLen hst
  have hdrop : frame.payload.drop (prefixLen + st.length) = left := by
    rw [hpayload, ← append_assoc]
    exact drop_left' (by rw [length_append, hfrontLen])
  rw [rewriteAfterStatus, if_neg hlen, hstatus]
  simp only [hdrop]

lemma rewriteAfterStatus_desc (hfrontLen : front.length = prefixLen)
    (hpayload : frame.payload = front ++ (st ++ left)) (hst : ReadsStatus order st status)
    (hsuccess : status.isSuccess = true)
    (hdesc : decodeTypeDescCached order left cache = (.ok (d, tail), cache')) :
    ∃ frame', rewriteAfterStatus frame order cache prefixLen 1 = (some [d], frame', cache') ∧
      Rewritten frame frame' (front ++ (st ++ (encodeTypeDesc order d ++ tail))) := by
  obtain ⟨c, rfl, -⟩ := local_decodeTypeDescCached order _ _ _ _ _ hdesc
  have hfront : frame.payload = (front ++ st) ++ (c ++ tail) := by rw [hpayload, append_assoc]
  have hstart : prefixLen + st.length = (front ++ st).length := by rw [length_append, hfrontLen]
  have hstop : frame.payload.length - tail.length = ((front ++ st) ++ c).length := by
    rw [hfront, ← append_assoc, length_append, Nat.add_sub_cancel]
  have hslice : slice frame.payload (front ++ st).length ((front ++ st) ++ c).length = c := by
    rw [slice, hfront, ← append_assoc, take_left, drop_left]
  have hdrop : frame.payload.drop ((front ++ st) ++ c).length = tail := by
    rw [hfront, ← append_assoc, drop_left]
  have hone : times (decodeTypeDescCached order) 1 (c ++ tail) cache = (.ok ([d], tail), cache') := by
    rw [times, bind_of_ok hdesc]
    rfl
  have hframe := rewriteAfterStatus_eq cache hfrontLen hpayload hst
  simp only [hsuccess, hone, Frame.withDescs, flatMap_cons, flatMap_nil, append_nil,
    hstart, hstop, hslice, Bool.not_true, Bool.false_eq_true, if_false] at hframe
  refine ⟨_, hframe, ?_⟩
  split_ifs with hinline
  · have hrebuild := rewritten_rebuild hfront hdrop (encodeTypeDesc order d)
    rwa [append_assoc front st (encodeTypeDesc order d ++ tail)] at hrebuild
  · rw [not_not] at hinline
    rw [hinline, ← hpayload]
    exact Rewritten.refl frame

lemma rewriteAfterStatus_failure (hfrontLen : front.length = prefixLen)
    (hpayload : frame.payload = front ++ (st ++ left)) (hst : ReadsStatus order st status)
    (hfailure : status.isSuccess = false) :
    rewriteAfterStatus frame order cache prefixLen 1 = (none, frame, cache) := by
  rw [rewriteAfterStatus_eq cache hfrontLen hpayload hst, hfailure]
  rfl

lemma rewriteAfterStatus_null (hfrontLen : front.length = prefixLen)
    (hpayload : frame.payload = front ++ (st ++ tagNull :: left))
    (hst : ReadsStatus order st status) :
    rewriteAfterStatus frame order cache prefixLen 1 = (none, frame, cache) := by
  rw [rewriteAfterStatus_eq cache hfrontLen hpayload hst]
  split_ifs
  · rfl
  · rfl

lemma withValue_spec {α : Type} {p : Decoder TypeCache α} {w} {Q : α → Prop} (h : Flattens p w Q)
    {a} (hpayload : frame.payload = front ++ left) (hp : p left cache = (.ok (a, tail), cache'))
    (ha : Q a) :
    ∃ frame' new, frame.withValue front.length (flattenWith w frame.payload front.length cache) =
        (frame', cache') ∧ Rewritten frame frame' (front ++ (new ++ tail)) ∧
      Reads p new empty a empty := by
  obtain ⟨stop, out, new, hflat, hnew, ⟨-, hstop⟩, hout⟩ := flattenWith_spec h front hp ha
  rw [← hpayload] at hflat hstop
  rw [hflat]
  rcases hout with rfl | ⟨rfl, hleft⟩
  · exact ⟨_, new, rfl, rewritten_rebuild hpayload hstop new, hnew⟩
  · refine ⟨_, new, rfl, ?_, hnew⟩
    rw [← hleft, ← hpayload]
    exact Rewritten.refl frame

end

/-! ### What is self-contained -/

/-- **The answers that do not get lost**: the descriptors in them are admitted when they are sent
inline, the values are no deeper than the reader walks, and they are not the last of an RPC. -/
def OpResponse.selfContained : OpResponse → Bool
  | .init response => response.introspection.admitted
  | .data response => inlinable response.value && decide (nesting response.value ≤ maxFieldDepth) &&
      response.responseDesc.all fun d => d.admitted && !hasBit response.subcmd bitLast
  | .status _ => true

lemma walkable_of_selfContained {response} (h : (OpResponse.data response).selfContained = true) :
    Walkable (maxFieldDepth + 1) response.value := by
  simp only [OpResponse.selfContained, Bool.and_eq_true, decide_eq_true_eq] at h
  exact ⟨h.1.1, Nat.succ_le_succ h.1.2⟩

/-- The types of the operations after an answer: an answer to INIT brings one, and it is forgotten
with the last frame of a MONITOR, and the last of an RPC. -/
def capture (cmd : Command) (response : OpResponse) (introspection : Introspections) :
    Introspections :=
  if (cmd = .monitor || cmd = .rpc) && hasBit response.subcmd bitLast then
    Function.update introspection response.ioid none
  else
    match response with
    | .init response =>
        if cmd ≠ .rpc && response.status.isSuccess then
          Function.update introspection response.ioid (some response.introspection)
        else introspection
    | _ => introspection

/-- What the reader makes of a frame: the same answer without a cache, and the state that decoding
with the cache of the connection leaves. -/
def FlattensTo (frame : Frame) (reader : Reader) (cmd : Command) (ioid : UInt32) (subcmd : UInt8)
    (head : List UInt8) (response : OpResponse) (cache' : TypeCache)
    (flattened : Frame × Reader) : Prop :=
  flattened.2 = ⟨cache', capture cmd response reader.introspection⟩ ∧
    ∃ body', Rewritten frame flattened.1 (head ++ body') ∧
      Answers (framePhase frame.order cmd (reader.introspection ioid) ioid subcmd) body'
        TypeCache.empty response TypeCache.empty

/-! ### GET, PUT and MONITOR -/

section

variable {frame : Frame} {order : ByteOrder} {cmd : Command} {ioid : UInt32} {subcmd : UInt8}
  {head body x : List UInt8} {cache cache' : TypeCache} {response : OpResponse}
  {introspection : Introspections} {intro : FieldDesc} {status : Status}

lemma dataBody_cases
    (h : Answers (dataBody order cmd intro ioid subcmd status) x cache response cache') :
    ∃ bits changed y value tail, x = bits ++ y ∧ bits ≠ [] ∧
      (∀ t : TypeCache, Reads (decode order) bits t changed t) ∧
      decodePvFieldWithBitsetCached order changed intro 0 y cache = (.ok (value, tail), cache') ∧
      (∃ data, response = .data data ∧ data.value = value ∧ data.ioid = ioid ∧
        data.subcmd = subcmd) ∧
      ∀ new, Reads (decodePvFieldWithBitsetCached order changed intro 0) new empty value
          empty →
        Answers (dataBody order cmd intro ioid subcmd status) (bits ++ (new ++ tail))
          empty response empty := by
  obtain ⟨r, h⟩ := h
  obtain ⟨bits, changed, y, rfl, hbits, h₁⟩ :=
    (stateless_orDecodeError (stateless_decode order)).bind_eq_ok.1 h
  obtain ⟨value, tail, s₁, hvalue, h₂⟩ := bind_eq_ok.1 h₁
  have hoverrun : Stateless (decodeOverrun order cmd) :=
    (stateless_orDecodeError (stateless_decode order)).ite (Stateless.pure _)
  obtain ⟨ov, overrun, left, rfl, hov, h₃⟩ := hoverrun.bind_eq_ok.1 h₂
  obtain ⟨rfl, rfl, rfl⟩ := pure_eq_ok.1 h₃
  refine ⟨bits, changed, y, value, ov ++ left, rfl, ?_, fun t => reads_orDecodeError.1 (hbits t),
    mapFault_eq_ok.1 hvalue, ⟨_, rfl, rfl, rfl, rfl⟩, fun new hnew => ⟨left, ?_⟩⟩
  · rintro rfl
    cases hbits empty []
  · rw [dataBody, bind_of_ok (hbits empty _),
      bind_of_ok (reads_orDecodeError.2 hnew (ov ++ left)), bind_of_ok (hov empty left)]
    rfl

lemma flattenOpDataValue_spec (hpayload : frame.payload = head ++ body)
    (hhead : Head order ioid subcmd head)
    (h : DataCases order cmd (introspection ioid) ioid subcmd body cache response cache')
    (hself : response.selfContained = true) :
    ∃ frame' body', flattenOpDataValue frame order cache cmd subcmd ioid introspection =
        (frame', cache') ∧ Rewritten frame frame' (head ++ body') ∧
      Answers (framePhase order cmd (introspection ioid) ioid subcmd) body' empty response
        empty := by
  rcases h with ⟨hstatus, rfl⟩ | ⟨intro, st, status, x, hintro, rfl, hx, hopen, hbody⟩
  · -- there is no body, and the reader leaves the frame alone
    refine ⟨frame, body, ?_, hpayload ▸ Rewritten.refl frame, hstatus.answers _⟩
    rw [flattenOpDataValue, hpayload, hstatus.start hhead]
    split
    · rfl
    · split_ifs <;> rfl
  · obtain ⟨bits, changed, y, value, tail, rfl, hne, hbits, hvalue, ⟨data, rfl, rfl, -, -⟩, hback⟩ :=
      dataBody_cases hbody
    have hne' : ∀ z, bits ++ z ≠ [] := fun z => by simp [hne]
    have hanswer : ∀ new, Reads (decodePvFieldWithBitsetCached order changed intro 0) new
        empty data.value empty →
        Answers (framePhase order cmd (some intro) ioid subcmd) (st ++ (bits ++ (new ++ tail)))
          empty (.data data) empty := by
      intro new hnew
      rw [Answers, hopen.phase (hne' _)]
      exact hback new hnew
    rw [flattenOpDataValue, hintro]
    cases hvariant : descContainsVariant intro with
    | false =>
      -- nothing in the value can be a marker
      obtain ⟨rfl, c, rfl, hc⟩ := stateless_decodeWith order changed intro hvariant 0 _ _ _ _ _
        hvalue
      exact ⟨frame, _, by simp [hvariant], hpayload ▸ Rewritten.refl frame, hanswer c (hc _)⟩
    | true =>
      have hfront : frame.payload = (head ++ st ++ bits) ++ y := by
        rw [hpayload]
        simp only [append_assoc]
      have hstart : frame.payload.drop (5 + st.length) = bits ++ y := by
        rw [hfront, append_assoc (head ++ st)]
        exact drop_left' (by rw [length_append, hhead.length])
      have hpos : frame.payload.length - y.length = (head ++ st ++ bits).length := by
        rw [hfront, length_append, Nat.add_sub_cancel]
      have hopenStart := hopen.start hhead (hne' y)
      rw [← hpayload] at hopenStart
      obtain ⟨frame', new, hframe, hrewritten, hnew⟩ := withValue_spec
        (flattens_walkValueBitset order changed intro (maxFieldDepth + 1) 0) hfront hvalue
        (walkable_of_selfContained hself)
      refine ⟨frame', st ++ (bits ++ (new ++ tail)), ?_, ?_, hanswer new hnew⟩
      · simp only [hvariant, hopenStart, hstart, hbits cache y, hpos, Bool.not_true,
          Bool.false_eq_true, if_false]
        exact hframe
      · simpa only [append_assoc] using hrewritten

lemma DataCases.capture_eq {o} (h : DataCases order cmd o ioid subcmd body cache response cache')
    (introspection : Introspections) :
    capture cmd response introspection =
      if (cmd = .monitor || cmd = .rpc) && hasBit subcmd bitLast then
        Function.update introspection ioid none
      else introspection := by
  rcases h with ⟨⟨⟨status, rfl⟩, -, -⟩, -⟩ | ⟨intro, st, status, x, -, -, -, -, hbody⟩
  · rfl
  · obtain ⟨bits, changed, y, value, tail, -, -, -, -, ⟨data, rfl, -, rfl, rfl⟩, -⟩ :=
      dataBody_cases hbody
    rfl

end

section

variable {frame : Frame} {reader : Reader} {cmd : Command} {ioid : UInt32} {subcmd : UInt8}
  {head body : List UInt8} {cache' : TypeCache} {response : OpResponse}

theorem flattenOp_spec (hcmd : cmd = .get ∨ cmd = .put ∨ cmd = .monitor)
    (hpayload : frame.payload = head ++ body) (hhead : Head frame.order ioid subcmd head)
    (h : Answers (framePhase frame.order cmd (reader.introspection ioid) ioid subcmd) body
      reader.cache response cache') (hself : response.selfContained = true) :
    FlattensTo frame reader cmd ioid subcmd head response cache'
      (flattenOp frame frame.order cmd ioid reader) := by
  have hrpc : cmd ≠ .rpc := by rcases hcmd with rfl | rfl | rfl <;> decide
  have hpeek : peekU8 frame.payload 4 = some subcmd := by
    rw [peekU8, hpayload]
    exact hhead.getElem? body
  rw [flattenOp, hpeek]
  have hends : ((cmd = .monitor || cmd = .rpc) && hasBit subcmd bitLast) =
      (cmd = .monitor && hasBit subcmd bitLast) := by simp [hrpc]
  cases hinit : (!(cmd = .monitor && hasBit subcmd bitLast) && hasBit subcmd bitInit) with
  | true =>
    -- an answer to INIT
    rw [Bool.and_eq_true, Bool.not_eq_true'] at hinit
    obtain ⟨hlast, hinit⟩ := hinit
    have hphase : framePhase frame.order cmd (reader.introspection ioid) ioid subcmd =
        initPhase frame.order cmd ioid subcmd := by
      rw [framePhase, hlast, opPhase, hinit]
      rfl
    rw [hphase] at h
    rw [FlattensTo, hphase]
    simp only [hlast, hinit, Bool.false_eq_true, if_false, if_true]
    obtain ⟨st, status, left, rfl, hst, ⟨hfailure, rfl, rfl⟩ | ⟨d, tail, hsuccess, rfl, hd⟩⟩ :=
      initPhase_cases h
    · rw [rewriteAfterStatus_failure hhead.length hpayload hst hfailure]
      refine ⟨?_, st ++ left, hpayload ▸ Rewritten.refl frame, initPhase_failure hst hfailure _⟩
      simp [capture, OpResponse.subcmd, hends, hlast, hfailure]
    · rw [decodeIntro, if_neg hrpc] at hd
      obtain ⟨frame', hframe, hrewritten⟩ := rewriteAfterStatus_desc hhead.length hpayload hst
        hsuccess (mapFault_eq_ok.1 hd)
      have hinline : decodeIntro frame.order cmd (encodeTypeDesc frame.order d ++ tail)
          empty = (.ok (d, tail), empty) := by
        rw [decodeIntro, if_neg hrpc]
        exact mapFault_eq_ok.2 (reads_decodeTypeDescCached hself tail)
      rw [hframe]
      refine ⟨?_, _, hrewritten, initPhase_success hst hsuccess hinline⟩
      simp [capture, OpResponse.subcmd, hlast, hrpc, hsuccess]
  | false =>
    have hdata : hasBit subcmd bitInit = false ∨ cmd = .monitor ∧ hasBit subcmd bitLast = true := by
      cases hbit : hasBit subcmd bitInit with
      | false => exact Or.inl rfl
      | true =>
        rw [hbit, Bool.and_true, Bool.not_eq_false', Bool.and_eq_true, decide_eq_true_eq] at hinit
        exact Or.inr hinit
    have hcases := framePhase_data_cases hcmd hdata h
    obtain ⟨frame', body', hframe, hrewritten, hanswers⟩ := flattenOpDataValue_spec hpayload hhead
      hcases hself
    have hcapture := hcases.capture_eq reader.introspection
    rw [hends] at hcapture
    simp only [hframe]
    cases hlast : (cmd = .monitor && hasBit subcmd bitLast) with
    | true =>
      rw [hlast] at hcapture
      exact ⟨by rw [hcapture]; rfl, body', hrewritten, hanswers⟩
    | false =>
      rw [hlast] at hcapture hinit
      rw [Bool.not_false, Bool.true_and] at hinit
      simp only [hinit]
      exact ⟨by rw [hcapture]; rfl, body', hrewritten, hanswers⟩

lemma flattenRpcDataValue_spec {st left i₁ tail status d value} {s₁ : TypeCache} {order} {cache : TypeCache}
    (hhead : head.length = 5) (hpayload : frame.payload = head ++ (st ++ left))
    (hst : ReadsStatus order st status) (hsuccess : status.isSuccess = true)
    (hadm : d.admitted = true) (hdesc : decodeTypeDescCached order left cache = (.ok (d, i₁), s₁))
    (hvalue : decodePvFieldCached order d i₁ s₁ = (.ok (value, tail), cache'))
    (hwalk : Walkable (maxFieldDepth + 1) value) :
    ∃ frame' new, flattenRpcDataValue frame order cache = (frame', cache') ∧
      Rewritten frame frame' (head ++ (st ++ (encodeTypeDesc order d ++ (new ++ tail)))) ∧
      Reads (decodePvFieldCached order d) new empty value empty := by
  obtain ⟨frame₁, hframe₁, hrewritten₁⟩ := rewriteAfterStatus_desc hhead hpayload hst hsuccess hdesc
  rw [flattenRpcDataValue, hframe₁]
  cases hvariant : descContainsVariant d with
  | false =>
    obtain ⟨rfl, c, rfl, hc⟩ := stateless_decodePvFieldAtDepth order _ d hvariant _ _ _ _ _ hvalue
    exact ⟨frame₁, c, by simp [hvariant], hrewritten₁, hc _⟩
  | true =>
    -- the value is found again behind the descriptor that was put inline
    have hfront : frame₁.payload = (head ++ st ++ encodeTypeDesc order d) ++ i₁ := by
      rw [hrewritten₁.payload_eq]
      simp only [append_assoc]
    have hagain : (Status.decode order >>= fun _ => decodeTypeDesc order :
        Decoder TypeCache FieldDesc) (frame₁.payload.drop 5) s₁ = (.ok (d, i₁), s₁) := by
      rw [hrewritten₁.payload_eq, drop_left' hhead, bind_of_ok (hst s₁ _)]
      exact zoom_eq_ok (reads_decodeTypeDescCached hadm i₁)
    have hpos : frame₁.payload.length - i₁.length =
        (head ++ st ++ encodeTypeDesc order d).length := by
      rw [hfront, length_append, Nat.add_sub_cancel]
    obtain ⟨frame', new, hframe, hrewritten, hnew⟩ := withValue_spec
      (flattens_walkValuePresent order _ (maxFieldDepth + 1) d) hfront hvalue hwalk
    refine ⟨frame', new, ?_, ?_, hnew⟩
    · simp only [hvariant, hagain, hpos, Bool.not_true, Bool.false_eq_true, if_false]
      exact hframe
    · have htrans := hrewritten₁.trans hrewritten
      simpa only [append_assoc] using htrans

lemma capture_rpc (response : OpResponse) (introspection : Introspections) :
    capture .rpc response introspection =
      if hasBit response.subcmd bitLast then Function.update introspection response.ioid none
      else introspection := by
  cases response <;> simp [capture]

theorem flattenRpc_spec (hpayload : frame.payload = head ++ body)
    (hhead : Head frame.order ioid subcmd head)
    (h : Answers (framePhase frame.order .rpc (reader.introspection ioid) ioid subcmd) body
      reader.cache response cache') (hself : response.selfContained = true) :
    FlattensTo frame reader .rpc ioid subcmd head response cache'
      (flattenRpc frame frame.order ioid reader) := by
  have hpeek : peekU8 frame.payload 4 = some subcmd := by
    rw [peekU8, hpayload]
    exact hhead.getElem? body
  -- most frames are handed on as they are
  have hkeep : ∀ {response}, response.ioid = ioid → response.subcmd = subcmd →
      Answers (framePhase frame.order .rpc (reader.introspection ioid) ioid subcmd) body
        empty response empty →
      (hasBit subcmd bitLast = false → hasBit subcmd bitInit = false →
        flattenRpcDataValue frame frame.order reader.cache = (frame, reader.cache)) →
      FlattensTo frame reader .rpc ioid subcmd head response reader.cache
        (flattenRpc frame frame.order ioid reader) := by
    intro response hioid hsubcmd hanswers hsame
    rw [FlattensTo, capture_rpc, hioid, hsubcmd, flattenRpc, hpeek]
    have hrefl : Rewritten frame frame (head ++ body) := hpayload ▸ Rewritten.refl frame
    cases hlast : hasBit subcmd bitLast with
    | true => exact ⟨by simp [hlast], body, by simpa [hlast] using hrefl, hanswers⟩
    | false =>
      cases hinit : hasBit subcmd bitInit with
      | true => exact ⟨by simp [hlast, hinit], body, by simpa [hlast, hinit] using hrefl, hanswers⟩
      | false =>
        simp only [hlast, hinit, hsame hlast hinit, Bool.false_eq_true, if_false]
        exact ⟨trivial, body, hrefl, hanswers⟩
  cases hinit : hasBit subcmd bitInit with
  | true =>
    -- an answer to INIT has no type
    have hphase : framePhase frame.order .rpc (reader.introspection ioid) ioid subcmd =
        initPhase frame.order .rpc ioid subcmd := by
      simp [framePhase, opPhase, hinit]
    rw [hphase] at h hkeep
    obtain ⟨st, status, left, rfl, hst, ⟨hfailure, rfl, rfl⟩ | ⟨d, tail, hsuccess, rfl, hd⟩⟩ :=
      initPhase_cases h
    · exact hkeep rfl rfl (initPhase_failure hst hfailure _) fun _ h => by simp [hinit] at h
    · obtain ⟨rfl, rfl, rfl⟩ := pure_eq_ok.1 hd
      exact hkeep rfl rfl (initPhase_success hst hsuccess rfl) fun _ h => by simp [hinit] at h
  | false =>
    have hphase : framePhase frame.order .rpc (reader.introspection ioid) ioid subcmd =
        rpcPhase frame.order ioid subcmd := by
      simp [framePhase, opPhase, hinit]
    rw [hphase] at h hkeep
    obtain ⟨st, status, left, rfl, hst,
      ⟨hfailure, rfl, rfl⟩ | ⟨o, value, i₁, s₁, tail, hsuccess, rfl, ho, hvalue⟩⟩ :=
      rpcPhase_cases h
    · refine hkeep rfl rfl (rpcPhase_failure hst hfailure _) fun _ _ => ?_
      rw [flattenRpcDataValue, rewriteAfterStatus_failure hhead.length hpayload hst hfailure]
    · rcases decodeTypeDescCachedOpt_eq_ok ho with ⟨rfl, rfl, rfl⟩ | ⟨b, t, d, -, -, rfl, hdesc⟩
      · obtain ⟨rfl, rfl, rfl⟩ := pure_eq_ok.1 hvalue
        refine hkeep rfl rfl (rpcPhase_success hst hsuccess rfl rfl) fun _ _ => ?_
        rw [flattenRpcDataValue, rewriteAfterStatus_null hhead.length hpayload hst]
      · have hwalk := walkable_of_selfContained hself
        simp only [OpResponse.selfContained, Option.all_some, Bool.and_eq_true,
          Bool.not_eq_true'] at hself
        obtain ⟨-, hadm, hlast⟩ := hself
        obtain ⟨frame', new, hframe, hrewritten, hnew⟩ := flattenRpcDataValue_spec hhead.length
          hpayload hst hsuccess hadm hdesc (mapFault_eq_ok.1 hvalue) hwalk
        have hinline : decodeTypeDescCachedOpt frame.order
            (encodeTypeDesc frame.order d ++ (new ++ tail)) empty =
            (.ok (some d, new ++ tail), empty) := reads_decodeTypeDescCachedOpt hadm _
        have hnew' : decodeRespValue frame.order (some d) (new ++ tail) empty =
            (.ok (value, tail), empty) := mapFault_eq_ok.2 (hnew tail)
        rw [FlattensTo, hphase, capture_rpc, flattenRpc, hpeek]
        simp only [OpResponse.subcmd, hlast, hinit, hframe, Bool.false_eq_true, if_false]
        exact ⟨trivial, _, hrewritten, rpcPhase_success hst hsuccess hinline hnew'⟩

end

/-! ### Two runs over the frames of a connection -/

/-- What a client is told by a frame. -/
inductive Response where
  | op (response : OpResponse)
  | field (response : GetFieldResponse)

/-- **The answers that do not get lost.** -/
def Response.selfContained : Response → Bool
  | .op response => response.selfContained
  | .field response => response.introspection.all FieldDesc.admitted

def Frame.isGetField (frame : Frame) : Bool := frame.header.command = Command.getField.code

/-- **Decoding with the cache of the connection**: `decode_op_response_cached`, and what it would be
for GET_FIELD. -/
def decodeCached (frame : Frame) (introspection : Option FieldDesc) (cache : TypeCache) :
    Except PvaError Response × TypeCache :=
  if frame.isGetField then
    match getFieldPhase frame.order (decodeTypeDescCached frame.order) frame.payload cache with
    | (.ok (response, _), cache) => (.ok (.field response), cache)
    | (.error e, cache) => (.error e, cache)
  else
    match decodeOpResponseCached frame introspection cache with
    | (.ok response, cache) => (.ok (.op response), cache)
    | (.error e, cache) => (.error e, cache)

/-- **Decoding with an empty cache**: `decode_op_response` and `decode_get_field_response`. -/
def decodeFresh (frame : Frame) (introspection : Option FieldDesc) : Except PvaError Response :=
  if frame.isGetField then
    match decodeGetFieldResponse frame with
    | .ok response => .ok (.field response)
    | .error e => .error e
  else
    match decodeOpResponse frame introspection with
    | .ok response => .ok (.op response)
    | .error e => .error e

/-- The type that was captured for the operation of a frame. -/
def capturedFor (introspection : Introspections) (frame : Frame) : Option FieldDesc :=
  (peekU32 frame.payload 0 frame.order).bind introspection

/-- The types of the operations after the answer in a frame. -/
def captureFrom (introspection : Introspections) (frame : Frame) (response : Response) :
    Introspections :=
  match Command.fromCode frame.header.command, response with
  | some cmd, .op response => capture cmd response introspection
  | _, _ => introspection

/-- Every frame is decoded with the one cache of the connection. -/
def runCached : Reader → List Frame → Except PvaError (List Response)
  | _, [] => .ok []
  | reader, frame :: frames =>
      match decodeCached frame (capturedFor reader.introspection frame) reader.cache with
      | (.error e, _) => .error e
      | (.ok response, cache) =>
          (runCached ⟨cache, captureFrom reader.introspection frame response⟩ frames).map
            (response :: ·)

def flattenFrames : Reader → List Frame → List Frame
  | _, [] => []
  | reader, frame :: frames =>
      (flattenTypeCacheMarkers frame reader).1 ::
        flattenFrames (flattenTypeCacheMarkers frame reader).2 frames

/-- Every frame is decoded with an empty cache. -/
def runFresh : Introspections → List Frame → Except PvaError (List Response)
  | _, [] => .ok []
  | introspection, frame :: frames =>
      match decodeFresh frame (capturedFor introspection frame) with
      | .error e => .error e
      | .ok response =>
          (runFresh (captureFrom introspection frame response) frames).map (response :: ·)

section

variable {frame frame' : Frame} {reader : Reader} {cache cache' : TypeCache}

lemma captureFrom_field (introspection : Introspections) (frame : Frame)
    (response : GetFieldResponse) :
    captureFrom introspection frame (.field response) = introspection := by
  unfold captureFrom
  cases Command.fromCode frame.header.command <;> rfl

lemma decodeOpResponseCached_eq_ok {introspection response} :
    decodeOpResponseCached frame introspection cache = (.ok response, cache') ↔
      ∃ cmd, Command.fromCode frame.header.command = some cmd ∧ cmd.isOp = true ∧
        Answers (decodeOp frame.payload frame.order cmd introspection) frame.payload cache response
          cache' := by
  rw [decodeOpResponseCached]
  cases hcode : Command.fromCode frame.header.command with
  | none => simp
  | some cmd =>
    cases hop : cmd.isOp with
    | false => simp [hop]
    | true =>
      simp only [if_true, Option.some.injEq, exists_eq_left', hop, true_and, Answers]
      rcases decodeOp frame.payload frame.order cmd introspection frame.payload cache with
        ⟨e | ⟨response', r⟩, s⟩
      · simp
      · simp

lemma peekU32_append {order word} (h : word.length = 4) (body : List UInt8) :
    peekU32 (word ++ body) 0 order = some (UInt32.ofNat (order.ofBytes word)) := by
  have hlen : 0 + 4 ≤ (word ++ body).length := by
    rw [length_append]
    omega
  rw [peekU32, if_pos hlen, slice, Nat.zero_add, take_left' h, drop_zero]

lemma Head.peekU32_eq {order ioid subcmd head} (h : Head order ioid subcmd head)
    (body : List UInt8) :
    peekU32 (head ++ body) 0 order = some ioid := by
  obtain ⟨word, rfl, hlen, rfl⟩ := h.exists_word
  rw [append_assoc, peekU32_append hlen]

lemma flatten_op {response}
    (h : decodeOpResponseCached frame (capturedFor reader.introspection frame) reader.cache =
      (.ok response, cache')) (hself : response.selfContained = true) :
    ∃ frame', flattenTypeCacheMarkers frame reader =
        (frame', ⟨cache', captureFrom reader.introspection frame (.op response)⟩) ∧
      frame'.header.command = frame.header.command ∧
      capturedFor reader.introspection frame' = capturedFor reader.introspection frame ∧
      decodeOpResponse frame' (capturedFor reader.introspection frame) = .ok response := by
  obtain ⟨cmd, hcode, hop, hanswers⟩ := decodeOpResponseCached_eq_ok.1 h
  obtain ⟨ioid, subcmd, head, body, hpayload, hhead⟩ := exists_head hanswers
  have hpeek : ∀ body, peekU32 (head ++ body) 0 frame.order = some ioid := hhead.peekU32_eq
  have hcaptured : capturedFor reader.introspection frame = reader.introspection ioid := by
    rw [capturedFor, hpayload, hpeek]
    rfl
  rw [hcaptured, hpayload, decodeOp_answers hhead] at hanswers
  -- each command by the specification of its arm
  have hflat : FlattensTo frame reader cmd ioid subcmd head response cache'
      (flattenTypeCacheMarkers frame reader) := by
    rw [flattenTypeCacheMarkers, hcode]
    simp only [hpayload, hpeek]
    cases cmd with
    | get => exact flattenOp_spec (Or.inl rfl) hpayload hhead hanswers hself
    | put => exact flattenOp_spec (Or.inr (Or.inl rfl)) hpayload hhead hanswers hself
    | monitor => exact flattenOp_spec (Or.inr (Or.inr rfl)) hpayload hhead hanswers hself
    | rpc => exact flattenRpc_spec hpayload hhead hanswers hself
    | _ => cases hop
  obtain ⟨hreader, body', hrewritten, hfresh⟩ := hflat
  -- the rewritten frame still begins with the id of its operation
  have hcaptured' : capturedFor reader.introspection (flattenTypeCacheMarkers frame reader).1 =
      capturedFor reader.introspection frame := by
    rw [hcaptured, capturedFor, hrewritten.payload_eq, hrewritten.order_eq, hpeek]
    rfl
  refine ⟨_, Prod.ext rfl ?_, hrewritten.command_eq, hcaptured', ?_⟩
  · rw [hreader]
    simp only [captureFrom, hcode]
  · have hcached : decodeOpResponseCached (flattenTypeCacheMarkers frame reader).1
        (reader.introspection ioid) empty = (.ok response, empty) := by
      rw [decodeOpResponseCached_eq_ok, hrewritten.command_eq, hrewritten.payload_eq,
        hrewritten.order_eq]
      exact ⟨cmd, hcode, hop, (decodeOp_answers hhead).2 hfresh⟩
    rw [decodeOpResponse, hcaptured, hcached]

lemma decodeGetFieldResponse_eq_ok {response} (cache' : TypeCache)
    (hfield : frame.isGetField = true)
    (h : Answers (getFieldPhase frame.order (decodeTypeDesc frame.order)) frame.payload
      empty response cache') : decodeGetFieldResponse frame = .ok response := by
  obtain ⟨r, h⟩ := h
  rw [decodeGetFieldResponse, if_neg (by simpa [Frame.isGetField] using hfield), h]

lemma flatten_getField {response} (hfield : frame.isGetField = true)
    (h : Answers (getFieldPhase frame.order (decodeTypeDescCached frame.order)) frame.payload
      reader.cache response cache') (hself : response.introspection.all FieldDesc.admitted = true) :
    ∃ frame', flattenTypeCacheMarkers frame reader = (frame', ⟨cache', reader.introspection⟩) ∧
      frame'.header.command = frame.header.command ∧
      capturedFor reader.introspection frame' = capturedFor reader.introspection frame ∧
      decodeGetFieldResponse frame' = .ok response := by
  have hcode : Command.fromCode frame.header.command = some .getField := by
    have hcmd : frame.header.command = Command.getField.code := by
      simpa [Frame.isGetField] using hfield
    rw [hcmd, Command.fromCode_code]
  obtain ⟨word, st, status, left, hpayload, hlen, hst, hcases⟩ := getFieldPhase_answers.1 h
  have hflat : flattenTypeCacheMarkers frame reader =
      ((rewriteAfterStatus frame frame.order reader.cache 4 1).2.1,
        ⟨(rewriteAfterStatus frame frame.order reader.cache 4 1).2.2, reader.introspection⟩) := by
    rw [flattenTypeCacheMarkers, hcode]
    simp only [hpayload, peekU32_append hlen]
  rcases hcases with ⟨hfailure, rfl, rfl⟩ | ⟨d, tail, hsuccess, hd, rfl⟩
  · -- a failure carries no descriptor, and the frame is handed on as it is
    refine ⟨frame, ?_, rfl, rfl, decodeGetFieldResponse_eq_ok empty hfield ?_⟩
    · rw [hflat, rewriteAfterStatus_failure hlen hpayload hst hfailure]
    · exact getFieldPhase_answers.2 ⟨word, st, status, left, hpayload, hlen, hst,
        Or.inl ⟨hfailure, rfl, rfl⟩⟩
  · -- a success: the descriptor is written inline behind the status
    obtain ⟨frame', hframe, hrewritten⟩ := rewriteAfterStatus_desc hlen hpayload hst hsuccess hd
    refine ⟨frame', by rw [hflat, hframe], hrewritten.command_eq, ?_,
      decodeGetFieldResponse_eq_ok empty ?_ ?_⟩
    · rw [capturedFor, capturedFor, hrewritten.payload_eq, hrewritten.order_eq, hpayload,
        peekU32_append hlen, peekU32_append hlen]
    · rw [Frame.isGetField, hrewritten.command_eq]
      exact hfield
    · rw [hrewritten.payload_eq, hrewritten.order_eq, getFieldPhase_answers]
      exact ⟨word, st, status, _, rfl, hlen, hst, Or.inr ⟨d, tail, hsuccess,
        zoom_eq_ok (reads_decodeTypeDescCached hself tail), rfl⟩⟩

/-- **One frame**: the reader is left in the state that decoding with the cache of the connection
leaves, and what it hands on is decoded to the same answer without a cache. -/
theorem flatten_step {response}
    (h : decodeCached frame (capturedFor reader.introspection frame) reader.cache =
      (.ok response, cache')) (hself : response.selfContained = true) :
    ∃ frame', flattenTypeCacheMarkers frame reader =
        (frame', ⟨cache', captureFrom reader.introspection frame response⟩) ∧
      decodeFresh frame' (capturedFor reader.introspection frame') = .ok response ∧
      captureFrom reader.introspection frame' response =
        captureFrom reader.introspection frame response := by
  rw [decodeCached] at h
  split_ifs at h with hfield
  · match hrun : getFieldPhase frame.order (decodeTypeDescCached frame.order) frame.payload
        reader.cache with
    | (.error e, s) => simp [hrun] at h
    | (.ok (field, r), s) =>
      rw [hrun, Prod.mk.injEq, Except.ok.injEq] at h
      obtain ⟨rfl, rfl⟩ := h
      obtain ⟨frame', hflat, hcmd, hcaptured, hfresh⟩ := flatten_getField hfield ⟨r, hrun⟩ hself
      have hfield' : frame'.isGetField = true := by
        rw [Frame.isGetField, hcmd]
        exact hfield
      refine ⟨frame', ?_, ?_, ?_⟩
      · rw [hflat, captureFrom_field]
      · rw [decodeFresh, if_pos hfield', hfresh]
      · rw [captureFrom_field, captureFrom_field]
  · match hrun : decodeOpResponseCached frame (capturedFor reader.introspection frame)
        reader.cache with
    | (.error e, s) => simp [hrun] at h
    | (.ok op, s) =>
      rw [hrun, Prod.mk.injEq, Except.ok.injEq] at h
      obtain ⟨rfl, rfl⟩ := h
      obtain ⟨frame', hflat, hcmd, hcaptured, hfresh⟩ := flatten_op hrun hself
      have hfield' : ¬ frame'.isGetField = true := by
        rw [Frame.isGetField, hcmd]
        exact hfield
      refine ⟨frame', hflat, ?_, ?_⟩
      · rw [decodeFresh, if_neg hfield', hcaptured, hfresh]
      · unfold captureFrom
        rw [hcmd]

end

lemma runFresh_flattenFrames (frames : List Frame) : ∀ (reader : Reader) {responses},
    runCached reader frames = .ok responses → (∀ r ∈ responses, r.selfContained = true) →
      runFresh reader.introspection (flattenFrames reader frames) = .ok responses := by
  induction frames with
  | nil =>
    intro reader responses h _
    exact h
  | cons frame frames ih =>
    intro reader responses h hself
    rw [runCached] at h
    match hrun : decodeCached frame (capturedFor reader.introspection frame) reader.cache with
    | (.error e, s) => simp [hrun] at h
    | (.ok response, cache') =>
      simp only [hrun] at h
      match hrest : runCached ⟨cache', captureFrom reader.introspection frame response⟩
          frames with
      | .error e =>
        rw [hrest] at h
        cases h
      | .ok rest =>
        rw [hrest] at h
        obtain rfl : response :: rest = responses := Except.ok.inj h
        obtain ⟨hhead, htail⟩ := forall_mem_cons.1 hself
        -- one step, and the rest of the run starts from the state it leaves
        obtain ⟨frame', hflat, hfresh, hcapture⟩ := flatten_step hrun hhead
        have hih := ih ⟨cache', captureFrom reader.introspection frame response⟩ hrest htail
        rw [flattenFrames, hflat, runFresh, hfresh]
        simp only [hcapture, hih]
        rfl

/-- **Flattening refines the cache of the connection**: from its start on, as long as the answers are
self-contained. -/
theorem flattened_run {frames : List Frame} {responses : List Response}
    (h : runCached Reader.new frames = .ok responses)
    (hself : ∀ r ∈ responses, r.selfContained = true) :
    runFresh (fun _ => none) (flattenFrames Reader.new frames) = .ok responses :=
  runFresh_flattenFrames frames Reader.new h hself

/-! ### The last request of an RPC -/

def rpcAnswer (subcmd : UInt8) (body : List UInt8) : Frame :=
  let payload := [0x01, 0x00, 0x00, 0x00, subcmd, 0xFF] ++ body
  ⟨PvaHeader.application true .little Command.rpc.code (UInt32.ofNat payload.length), payload⟩

/-- A structure with one member, `v`, of the type `int`. -/
def countDesc : FieldDesc := .struct "" [("v", .scalar .int)]

def definingAnswer (subcmd : UInt8) : Frame :=
  rpcAnswer subcmd [0xFD, 0x01, 0x00, 0x80, 0x00, 0x01, 0x01, 0x76, 0x22, 0x07, 0x00, 0x00, 0x00]

def referringAnswer (subcmd : UInt8) : Frame :=
  rpcAnswer subcmd [0xFE, 0x01, 0x00, 0x08, 0x00, 0x00, 0x00]

def countResponse (subcmd : UInt8) (n : Int32) : Response :=
  .op (.data ⟨1, subcmd, .okNoMsg, BitSet.new.set 0, .struct ⟨"", [("v", .scalar ⟨.int, n⟩)]⟩,
    BitSet.new, some countDesc⟩)

/-- A definition and a reference, in answers that are not the last. -/
theorem flattened_run_pair :
    runCached Reader.new [definingAnswer 0x00, referringAnswer 0x00] =
        .ok [countResponse 0x00 7, countResponse 0x00 8] ∧
      (∀ r ∈ [countResponse 0x00 7, countResponse 0x00 8], r.selfContained = true) ∧
      runFresh (fun _ => none)
          (flattenFrames Reader.new [definingAnswer 0x00, referringAnswer 0x00]) =
        .ok [countResponse 0x00 7, countResponse 0x00 8] := by
  have hrun : runCached Reader.new [definingAnswer 0x00, referringAnswer 0x00] =
      .ok [countResponse 0x00 7, countResponse 0x00 8] := rfl
  have hself : ∀ r ∈ [countResponse 0x00 7, countResponse 0x00 8], r.selfContained = true := by
    decide
  exact ⟨hrun, hself, flattened_run hrun hself⟩

/-- **The answer to the last request of an RPC is handed on as it is**: with the cache of the
connection it is decoded, and what the reader hands on refers to a slot that nobody defined. -/
theorem flattened_run_loses_reference :
    runCached Reader.new [definingAnswer 0x00, referringAnswer 0x10] =
        .ok [countResponse 0x00 7, countResponse 0x10 8] ∧
      runFresh (fun _ => none)
          (flattenFrames Reader.new [definingAnswer 0x00, referringAnswer 0x10]) =
        .error (.decode (.cacheMiss 1)) :=
  ⟨rfl, rfl⟩

end Pva
