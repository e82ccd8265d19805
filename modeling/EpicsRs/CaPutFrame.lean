/-
**Client put frames.**

`build_put_frame` frames the value of a put: the body is filled up to a multiple of eight bytes, and the header
has the form that the size and the count ask for.  A single string is cut after its first NUL.  A string
without one, shorter than an element, is to be framed with a NUL behind it; the NUL comes from the filling, so
it is missing when there is nothing to fill.

Main result: `Ca.build_put_frame_framed_iff`.
-/

import EpicsRs.CaHeader

set_option autoImplicit false

namespace Ca

open List

/-! ### Bodies -/

def dbrString : UInt16 := 0

def maxStringSize : ℕ := 40

/-- `align8`, with a `usize` of 64 bits. -/
def align8 (size : ℕ) : ℕ := min (size + 7) (2 ^ 64 - 1) / 8 * 8

/-- `Vec::resize` with zeros. -/
def resize (body : List UInt8) (size : ℕ) : List UInt8 :=
  body.take size ++ List.replicate (size - body.length) 0

def scalarStringPutLen (payload : List UInt8) : Except CaError ℕ :=
  match (payload.take maxStringSize).findIdx? (· == 0) with
  | some nul => .ok (nul + 1)
  | none => if payload.length < maxStringSize then .ok (payload.length + 1) else .error .badCount

/-- The body before it is filled up: a single string is truncated. -/
def putBody (dataType : UInt16) (count : UInt32) (payload : List UInt8) : Except CaError (List UInt8) :=
  if count = 1 ∧ dataType = dbrString then do
    let len ← scalarStringPutLen payload
    pure (payload.take len)
  else pure payload

def putHeader (cmd : UInt16) (sid : UInt32) (dataType : UInt16) (ioid : Option UInt32) : CaHeader :=
  match ioid with
  | some ioid => { CaHeader.new cmd with dataType := dataType, cid := sid, available := ioid }
  | none => { CaHeader.new cmd with dataType := dataType, cid := sid }

def buildPutFrame (cmd : UInt16) (sid : UInt32) (dataType : UInt16) (count : UInt32)
    (ioid : Option UInt32) (payload : List UInt8) (peerMinor : UInt16) : Except CaError (List UInt8) := do
  let body ← putBody dataType count payload
  let body := resize body (align8 body.length)
  let hdr ← ((putHeader cmd sid dataType ioid).setPayloadSize body.length count peerMinor).mapError
    fun _ => CaError.badCount
  pure (hdr.toBytesExtended ++ body)

/-! ### What is asked of a frame -/

/-- A single string on the wire: the bytes before its first NUL, a NUL, and zeros up to the next multiple of
eight. -/
def StringBody (payload body : List UInt8) : Prop :=
  (∃ k, body = payload.takeWhile (· ≠ 0) ++ List.replicate (k + 1) 0) ∧
    IsLeast {n | 8 ∣ n ∧ (payload.takeWhile (· ≠ 0)).length + 1 ≤ n} body.length

/-- What the receiver finds: the header with what was given, and as many bytes behind it as it says, with the
payload and zeros in them. -/
def FramesPut (cmd : UInt16) (sid : UInt32) (dataType : UInt16) (count : UInt32) (ioid : Option UInt32)
    (payload : List UInt8) (peerMinor : UInt16) (frame : List UInt8) : Prop :=
  ∃ hdr n, CaHeader.fromBytesForPeer frame peerMinor = .ok (hdr, n) ∧ n ≤ frame.length ∧
    hdr.cmmd = cmd ∧ hdr.dataType = dataType ∧ hdr.actualCount = count ∧ hdr.cid = sid ∧
    hdr.available = ioid.getD 0 ∧ hdr.actualPostsize = (frame.drop n).length ∧ 8 ∣ (frame.drop n).length ∧
    if count = 1 ∧ dataType = dbrString then StringBody payload (frame.drop n)
    else ∃ k < 8, frame.drop n = payload ++ List.replicate k 0

/-- What cannot be framed: a string that is longer than an element, or what needs the extended header for a
peer that does not know it. -/
def RefusesPut (dataType : UInt16) (count : UInt32) (payload : List UInt8) (peerMinor : UInt16) : Prop :=
  (count = 1 ∧ dataType = dbrString) ∧ (∀ b ∈ payload.take 40, b ≠ 0) ∧ 40 ≤ payload.length ∨
    (0xFFFF ≤ count ∨ ¬ (count = 1 ∧ dataType = dbrString) ∧ 0xFFFF ≤ (payload.length + 7) / 8 * 8) ∧
      peerMinor < 9

/-- A single string without NUL, shorter than an element, that has nothing to fill. -/
def Unfilled (dataType : UInt16) (count : UInt32) (payload : List UInt8) : Prop :=
  (count = 1 ∧ dataType = dbrString) ∧ (∀ b ∈ payload, b ≠ 0) ∧ payload.length < 40 ∧ 8 ∣ payload.length

/-! ### Filling -/

lemma align8_eq {size} (h : size < 2 ^ 32) : align8 size = (size + 7) / 8 * 8 := by
  unfold align8
  rw [Nat.min_eq_left (by omega)]

lemma isLeast_align8 {size} (h : size < 2 ^ 32) : IsLeast {n | 8 ∣ n ∧ size ≤ n} (align8 size) := by
  rw [align8_eq h]
  refine ⟨⟨⟨(size + 7) / 8, by omega⟩, by omega⟩, ?_⟩
  rintro n ⟨⟨k, rfl⟩, hle⟩
  omega

variable {body : List UInt8}

lemma resize_align8 (h : body.length < 2 ^ 32) :
    ∃ k < 8, resize body (align8 body.length) = body ++ replicate k 0 ∧
      body.length + k = align8 body.length := by
  have hle := (isLeast_align8 h).1.2
  have heq := align8_eq h
  refine ⟨align8 body.length - body.length, by omega, ?_, by omega⟩
  unfold resize
  rw [take_of_length_le hle]

/-! ### Strings -/

variable {payload : List UInt8}

lemma take_findIdx {n nul} (h : (payload.take n).findIdx? (· == 0) = some nul) :
    payload.take (nul + 1) = payload.takeWhile (· ≠ 0) ++ [0] ∧ nul < n := by
  induction payload generalizing n nul with
  | nil => simp at h
  | cons b payload ih =>
    cases n with
    | zero => simp at h
    | succ n =>
      rw [take_succ_cons, findIdx?_cons] at h
      by_cases hb : b = 0
      · subst hb
        obtain rfl : 0 = nul := by simpa using h
        exact ⟨rfl, Nat.succ_pos n⟩
      · rw [if_neg (by simpa using hb)] at h
        obtain ⟨nul', hnul, rfl⟩ := Option.map_eq_some_iff.1 h
        obtain ⟨htake, hlt⟩ := ih hnul
        refine ⟨?_, Nat.succ_lt_succ hlt⟩
        rw [take_succ_cons, htake, takeWhile_cons_of_pos (by simpa using hb)]
        rfl

lemma putBody_string (payload : List UInt8) :
    (∃ nul < 40, payload.take (nul + 1) = payload.takeWhile (· ≠ 0) ++ [0] ∧ (0 ∈ payload) ∧
      putBody dbrString 1 payload = .ok (payload.take (nul + 1))) ∨
    (∀ b ∈ payload.take 40, b ≠ 0) ∧ payload.length < 40 ∧
      putBody dbrString 1 payload = .ok payload ∨
    (∀ b ∈ payload.take 40, b ≠ 0) ∧ 40 ≤ payload.length ∧
      putBody dbrString 1 payload = .error .badCount := by
  unfold putBody scalarStringPutLen
  rw [if_pos ⟨rfl, rfl⟩]
  cases hfind : (payload.take maxStringSize).findIdx? (· == 0) with
  | some nul =>
    obtain ⟨htake, hlt⟩ := take_findIdx hfind
    refine Or.inl ⟨nul, hlt, htake, ?_, rfl⟩
    have hmem : (0 : UInt8) ∈ payload.take (nul + 1) := by rw [htake]; simp
    exact mem_of_mem_take hmem
  | none =>
    have hnone : ∀ b ∈ payload.take 40, b ≠ 0 := by
      intro b hb
      simpa using findIdx?_eq_none_iff.1 hfind b hb
    by_cases hlen : payload.length < maxStringSize
    · refine Or.inr (Or.inl ⟨hnone, hlen, ?_⟩)
      simp only [if_pos hlen, bind, Except.bind, pure, Except.pure]
      rw [take_of_length_le (Nat.le_succ _)]
    · exact Or.inr (Or.inr ⟨hnone, Nat.not_lt.1 hlen, by simp only [if_neg hlen, bind, Except.bind]⟩)

lemma stringBody_of_terminated {k} (h : body = payload.takeWhile (· ≠ 0) ++ [0])
    (hlen : body.length < 2 ^ 32) (hk : body.length + k = align8 body.length) :
    StringBody payload (body ++ replicate k 0) := by
  refine ⟨⟨k, ?_⟩, ?_⟩
  · rw [h, append_assoc, replicate_succ]
    rfl
  · rw [length_append, length_replicate, hk]
    have hlen' : body.length = (payload.takeWhile (· ≠ 0)).length + 1 := by simp [h]
    rw [← hlen']
    exact isLeast_align8 hlen

lemma stringBody_of_unterminated {k} (h : ∀ b ∈ payload, b ≠ 0) (hlen : payload.length < 40)
    (hk : payload.length + k = align8 payload.length) :
    StringBody payload (payload ++ replicate k 0) ↔ ¬ 8 ∣ payload.length := by
  have hstr : payload.takeWhile (· ≠ 0) = payload := by
    simpa using h
  have heq := align8_eq (show payload.length < 2 ^ 32 by omega)
  unfold StringBody
  rw [hstr, length_append, length_replicate, hk]
  refine ⟨?_, fun hnot => ?_⟩
  · rintro ⟨-, hleast⟩ ⟨m, hm⟩
    have := hleast.1.2
    omega
  · refine ⟨⟨k - 1, ?_⟩, ?_⟩
    · rw [show k - 1 + 1 = k by omega]
    · refine ⟨⟨⟨(payload.length + 7) / 8, by omega⟩, by omega⟩, ?_⟩
      rintro n ⟨⟨m, rfl⟩, hle⟩
      omega

/-! ### Frames -/

variable (cmd : UInt16) (sid : UInt32) (dataType : UInt16) (count : UInt32) (ioid : Option UInt32)
  (payload : List UInt8) (peerMinor : UInt16)

lemma buildPutFrame_of_body (hbody : putBody dataType count payload = .ok body)
    (hlen : body.length < 2 ^ 32 - 8) :
    (∃ k < 8, body.length + k = align8 body.length ∧
      ∃ hdr, buildPutFrame cmd sid dataType count ioid payload peerMinor =
          .ok (hdr.toBytesExtended ++ (body ++ replicate k 0)) ∧
        CaHeader.fromBytesForPeer (hdr.toBytesExtended ++ (body ++ replicate k 0)) peerMinor =
          .ok (hdr, hdr.toBytesExtended.length) ∧
        hdr.cmmd = cmd ∧ hdr.dataType = dataType ∧ hdr.actualCount = count ∧ hdr.cid = sid ∧
        hdr.available = ioid.getD 0 ∧ hdr.actualPostsize = align8 body.length) ∧
      ¬ ((0xFFFF ≤ align8 body.length ∨ 0xFFFF ≤ count) ∧ peerMinor < 9) ∨
    buildPutFrame cmd sid dataType count ioid payload peerMinor = .error .badCount ∧
      (0xFFFF ≤ align8 body.length ∨ 0xFFFF ≤ count) ∧ peerMinor < 9 := by
  obtain ⟨k, hk, hfill, hsum⟩ := resize_align8 (show body.length < 2 ^ 32 by omega)
  have hsize : (body ++ replicate k 0).length = align8 body.length := by
    rw [length_append, length_replicate, hsum]
  simp only [buildPutFrame, hbody, bind, Except.bind, hfill, hsize, pure, Except.pure]
  cases hset : (putHeader cmd sid dataType ioid).setPayloadSize (align8 body.length) count peerMinor with
  | error e => exact Or.inr ⟨rfl, CaHeader.setPayloadSize_error.1 hset⟩
  | ok hdr =>
    obtain ⟨hformed, hpeer, hpost, hcount, hcmd, htype, hcid, havail⟩ :=
      CaHeader.setPayloadSize_ok (by omega) hset
    refine Or.inl ⟨⟨k, hk, hsum, hdr, rfl,
      CaHeader.fromBytesForPeer_toBytesExtended hformed hpeer _, ?_, ?_, hcount, ?_, ?_, hpost⟩, ?_⟩
    · rw [hcmd]
      cases ioid <;> rfl
    · rw [htype]
      cases ioid <;> rfl
    · rw [hcid]
      cases ioid <;> rfl
    · rw [havail]
      cases ioid <;> rfl
    · intro hrefused
      rw [CaHeader.setPayloadSize_error.2 hrefused] at hset
      cases hset

lemma framesPut_iff {hdr rest}
    (hparse : CaHeader.fromBytesForPeer (hdr.toBytesExtended ++ rest) peerMinor =
      .ok (hdr, hdr.toBytesExtended.length)) (hcmd : hdr.cmmd = cmd)
    (htype : hdr.dataType = dataType) (hcount : hdr.actualCount = count) (hcid : hdr.cid = sid)
    (havail : hdr.available = ioid.getD 0) (hpost : hdr.actualPostsize = rest.length)
    (hdvd : 8 ∣ rest.length) :
    FramesPut cmd sid dataType count ioid payload peerMinor (hdr.toBytesExtended ++ rest) ↔
      if count = 1 ∧ dataType = dbrString then StringBody payload rest
      else ∃ k < 8, rest = payload ++ replicate k 0 := by
  constructor
  · rintro ⟨hdr', n, hparse', -, -, -, -, -, -, -, -, hbody⟩
    rw [hparse] at hparse'
    obtain ⟨-, rfl⟩ := Prod.mk.inj (Except.ok.inj hparse')
    rwa [drop_left] at hbody
  · intro hbody
    refine ⟨hdr, _, hparse, by simp, hcmd, htype, hcount, hcid, havail, ?_⟩
    rw [drop_left]
    exact ⟨hpost, hdvd, hbody⟩

/-- **A put frame is what it has to be, but for an unfilled string**, and what is refused is what cannot be
framed. -/
theorem build_put_frame_framed_iff (hlen : payload.length < 2 ^ 32 - 8) :
    ((∃ e, buildPutFrame cmd sid dataType count ioid payload peerMinor = .error e) ↔
      RefusesPut dataType count payload peerMinor) ∧
    ∀ frame, buildPutFrame cmd sid dataType count ioid payload peerMinor = .ok frame →
      (FramesPut cmd sid dataType count ioid payload peerMinor frame ↔
        ¬ Unfilled dataType count payload) := by
  -- what follows for a body, whichever it is
  have hbuild : ∀ {body : List UInt8}, putBody dataType count payload = .ok body →
      body.length < 2 ^ 32 - 8 →
      ((∃ e, buildPutFrame cmd sid dataType count ioid payload peerMinor = .error e) ↔
        (0xFFFF ≤ align8 body.length ∨ 0xFFFF ≤ count) ∧ peerMinor < 9) ∧
      ∀ frame, buildPutFrame cmd sid dataType count ioid payload peerMinor = .ok frame →
        ∃ k < 8, body.length + k = align8 body.length ∧
          (FramesPut cmd sid dataType count ioid payload peerMinor frame ↔
            if count = 1 ∧ dataType = dbrString then StringBody payload (body ++ replicate k 0)
            else ∃ k' < 8, body ++ replicate k 0 = payload ++ replicate k' 0) := by
    intro body hbody hsmall
    rcases buildPutFrame_of_body cmd sid dataType count ioid payload peerMinor hbody hsmall with
      ⟨⟨k, hk, hsum, hdr, hframe, hparse, hcmd, htype, hcount, hcid, havail, hpost⟩, hnot⟩ |
      ⟨herror, hrefused⟩
    · refine ⟨⟨fun ⟨e, he⟩ => ?_, fun h => absurd h hnot⟩, fun frame h => ⟨k, hk, hsum, ?_⟩⟩
      · rw [hframe] at he
        cases he
      · rw [hframe] at h
        obtain rfl := Except.ok.inj h
        have hrest : (body ++ replicate k (0 : UInt8)).length = align8 body.length := by
          rw [length_append, length_replicate, hsum]
        refine framesPut_iff cmd sid dataType count ioid payload peerMinor hparse hcmd htype hcount hcid
          havail (hpost.trans hrest.symm) ?_
        rw [hrest]
        exact (isLeast_align8 (by omega)).1.1
    · refine ⟨⟨fun _ => hrefused, fun _ => ⟨_, herror⟩⟩, fun frame h => ?_⟩
      rw [herror] at h
      cases h
  have hsize : ∀ {n : ℕ}, n ≤ 40 → ¬ ((0xFFFF ≤ align8 n ∨ (0xFFFF : UInt32) ≤ 1) ∧ peerMinor < 9) := by
    rintro n hn ⟨hlarge | hcount, -⟩
    · rw [align8_eq (by omega)] at hlarge
      omega
    · exact absurd hcount (by decide)
  by_cases hstring : count = 1 ∧ dataType = dbrString
  · obtain ⟨rfl, rfl⟩ := hstring
    rcases putBody_string payload with ⟨nul, hnul, htake, hmem, hbody⟩ |
      ⟨hnone, hshort, hbody⟩ | ⟨hnone, hlong, hbody⟩
    · -- the string is cut behind its NUL
      have hbound : (payload.take (nul + 1)).length ≤ 40 :=
        (length_take_le (nul + 1) payload).trans hnul
      obtain ⟨herror, hframe⟩ := hbuild hbody (by omega)
      refine ⟨herror.trans ⟨fun h => absurd h (hsize hbound), ?_⟩, fun frame h => ?_⟩
      · rintro (⟨-, hnone, -⟩ | ⟨hcount | hlarge, -⟩)
        · refine absurd rfl (hnone 0 ?_)
          have hin : (0 : UInt8) ∈ payload.take (nul + 1) := by rw [htake]; simp
          exact take_subset_take_left payload hnul hin
        · exact absurd hcount (by decide)
        · exact absurd ⟨rfl, rfl⟩ hlarge.1
      · obtain ⟨k, -, hsum, hiff⟩ := hframe frame h
        rw [hiff, if_pos ⟨rfl, rfl⟩]
        exact ⟨fun _ hunfilled => hunfilled.2.1 0 hmem rfl, fun _ =>
          stringBody_of_terminated htake (by omega) hsum⟩
    · -- the string has no NUL, and is shorter than an element
      have hnone' : ∀ b ∈ payload, b ≠ 0 := by rwa [take_of_length_le hshort.le] at hnone
      obtain ⟨herror, hframe⟩ := hbuild hbody hlen
      refine ⟨herror.trans ⟨fun h => absurd h (hsize hshort.le), ?_⟩, fun frame h => ?_⟩
      · rintro (⟨-, -, hlong⟩ | ⟨hcount | hlarge, -⟩)
        · omega
        · exact absurd hcount (by decide)
        · exact absurd ⟨rfl, rfl⟩ hlarge.1
      · obtain ⟨k, -, hsum, hiff⟩ := hframe frame h
        rw [hiff, if_pos ⟨rfl, rfl⟩, stringBody_of_unterminated hnone' hshort hsum]
        exact ⟨fun hnot hunfilled => hnot hunfilled.2.2.2, fun hnot hdvd =>
          hnot ⟨⟨rfl, rfl⟩, hnone', hshort, hdvd⟩⟩
    · -- the string is longer than an element
      have herror : buildPutFrame cmd sid dbrString 1 ioid payload peerMinor = .error .badCount := by
        simp only [buildPutFrame, hbody, bind, Except.bind]
      refine ⟨⟨fun _ => Or.inl ⟨⟨rfl, rfl⟩, hnone, hlong⟩, fun _ => ⟨_, herror⟩⟩, fun frame h => ?_⟩
      rw [herror] at h
      cases h
  · have hbody : putBody dataType count payload = .ok payload := if_neg hstring
    obtain ⟨herror, hframe⟩ := hbuild hbody hlen
    rw [align8_eq (by omega)] at herror
    refine ⟨herror.trans ?_, fun frame h => ?_⟩
    · simp only [RefusesPut, hstring, false_and, false_or, not_false_eq_true, true_and, or_comm]
    · obtain ⟨k, hk, -, hiff⟩ := hframe frame h
      rw [hiff, if_neg hstring]
      exact ⟨fun _ hunfilled => hstring hunfilled.1, fun _ => ⟨k, hk, rfl⟩⟩

/-- A string of two bytes is framed in eight. -/
theorem build_put_frame_framed_short : FramesPut 4 7 dbrString 1 none [97, 98] 13
    (be16 4 ++ be16 8 ++ be16 0 ++ be16 1 ++ be32 7 ++ be32 0 ++ [97, 98, 0, 0, 0, 0, 0, 0]) := by
  refine ((build_put_frame_framed_iff 4 7 dbrString 1 none [97, 98] 13 (by decide)).2 _ rfl).2 ?_
  rintro ⟨-, -, -, hdvd⟩
  exact absurd hdvd (by decide)

/-- **A string of eight bytes without NUL is framed as it is**: the receiver finds no NUL. -/
theorem build_put_frame_unfilled : ∃ frame,
    buildPutFrame 4 7 dbrString 1 none [97, 97, 97, 97, 97, 97, 97, 97] 13 = .ok frame ∧
      ¬ FramesPut 4 7 dbrString 1 none [97, 97, 97, 97, 97, 97, 97, 97] 13 frame := by
  refine ⟨be16 4 ++ be16 8 ++ be16 0 ++ be16 1 ++ be32 7 ++ be32 0 ++
    [97, 97, 97, 97, 97, 97, 97, 97], rfl, ?_⟩
  rintro ⟨hdr, n, hparse, -, -, -, -, -, -, -, -, hbody⟩
  obtain rfl : n = 16 := by
    have hparse' := congrArg (fun r => r.toOption.map Prod.snd) hparse
    exact (Option.some.inj hparse').symm
  exact absurd hbody.2.1.2 (by decide)

end Ca
