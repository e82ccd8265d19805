/-
**The receive loop of a CA server, and how a stream is cut into reads.**

`handle_client` reads at most 8192 bytes at a time, appends them and parses what it has, until a decision needs
more bytes.  A request that is postponed is held: until it is resumed the loop reads only as much as there is
room for, and does not parse.

The decisions are those of a parser that has the whole stream before it, however the stream is cut.

Main result: `Ca.framing_independent`.
-/

import EpicsRs.CaRecv

set_option autoImplicit false

namespace Ca

open List

/-! ### Decisions about a stream -/

structure Message where
  hdr : CaHeader
  payload : List UInt8
deriving DecidableEq, Repr

/-- What the messages delivered so far say about the peer, and whether the last one is postponed. -/
structure Dispatcher where
  minor : List Message → UInt16
  postpones : List Message → Bool

/-- The decisions about a stream, by a parser that has it all: each message is decided in turn, and the bytes of
a message that is refused are skipped. -/
def decisions (ceiling : ℕ) (d : Dispatcher) (delivered : List Message) (stream : List UInt8) : List Gate :=
  match _h : verdict ceiling (d.minor delivered) stream with
  | none => []
  | some (.needMore, _) => []
  | some (.deliver hdr payload, len) =>
      .deliver hdr payload :: decisions ceiling d (delivered ++ [⟨hdr, payload⟩]) (stream.drop len)
  | some (.refuse e, len) => .refuse e :: decisions ceiling d delivered (stream.drop len)
  | some (.tearDown e reason, _) => [.tearDown e reason]
termination_by stream.length
decreasing_by
  all_goals
    have hlen := verdict_length _h
    rw [List.length_drop]
    omega

section Equations

variable {ceiling : ℕ} {d : Dispatcher} {delivered : List Message} {stream : List UInt8}

lemma decisions_none (h : verdict ceiling (d.minor delivered) stream = none) :
    decisions ceiling d delivered stream = [] := by
  rw [decisions]
  split <;> simp_all

lemma decisions_deliver {hdr payload len}
    (h : verdict ceiling (d.minor delivered) stream = some (.deliver hdr payload, len)) :
    decisions ceiling d delivered stream =
      .deliver hdr payload :: decisions ceiling d (delivered ++ [⟨hdr, payload⟩]) (stream.drop len) := by
  rw [decisions]
  split <;> simp_all

lemma decisions_refuse {e len}
    (h : verdict ceiling (d.minor delivered) stream = some (.refuse e, len)) :
    decisions ceiling d delivered stream =
      .refuse e :: decisions ceiling d delivered (stream.drop len) := by
  rw [decisions]
  split <;> simp_all

lemma decisions_tearDown {e reason len}
    (h : verdict ceiling (d.minor delivered) stream = some (.tearDown e reason, len)) :
    decisions ceiling d delivered stream = [.tearDown e reason] := by
  rw [decisions]
  split <;> simp_all

end Equations

/-! ### The loop -/

inductive Phase where
  | reading
  | postponed
  | closed
deriving DecidableEq, Repr

/-- A circuit: its receive buffer, the messages that were delivered, and the decisions so far. -/
structure Circuit where
  acc : RecvAccumulator
  delivered : List Message
  gates : List Gate
  phase : Phase

namespace Circuit

def new (ceiling : ℕ) : Circuit := ⟨.new ceiling, [], [], .reading⟩

/-- The inner loop: messages are decided and dispatched until one is postponed, more bytes are needed, or the
circuit ends. -/
def parseLoop (d : Dispatcher) (c : Circuit) : Circuit :=
  match _h : c.acc.nextMessage (d.minor c.delivered) with
  | (acc, .needMore) => { c with acc := acc, phase := .reading }
  | (acc, .deliver hdr payload) =>
      if d.postpones (c.delivered ++ [⟨hdr, payload⟩]) then
        ⟨acc, c.delivered ++ [⟨hdr, payload⟩], c.gates ++ [.deliver hdr payload], .postponed⟩
      else
        parseLoop d ⟨acc, c.delivered ++ [⟨hdr, payload⟩], c.gates ++ [.deliver hdr payload], c.phase⟩
  | (acc, .refuse e) => parseLoop d ⟨acc, c.delivered, c.gates ++ [.refuse e], c.phase⟩
  | (acc, .tearDown e reason) => ⟨acc, c.delivered, c.gates ++ [.tearDown e reason], .closed⟩
termination_by c.acc.buf.length - c.acc.offset
decreasing_by
  · exact RecvAccumulator.nextMessage_advances _h nofun nofun
  · exact RecvAccumulator.nextMessage_advances _h nofun nofun

section Equations

variable {d : Dispatcher} (c : Circuit) {acc : RecvAccumulator}

lemma parseLoop_needMore (h : c.acc.nextMessage (d.minor c.delivered) = (acc, .needMore)) :
    c.parseLoop d = { c with acc := acc, phase := .reading } := by
  rw [parseLoop]
  split <;> simp_all

lemma parseLoop_deliver {hdr payload}
    (h : c.acc.nextMessage (d.minor c.delivered) = (acc, .deliver hdr payload)) :
    c.parseLoop d =
      if d.postpones (c.delivered ++ [⟨hdr, payload⟩]) then
        ⟨acc, c.delivered ++ [⟨hdr, payload⟩], c.gates ++ [.deliver hdr payload], .postponed⟩
      else
        parseLoop d ⟨acc, c.delivered ++ [⟨hdr, payload⟩], c.gates ++ [.deliver hdr payload], c.phase⟩ := by
  rw [parseLoop]
  split <;> simp_all

lemma parseLoop_refuse {e} (h : c.acc.nextMessage (d.minor c.delivered) = (acc, .refuse e)) :
    c.parseLoop d = parseLoop d ⟨acc, c.delivered, c.gates ++ [.refuse e], c.phase⟩ := by
  rw [parseLoop]
  split <;> simp_all

lemma parseLoop_tearDown {e reason}
    (h : c.acc.nextMessage (d.minor c.delivered) = (acc, .tearDown e reason)) :
    c.parseLoop d = ⟨acc, c.delivered, c.gates ++ [.tearDown e reason], .closed⟩ := by
  rw [parseLoop]
  split <;> simp_all

end Equations

/-- A read: the bytes are accepted, and parsed unless a request is held. -/
def read (d : Dispatcher) (c : Circuit) (chunk : List UInt8) : Circuit :=
  match c.acc.accept chunk with
  | (acc, .parse) =>
      if c.phase = .postponed then { c with acc := acc } else parseLoop d { c with acc := acc }
  | (acc, .draining) => { c with acc := acc }
  | (acc, .overflow _) => { c with acc := acc, phase := .closed }

def resume (d : Dispatcher) (c : Circuit) : Circuit := parseLoop d c

/-- What can be read next: not more than the read buffer takes, nor than there is room for while a request is
held. -/
structure Readable (c : Circuit) (chunk : List UInt8) : Prop where
  isOpen : c.phase ≠ .closed
  nonempty : chunk ≠ []
  size : chunk.length ≤ 8192
  room : c.phase = .postponed → chunk.length ≤ c.acc.room

end Circuit

/-- The runs of the loop, with the bytes that were read. -/
inductive Receives (d : Dispatcher) (ceiling : ℕ) : Circuit → List UInt8 → Prop
  | start : Receives d ceiling (.new ceiling) []
  | read {c : Circuit} {seen chunk : List UInt8} (h : Receives d ceiling c seen)
      (hchunk : c.Readable chunk) : Receives d ceiling (c.read d chunk) (seen ++ chunk)
  | resume {c : Circuit} {seen : List UInt8} (h : Receives d ceiling c seen)
      (hheld : c.phase = .postponed) : Receives d ceiling (c.resume d) seen

/-! ### What is left of the stream -/

section Invariant

variable {d : Dispatcher} {ceiling : ℕ} {c : Circuit} {seen : List UInt8}

/-- What holds in the parse loop: the decisions so far and those about what is left are the decisions about the
stream, and bytes are owed to a refused message only when all others are parsed. -/
structure Parsing (d : Dispatcher) (ceiling : ℕ) (c : Circuit) (seen : List UInt8) : Prop where
  ceiling_eq : c.acc.bodyCeiling = ceiling
  offset_le : c.acc.offset ≤ c.acc.buf.length
  bound : c.acc.buf.length ≤ ceiling + 24 + 65536
  drained : 0 < c.acc.toDrain → c.acc.offset = c.acc.buf.length
  left : ∀ more, decisions ceiling d [] (seen ++ more) =
    c.gates.map Gate.unnumbered ++ decisions ceiling d c.delivered (c.acc.pending more)

structure Framed (d : Dispatcher) (ceiling : ℕ) (c : Circuit) (seen : List UInt8) : Prop where
  bound : c.acc.buf.length ≤ ceiling + 24 + 65536
  parsing : c.phase ≠ .closed → Parsing d ceiling c seen
  reading : c.phase = .reading →
    c.acc.offset = 0 ∧ verdict ceiling (d.minor c.delivered) c.acc.buf = none
  postponed : c.phase = .postponed → c.acc.toDrain = 0
  closed : c.phase = .closed → ∀ more, decisions ceiling d [] (seen ++ more) = c.gates.map Gate.unnumbered

lemma Parsing.verdict_pending (h : Parsing d ceiling c seen) {v}
    (hv : verdict ceiling (d.minor c.delivered) (c.acc.buf.drop c.acc.offset) = some v) :
    c.acc.toDrain = 0 ∧
      ∀ more, verdict ceiling (d.minor c.delivered) (c.acc.pending more) = some v := by
  have hzero : c.acc.toDrain = 0 := by
    by_contra hne
    have hlen := (verdict_length (show _ = some (v.1, v.2) from hv)).2.1
    rw [length_drop, h.drained (Nat.pos_of_ne_zero hne)] at hlen
    omega
  refine ⟨hzero, fun more => ?_⟩
  unfold RecvAccumulator.pending
  rw [hzero, drop_zero]
  exact verdict_append hv more

variable {acc : RecvAccumulator}

lemma Parsing.deliver (h : Parsing d ceiling c seen) {hdr payload}
    (hnext : c.acc.nextMessage (d.minor c.delivered) = (acc, .deliver hdr payload)) (phase : Phase) :
    acc.toDrain = 0 ∧ Parsing d ceiling
      ⟨acc, c.delivered ++ [⟨hdr, payload⟩], c.gates ++ [.deliver hdr payload], phase⟩ seen := by
  obtain ⟨len, hv, rfl⟩ := RecvAccumulator.verdict_of_deliver hnext
  rw [h.ceiling_eq] at hv
  obtain ⟨hzero, hpending⟩ := h.verdict_pending hv
  have harrived := (verdict_length hv).2.2 hdr payload rfl
  rw [length_drop] at harrived
  have hoffset := h.offset_le
  refine ⟨hzero, h.ceiling_eq, ?_, h.bound, fun hpos => ?_, fun more => ?_⟩
  · dsimp only
    omega
  · exact absurd hzero hpos.ne'
  · have hrest : RecvAccumulator.pending { c.acc with offset := c.acc.offset + len, nmsg := c.acc.nmsg + 1 }
        more = (c.acc.pending more).drop len := by
      unfold RecvAccumulator.pending
      rw [hzero, drop_zero, drop_zero, ← drop_drop, drop_append_of_le_length]
      rw [length_drop]
      exact harrived
    rw [h.left more, decisions_deliver (hpending more), hrest, map_append, append_assoc]
    rfl

lemma Parsing.refuse (h : Parsing d ceiling c seen) {e}
    (hnext : c.acc.nextMessage (d.minor c.delivered) = (acc, .refuse e)) :
    Parsing d ceiling ⟨acc, c.delivered, c.gates ++ [.refuse e], c.phase⟩ seen := by
  obtain ⟨len, hv, rfl⟩ := RecvAccumulator.verdict_of_refuse hnext
  rw [h.ceiling_eq] at hv
  obtain ⟨hzero, hpending⟩ := h.verdict_pending hv
  have hoffset := h.offset_le
  have hskip := c.acc.skipRefused_eq len
  refine ⟨?_, ?_, ?_, fun hpos => ?_, fun more => ?_⟩
  · dsimp only
    rw [hskip]
    split_ifs <;> exact h.ceiling_eq
  · dsimp only
    rw [hskip]
    split_ifs with hle
    · dsimp only
      omega
    · exact Nat.le_refl _
  · dsimp only
    rw [hskip]
    split_ifs <;> exact h.bound
  · dsimp only at hpos ⊢
    rw [hskip] at hpos ⊢
    split_ifs at hpos ⊢ with hle
    · exact absurd hzero hpos.ne'
    · rfl
  · rw [h.left more, decisions_refuse (hpending more), RecvAccumulator.pending_skipRefused hzero,
      map_append, append_assoc]
    rfl

lemma Parsing.needMore (h : Parsing d ceiling c seen)
    (hnext : c.acc.nextMessage (d.minor c.delivered) = (acc, .needMore)) :
    Framed d ceiling { c with acc := acc, phase := .reading } seen := by
  obtain ⟨hv, rfl⟩ := RecvAccumulator.verdict_of_needMore hnext
  rw [h.ceiling_eq] at hv
  have hbound : (c.acc.buf.drop c.acc.offset).length ≤ ceiling + 24 + 65536 := by
    have := h.bound
    rw [length_drop]
    omega
  have hparsing : Parsing d ceiling { c with acc := c.acc.compact, phase := .reading } seen := by
    refine ⟨h.ceiling_eq, Nat.zero_le _, hbound, fun hpos => ?_, h.left⟩
    change 0 = (c.acc.buf.drop c.acc.offset).length
    rw [h.drained hpos, drop_length]
    rfl
  exact ⟨hbound, fun _ => hparsing, fun _ => ⟨rfl, hv⟩, nofun, nofun⟩

lemma Parsing.tearDown (h : Parsing d ceiling c seen) {e reason}
    (hnext : c.acc.nextMessage (d.minor c.delivered) = (acc, .tearDown e reason)) :
    Framed d ceiling ⟨acc, c.delivered, c.gates ++ [.tearDown e reason], .closed⟩ seen := by
  obtain ⟨len, hv, hbuf⟩ := RecvAccumulator.verdict_of_tearDown hnext
  rw [h.ceiling_eq] at hv
  obtain ⟨-, hpending⟩ := h.verdict_pending hv
  refine ⟨hbuf ▸ h.bound, fun hopen => absurd rfl hopen, nofun, nofun, fun _ more => ?_⟩
  rw [h.left more, decisions_tearDown (hpending more), map_append]
  rfl

/-- **The parse loop keeps what is left of the stream**, and ends where the loop reads. -/
theorem Parsing.parseLoop (h : Parsing d ceiling c seen) : Framed d ceiling (c.parseLoop d) seen := by
  induction c using Circuit.parseLoop.induct d with
  | case1 c acc hnext =>
    rw [c.parseLoop_needMore hnext]
    exact h.needMore hnext
  | case2 c acc hdr payload hnext hpostpones =>
    rw [c.parseLoop_deliver hnext, if_pos hpostpones]
    obtain ⟨hzero, hparsing⟩ := h.deliver hnext .postponed
    exact ⟨hparsing.bound, fun _ => hparsing, nofun, fun _ => hzero, nofun⟩
  | case3 c acc hdr payload hnext hpostpones ih =>
    rw [c.parseLoop_deliver hnext, if_neg hpostpones]
    exact ih (h.deliver hnext c.phase).2
  | case4 c acc e hnext ih =>
    rw [c.parseLoop_refuse hnext]
    exact ih (h.refuse hnext)
  | case5 c acc e reason hnext =>
    rw [c.parseLoop_tearDown hnext]
    exact h.tearDown hnext

lemma Framed.fits (h : Framed d ceiling c seen) (hceiling : ceiling < 2 ^ 32) {chunk}
    (hchunk : c.Readable chunk) : c.acc.buf.length + chunk.length ≤ c.acc.accumulationCeiling := by
  have hceil := c.acc.accumulationCeiling_eq (by rw [(h.parsing hchunk.isOpen).ceiling_eq]; exact hceiling)
  rw [(h.parsing hchunk.isOpen).ceiling_eq] at hceil
  have hpos := length_pos_iff.2 hchunk.nonempty
  have hsize := hchunk.size
  cases hphase : c.phase with
  | reading =>
    have hlen := length_of_verdict_none (h.reading hphase).2
    omega
  | postponed =>
    have hroom := hchunk.room hphase
    unfold RecvAccumulator.room at hroom
    omega
  | closed => exact absurd hphase hchunk.isOpen

lemma Framed.read (h : Framed d ceiling c seen) (hceiling : ceiling < 2 ^ 32) {chunk}
    (hchunk : c.Readable chunk) : Framed d ceiling (c.read d chunk) (seen ++ chunk) := by
  have hfits := h.fits hceiling hchunk
  have P := h.parsing hchunk.isOpen
  have hceil := c.acc.accumulationCeiling_eq (by rw [P.ceiling_eq]; exact hceiling)
  rw [P.ceiling_eq] at hceil
  -- bytes are owed only where the loop reads, with an empty buffer
  have howed : 0 < c.acc.toDrain → c.phase = .reading ∧ c.acc.buf = [] := by
    intro hpos
    cases hphase : c.phase with
    | reading =>
      refine ⟨rfl, length_eq_zero_iff.1 ?_⟩
      rw [← P.drained hpos, (h.reading hphase).1]
    | postponed => exact absurd (h.postponed hphase) hpos.ne'
    | closed => exact absurd hphase hchunk.isOpen
  have hleft : ∀ more, decisions ceiling d [] (seen ++ chunk ++ more) =
      c.gates.map Gate.unnumbered ++ decisions ceiling d c.delivered ((c.acc.accept chunk).1.pending more) := by
    intro more
    rw [append_assoc, P.left (chunk ++ more),
      c.acc.pending_accept (fun hpos => (howed hpos).2) hfits P.offset_le]
  have hoffset := P.offset_le
  unfold Circuit.read
  rw [c.acc.accept_eq hfits] at hleft ⊢
  by_cases hmore : chunk.length < c.acc.toDrain
  · -- all of it is thrown away
    obtain ⟨hreading, hbuf⟩ := howed (by omega)
    rw [if_pos hmore] at hleft ⊢
    have hparsing : Parsing d ceiling
        { c with acc := { c.acc with nmsg := 0, toDrain := c.acc.toDrain - chunk.length } }
        (seen ++ chunk) := by
      refine ⟨P.ceiling_eq, P.offset_le, P.bound, fun _ => ?_, hleft⟩
      exact P.drained (by omega)
    refine ⟨P.bound, fun _ => hparsing, fun _ => h.reading hreading, fun hpost => ?_, fun hclosed => ?_⟩
    · exact absurd (hreading.symm.trans hpost) nofun
    · exact absurd hclosed hchunk.isOpen
  · rw [if_neg hmore] at hleft ⊢
    have hlen : (c.acc.buf ++ chunk.drop c.acc.toDrain).length ≤ ceiling + 24 + 65536 := by
      rw [length_append, length_drop]
      omega
    have hparsing : Parsing d ceiling
        { c with acc := { c.acc with
          nmsg := 0, toDrain := 0, buf := c.acc.buf ++ chunk.drop c.acc.toDrain } } (seen ++ chunk) := by
      refine ⟨P.ceiling_eq, ?_, hlen, fun hpos => absurd hpos (Nat.lt_irrefl 0), hleft⟩
      rw [length_append]
      exact Nat.le_add_right_of_le hoffset
    split_ifs with hpost
    · refine ⟨hlen, fun _ => hparsing, fun hreading => ?_, fun _ => rfl, fun hclosed => ?_⟩
      · exact absurd (hpost.symm.trans hreading) nofun
      · exact absurd hclosed hchunk.isOpen
    · exact hparsing.parseLoop

lemma Receives.framed (h : Receives d ceiling c seen) (hceiling : ceiling < 2 ^ 32) :
    Framed d ceiling c seen := by
  induction h with
  | start =>
    have hparsing : Parsing d ceiling (.new ceiling) [] :=
      ⟨rfl, Nat.le_refl 0, Nat.zero_le _, fun _ => rfl, fun _ => rfl⟩
    exact ⟨Nat.zero_le _, fun _ => hparsing, fun _ => ⟨rfl, rfl⟩, nofun, nofun⟩
  | read _ hchunk ih => exact ih.read hceiling hchunk
  | resume _ hheld ih => exact (ih.parsing (by rw [hheld]; nofun)).parseLoop

/-- **The decisions do not depend on how the stream is cut, and the buffer does not overflow.**  Whatever has been
read so far, the decisions are the first ones of a parser that has the whole stream; when no request is held they
are all that can be made of what was read, and when the circuit has ended they are all there will be. -/
theorem framing_independent (hceiling : ceiling < 2 ^ 32) (h : Receives d ceiling c seen) :
    (∀ more, c.gates.map Gate.unnumbered <+: decisions ceiling d [] (seen ++ more)) ∧
    (c.phase ≠ .postponed → c.gates.map Gate.unnumbered = decisions ceiling d [] seen) ∧
    (c.phase = .closed → ∀ more, c.gates.map Gate.unnumbered = decisions ceiling d [] (seen ++ more)) ∧
    ∀ chunk, c.Readable chunk → (∀ n, (c.acc.accept chunk).2 ≠ .overflow n) ∧
      (c.acc.accept chunk).1.buf.length ≤ ceiling + 24 + 65536 ∧
      (c.read d chunk).acc.buf.length ≤ ceiling + 24 + 65536 := by
  have F := h.framed hceiling
  refine ⟨fun more => ?_, fun hphase => ?_, fun hclosed more => (F.closed hclosed more).symm,
    fun chunk hchunk => ?_⟩
  · by_cases hclosed : c.phase = .closed
    · exact (F.closed hclosed more).symm ▸ prefix_rfl
    · rw [(F.parsing hclosed).left more]
      exact prefix_append _ _
  · have hseen : seen = seen ++ [] := (append_nil seen).symm
    cases hc : c.phase with
    | reading =>
      obtain ⟨hoffset, hv⟩ := F.reading hc
      have P := F.parsing (by rw [hc]; nofun)
      have hrest : verdict ceiling (d.minor c.delivered) (c.acc.pending []) = none := by
        unfold RecvAccumulator.pending
        rw [append_nil, hoffset, drop_zero]
        rcases Nat.eq_zero_or_pos c.acc.toDrain with hzero | hpos
        · rw [hzero, drop_zero, hv]
        · have hbuf : c.acc.buf = [] := length_eq_zero_iff.1 ((P.drained hpos).symm.trans hoffset)
          rw [hbuf, drop_nil]
          rfl
      rw [hseen, P.left [], decisions_none hrest, append_nil]
    | postponed => exact absurd hc hphase
    | closed => rw [hseen, F.closed hc []]
  · have hfits := F.fits hceiling hchunk
    have hcaccept := c.acc.accept_eq hfits
    have hceil := c.acc.accumulationCeiling_eq
      (by rw [(F.parsing hchunk.isOpen).ceiling_eq]; exact hceiling)
    rw [(F.parsing hchunk.isOpen).ceiling_eq] at hceil
    refine ⟨fun n hover => ?_, ?_, (F.read hceiling hchunk).bound⟩
    · rw [hcaccept] at hover
      split_ifs at hover
    · rw [hcaccept]
      split_ifs
      · exact F.bound
      · rw [length_append, length_drop]
        omega

end Invariant

/-- A version message that is cut behind its tenth byte is delivered once. -/
theorem framing_independent_cut :
    [Gate.deliver ⟨0, 0, 0, 13, 0, 0, none, none⟩ []] =
      decisions 100 ⟨fun _ => 13, fun _ => false⟩ []
        ([0, 0, 0, 0, 0, 0, 0, 13, 0, 0] ++ [0, 0, 0, 0, 0, 0]) := by
  let d : Dispatcher := ⟨fun _ => 13, fun _ => false⟩
  have hstart : Receives d 100 (.new 100) [] := .start
  have hfirst : Receives d 100 (Circuit.read d (.new 100) [0, 0, 0, 0, 0, 0, 0, 13, 0, 0])
      [0, 0, 0, 0, 0, 0, 0, 13, 0, 0] := hstart.read ⟨nofun, nofun, by decide, nofun⟩
  have hwait : (Circuit.new 100).read d [0, 0, 0, 0, 0, 0, 0, 13, 0, 0] =
      ⟨⟨[0, 0, 0, 0, 0, 0, 0, 13, 0, 0], 0, 0, 100, 0⟩, [], [], .reading⟩ :=
    Circuit.parseLoop_needMore _ rfl
  rw [hwait] at hfirst
  have hsecond : Receives d 100
      (Circuit.read d ⟨⟨[0, 0, 0, 0, 0, 0, 0, 13, 0, 0], 0, 0, 100, 0⟩, [], [], .reading⟩
        [0, 0, 0, 0, 0, 0])
      ([0, 0, 0, 0, 0, 0, 0, 13, 0, 0] ++ [0, 0, 0, 0, 0, 0]) :=
    hfirst.read ⟨nofun, nofun, by decide, nofun⟩
  have hdone : Circuit.read d ⟨⟨[0, 0, 0, 0, 0, 0, 0, 13, 0, 0], 0, 0, 100, 0⟩, [], [], .reading⟩
      [0, 0, 0, 0, 0, 0] =
      ⟨⟨[], 0, 0, 100, 1⟩, [⟨⟨0, 0, 0, 13, 0, 0, none, none⟩, []⟩],
        [.deliver ⟨0, 0, 0, 13, 0, 0, none, none⟩ []], .reading⟩ :=
    (Circuit.parseLoop_deliver _ rfl).trans (Circuit.parseLoop_needMore _ rfl)
  rw [hdone] at hsecond
  exact (framing_independent (by decide) hsecond).2.1 nofun

end Ca
