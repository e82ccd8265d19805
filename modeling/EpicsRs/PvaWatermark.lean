/-
**The watermarks of a pipelined monitor.**

The emit loop of a pipelined monitor takes credits from a window, and the dispatcher of the
connection adds those that the client acknowledges.  At the low mark the source is told to pause,
above the high mark to resume.  The parity of `wm_seq` says which was told last; odd is above.  Both
tasks decide by the window and then cross by the counter, in two steps, so the loop may cross to the
low side by what it read before an acknowledgement.

Main result: `Pva.watermark_agrees`.
-/

import EpicsRs.StepRuns

set_option autoImplicit false

namespace Pva

open StepRuns Option

/-! ### The tasks -/

/-- `cross_watermark`: the counter after the crossing, or nothing when it is on that side. -/
def crossWatermark (state : ℕ) (wantAbove : Bool) : Option ℕ :=
  if decide (state % 2 = 1) = wantAbove then none else some ((state + 1) % 2 ^ 64)

inductive WatermarkKind where
  | pause
  | resume
deriving DecidableEq, Repr

/-- `WatermarkEvent`, of one operation. -/
structure WatermarkEvent where
  seq : ℕ
  kind : WatermarkKind
deriving DecidableEq, Repr

/-- `monitor_wm`: the marks. -/
structure Levels where
  low : ℕ
  high : ℕ
  low_le_high : low ≤ high

/-- Where the emit loop is in `MonitorPipelineCredit::take`. -/
inductive EmitPc where
  | idle
  /-- A credit was taken; the window is loaded next. -/
  | taken
  /-- The window was at or below the low mark; the crossing is next. -/
  | low
deriving DecidableEq, Repr

/-- Where the dispatcher is with an acknowledgement. -/
inductive AckPc where
  | idle
  /-- The refilled window was above the high mark; the crossing is next. -/
  | high
deriving DecidableEq, Repr

/-- The shared state, where the tasks are, and the notifications so far, the last one first. -/
structure WatermarkState where
  window : ℕ
  wmSeq : ℕ
  emit : EmitPc
  ack : AckPc
  fired : List WatermarkEvent
deriving DecidableEq, Repr

/-- A new operation: `monitor_wm_seq` starts at 1. -/
def WatermarkState.start (window : ℕ) : WatermarkState := ⟨window, 1, .idle, .idle, []⟩

def WatermarkState.cross (s : WatermarkState) (wantAbove : Bool) (kind : WatermarkKind) :
    WatermarkState :=
  match crossWatermark s.wmSeq wantAbove with
  | some seq => { s with wmSeq := seq, fired := ⟨seq, kind⟩ :: s.fired }
  | none => s

inductive WatermarkAction where
  /-- The saturating decrement of `take`; with an empty window the call is over. -/
  | take
  | load
  /-- `cross_watermark(false)`. -/
  | crossLow
  /-- `refill_monitor_window`, a saturating addition. -/
  | refill (count : ℕ)
  /-- `cross_watermark(true)`. -/
  | crossHigh
deriving DecidableEq, Repr

def watermarkStep (levels : Levels) (s : WatermarkState) : WatermarkAction → Option WatermarkState
  | .take =>
      if s.emit = .idle then
        some { s with window := s.window - 1, emit := if s.window = 0 then .idle else .taken }
      else none
  | .load =>
      if s.emit = .taken then
        some { s with emit := if s.window ≤ levels.low then .low else .idle }
      else none
  | .crossLow => if s.emit = .low then some { s.cross false .pause with emit := .idle } else none
  | .refill count =>
      if s.ack = .idle then
        let window := min (s.window + count) (2 ^ 32 - 1)
        some { s with window := window, ack := if levels.high < window then .high else .idle }
      else none
  | .crossHigh => if s.ack = .high then some { s.cross true .resume with ack := .idle } else none

/-- No acknowledgement crosses while the emit loop has read the window and not crossed yet. -/
def Orderly (s : WatermarkState) (a : WatermarkAction) : Prop := a = .crossHigh → s.emit ≠ .low

def WatermarkState.Quiet (s : WatermarkState) : Prop := s.emit = .idle ∧ s.ack = .idle

variable {a : WatermarkAction} {levels : Levels}

lemma watermarkStep_cases {s t} (h : watermarkStep levels s a = some t) :
    (a = .take ∧ s.emit = .idle ∧
      t = { s with window := s.window - 1, emit := if s.window = 0 then .idle else .taken }) ∨
    (a = .load ∧ s.emit = .taken ∧
      t = { s with emit := if s.window ≤ levels.low then .low else .idle }) ∨
    (a = .crossLow ∧ s.emit = .low ∧ t = { s.cross false .pause with emit := .idle }) ∨
    (∃ count, a = .refill count ∧ s.ack = .idle ∧
      t = { s with
        window := min (s.window + count) (2 ^ 32 - 1)
        ack := if levels.high < min (s.window + count) (2 ^ 32 - 1) then .high else .idle }) ∨
    (a = .crossHigh ∧ s.ack = .high ∧ t = { s.cross true .resume with ack := .idle }) := by
  cases a <;>
    simp only [watermarkStep, ite_none_right_eq_some, some.injEq] at h <;>
    obtain ⟨hpc, rfl⟩ := h
  case take => exact Or.inl ⟨rfl, hpc, rfl⟩
  case load => exact Or.inr (Or.inl ⟨rfl, hpc, rfl⟩)
  case crossLow => exact Or.inr (Or.inr (Or.inl ⟨rfl, hpc, rfl⟩))
  case refill count => exact Or.inr (Or.inr (Or.inr (Or.inl ⟨count, rfl, hpc, rfl⟩)))
  case crossHigh => exact Or.inr (Or.inr (Or.inr (Or.inr ⟨rfl, hpc, rfl⟩)))

/-! ### Crossings -/

variable (s : WatermarkState) (wantAbove : Bool) (kind : WatermarkKind)

lemma cross_window : (s.cross wantAbove kind).window = s.window := by
  unfold WatermarkState.cross
  split <;> rfl

lemma cross_emit : (s.cross wantAbove kind).emit = s.emit := by
  unfold WatermarkState.cross
  split <;> rfl

lemma cross_ack : (s.cross wantAbove kind).ack = s.ack := by
  unfold WatermarkState.cross
  split <;> rfl

lemma cross_parity : decide ((s.cross wantAbove kind).wmSeq % 2 = 1) = wantAbove := by
  unfold WatermarkState.cross crossWatermark
  by_cases h : decide (s.wmSeq % 2 = 1) = wantAbove
  · rw [if_pos h]
    exact h
  · rw [if_neg h]
    cases wantAbove <;> simp only [decide_eq_true_eq, decide_eq_false_iff_not] at h ⊢ <;> omega

/-! ### The counter and the notifications -/

/-- The last notification is of the side of the counter, which is above before the first one. -/
def Told (s : WatermarkState) : Prop :=
  match s.fired with
  | [] => s.wmSeq % 2 = 1
  | e :: _ => e.seq = s.wmSeq ∧ (e.kind = .resume ↔ s.wmSeq % 2 = 1)

lemma Told.cross {s} (h : Told s) {wantAbove kind} (hkind : kind = .resume ↔ wantAbove = true)
    : Told (s.cross wantAbove kind) := by
  have hparity := cross_parity s wantAbove kind
  unfold WatermarkState.cross at hparity ⊢
  cases hcross : crossWatermark s.wmSeq wantAbove with
  | none => exact h
  | some seq =>
    simp only [hcross] at hparity
    refine ⟨rfl, hkind.trans ?_⟩
    rw [← hparity, decide_eq_true_eq]

lemma told_step {s t} (h : Told s) (hstep : watermarkStep levels s a = some t) :
    Told t := by
  rcases watermarkStep_cases hstep with ⟨-, -, rfl⟩ | ⟨-, -, rfl⟩ | ⟨-, -, rfl⟩ |
    ⟨count, -, -, rfl⟩ | ⟨-, -, rfl⟩
  · exact h
  · exact h
  · exact h.cross (by simp)
  · exact h
  · exact h.cross (by simp)

/-! ### Agreement -/

/-- With the window above the high mark, the counter is above or will be; and an emit loop that is
about to cross does not do so against a window above the mark, unless the dispatcher crosses
later. -/
structure Agreeing (levels : Levels) (s : WatermarkState) : Prop where
  above : levels.high < s.window → s.wmSeq % 2 = 1 ∨ s.ack = .high
  low : s.emit = .low → s.window ≤ levels.high ∨ s.ack = .high

lemma agreeing_step {s t} (h : Agreeing levels s) (horderly : Orderly s a)
    (hstep : watermarkStep levels s a = some t) :
    Agreeing levels t := by
  have hle := levels.low_le_high
  rcases watermarkStep_cases hstep with ⟨-, hpc, rfl⟩ | ⟨-, hpc, rfl⟩ | ⟨-, hpc, rfl⟩ |
    ⟨count, -, hpc, rfl⟩ | ⟨rfl, hpc, rfl⟩
  · refine ⟨fun habove => h.above ?_, fun hlow => ?_⟩
    · exact Nat.lt_of_lt_of_le habove (Nat.sub_le ..)
    · dsimp only at hlow
      split_ifs at hlow
  · refine ⟨h.above, fun hlow => Or.inl ?_⟩
    split_ifs at hlow with hwindow
    exact Nat.le_trans hwindow hle
  · -- the crossing to the low side: the dispatcher is not done if the window is above the mark
    refine ⟨fun habove => Or.inr ?_, fun hlow => by cases hlow⟩
    rw [cross_window] at habove
    rw [cross_ack]
    exact (h.low hpc).resolve_left (Nat.not_le_of_lt habove)
  · refine ⟨fun habove => Or.inr (if_pos habove), fun _ => ?_⟩
    by_cases habove : levels.high < min (s.window + count) (2 ^ 32 - 1)
    · exact Or.inr (if_pos habove)
    · exact Or.inl (Nat.le_of_not_lt habove)
  · refine ⟨fun _ => Or.inl ?_, fun hlow => absurd ?_ (horderly rfl)⟩
    · exact of_decide_eq_true (cross_parity s true .resume)
    · rw [cross_emit] at hlow
      exact hlow

/-- **In an orderly run the source is not left paused**: when neither task is inside a call, a window
above the high mark means that the counter is odd, and that the last notification is not a
pause. -/
theorem watermark_agrees (levels : Levels) (window : ℕ) {actions : List WatermarkAction}
    {s : WatermarkState}
    (hrun : run (watermarkStep levels) actions (WatermarkState.start window) = some s)
    (horderly : Along (watermarkStep levels) Orderly actions (WatermarkState.start window))
    (hquiet : s.Quiet) (habove : levels.high < s.window) :
    s.wmSeq % 2 = 1 ∧ ∀ e, s.fired.head? = some e → e.kind = .resume := by
  have hagree : Agreeing levels s := by
    refine run_invariant (fun s a t hs ha hstep => agreeing_step hs ha hstep) actions _ s ?_
      horderly hrun
    exact ⟨fun _ => Or.inl rfl, fun hlow => by cases hlow⟩
  have hstart : Told (WatermarkState.start window) := rfl
  have htold : Told s := run_invariant (fun s a t hs _ hstep => told_step hs hstep) actions _ s
    hstart (along_true actions _) hrun
  have hodd : s.wmSeq % 2 = 1 := (hagree.above habove).resolve_right (by rw [hquiet.2]; decide)
  refine ⟨hodd, fun e he => ?_⟩
  unfold Told at htold
  cases hfired : s.fired with
  | nil => simp [hfired] at he
  | cons e' es =>
    rw [hfired] at htold he
    obtain rfl := some.inj he
    exact htold.2.2 hodd

def narrowLevels : Levels := ⟨1, 2, by decide⟩

/-- The emit loop drains the window to the low mark and crosses; the client then acknowledges five
updates. -/
def inTurn : List WatermarkAction := [.take, .load, .crossLow, .refill 5, .crossHigh]

/-- The acknowledgement falls between the load of the window and the crossing. -/
def between : List WatermarkAction := [.take, .load, .refill 5, .crossHigh, .crossLow]

theorem watermark_agrees_in_turn :
    ∃ s, run (watermarkStep narrowLevels) inTurn (WatermarkState.start 2) = some s ∧ s.Quiet ∧
      narrowLevels.high < s.window ∧ s.wmSeq % 2 = 1 ∧
      ∀ e, s.fired.head? = some e → e.kind = .resume := by
  have hrun : run (watermarkStep narrowLevels) inTurn (WatermarkState.start 2) =
      some ⟨6, 3, .idle, .idle, [⟨3, .resume⟩, ⟨2, .pause⟩]⟩ := by decide
  have horderly : Along (watermarkStep narrowLevels) Orderly inTurn (WatermarkState.start 2) := by
    simp [inTurn, Along, Orderly, watermarkStep, WatermarkState.start, narrowLevels,
      WatermarkState.cross, crossWatermark]
  exact ⟨_, hrun, ⟨rfl, rfl⟩, by decide,
    watermark_agrees narrowLevels 2 hrun horderly ⟨rfl, rfl⟩ (by decide)⟩

/-- **A run that is not orderly leaves the source paused**: the acknowledgement finds the counter
odd, and the loop crosses to the low side behind it. -/
theorem watermark_disagrees :
    run (watermarkStep narrowLevels) between (WatermarkState.start 2) =
        some ⟨6, 2, .idle, .idle, [⟨2, .pause⟩]⟩ ∧
      narrowLevels.high < 6 := by
  decide

end Pva
