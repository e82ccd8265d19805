/-
**The depth count is sound on straight-line code.**

A source without a `?` compiles to a program with one way through it.  As long as that way has not
read a missing value, the compiler's count is the height of the evaluator's stack: an operator that
leaves the operator stack has as many values below it as it pops.  When the way is dropped, the
source is refused at its end.

Main result: `Calc.compile_straight_sound`.
-/

import EpicsRs.CalcCompile

set_option autoImplicit false

namespace Calc

open List Option

section Straight

variable {F : Type} {A : Arith F}

/-! ### One instruction -/

/-- A machine whose stack has `n` values and never overflowed. -/
structure Height (n : ℕ) (m : Machine F) : Prop where
  length_eq : m.stack.items.length = n
  fits : m.stack.overflowed = false

variable {m : Machine F} {n : ℕ}

lemma Height.push (h : Height n m) (hn : n < stackSize) (v : F) :
    Height (n + 1) (m.push v) := by
  have hlt : m.stack.items.length < stackSize := by rw [h.length_eq]; exact hn
  have hpush : (m.push v).stack = { m.stack with items := v :: m.stack.items } := if_pos hlt
  refine ⟨?_, ?_⟩
  · rw [hpush, length_cons, h.length_eq]
  · rw [hpush]
    exact h.fits

lemma Height.withItems {k items} (h : Height n m) (hitems : items.length = k) :
    Height k (m.withItems items) :=
  ⟨hitems, h.fits⟩

lemma Height.setArg (h : Height n m) (i : Fin 21) (v : F) :
    Height n (m.setArg i v) := by
  unfold Machine.setArg
  split_ifs
  · exact ⟨h.length_eq, h.fits⟩
  · exact h

def Op.pops : Op F → ℕ
  | .unary _ | .store _ => 1
  | .binary _ => 2
  | .vararg _ n => n.toNat
  | _ => 0

def Op.Counted : Op F → Prop
  | .vararg _ n => 0 < n.toNat
  | _ => True

def Op.pushed : Op F → ℕ
  | .store _ | .condIf | .condElse | .condEnd => 0
  | _ => 1

lemma Vararg.eval_isSome (f : Vararg) {items} (hn : 0 < n) (hlen : n ≤ items.length) :
    ∃ v, f.eval A n items = some v := by
  cases items with
  | nil =>
    simp only [length_nil] at hlen
    omega
  | cons a rest => cases f <;> exact ⟨_, rfl⟩

variable {op : Op F}

/-- **An instruction that finds its operands runs**, and the stack has then the height that its
pops and pushes say. -/
theorem exec_height (hm : Height n m) (hn : n < stackSize) (hpops : op.pops ≤ n)
    (hcount : op.Counted) :
    ∃ m', exec A op m = .ok m' ∧ Height (n - op.pops + op.pushed) m' := by
  have hlen := hm.length_eq
  cases op with
  | lit v => exact ⟨_, rfl, hm.push hn v⟩
  | fetchVal => exact ⟨_, rfl, hm.push hn _⟩
  | fetch i => exact ⟨_, rfl, hm.push hn _⟩
  | const c => exact ⟨_, rfl, hm.push hn _⟩
  | random =>
    refine ⟨_, rfl, ?_⟩
    have hpush := hm.push hn (A.random m.drawn)
    exact ⟨hpush.length_eq, hpush.fits⟩
  | unary u =>
    simp only [Op.pops] at hpops
    cases hitems : m.stack.items with
    | nil => rw [hitems, length_nil] at hlen; omega
    | cons a rest =>
      rw [hitems, length_cons] at hlen
      refine ⟨_, by simp only [exec, hitems]; rfl, ?_⟩
      exact (hm.withItems (k := n - 1) (by omega)).push (by omega) _
  | binary b =>
    simp only [Op.pops] at hpops
    match hitems : m.stack.items with
    | [] => rw [hitems, length_nil] at hlen; omega
    | [a] => rw [hitems, length_singleton] at hlen; omega
    | y :: x :: rest =>
      rw [hitems, length_cons, length_cons] at hlen
      refine ⟨_, by simp only [exec, hitems]; rfl, ?_⟩
      exact (hm.withItems (k := n - 2) (by omega)).push (by omega) _
  | vararg f k =>
    simp only [Op.pops] at hpops
    have hk : 0 < k.toNat := hcount
    obtain ⟨v, hv⟩ : ∃ v, f.eval A k.toNat m.stack.items = some v :=
      f.eval_isSome hk (by omega)
    have hlt : ¬ m.stack.items.length < k.toNat := by omega
    refine ⟨_, by simp only [exec, if_neg hlt, hv]; rfl, ?_⟩
    refine (hm.withItems (k := n - k.toNat) ?_).push (by omega) v
    rw [length_drop]
    omega
  | store i =>
    simp only [Op.pops] at hpops
    cases hitems : m.stack.items with
    | nil => rw [hitems, length_nil] at hlen; omega
    | cons v rest =>
      rw [hitems, length_cons] at hlen
      refine ⟨_, by simp only [exec, hitems]; rfl, ?_⟩
      exact (hm.withItems (k := n - 1) (by omega)).setArg i v
  | condIf => exact ⟨m, rfl, hm⟩
  | condElse => exact ⟨m, rfl, hm⟩
  | condEnd => exact ⟨m, rfl, hm⟩

/-! ### The invariant -/

/-- **The count is the height of the stack** after every run of the program so far; the one way
through it has read no missing value. -/
structure Alive (A : Arith F) (s : Compiler F) : Prop where
  path : ∃ p, s.holes.paths = [p] ∧ p.off = 0 ∧ ∀ h ∈ p.holes, 0 ≤ h.depth
  runs : ∃ n : ℕ, s.depth = n ∧ ∀ m : Machine F, Height 0 m →
    ∃ m', execAll A (s.output.map (Op.stored A)) m = .ok m' ∧ Height n m'

/-- The one way through the program has read a missing value. -/
def Dropped (s : Compiler F) : Prop := s.holes.paths = [] ∧ s.holes.read = true

/-- An entry of the operator stack that is no part of a conditional. -/
def Plain : StackEntry → Prop
  | .condEnd => False
  | .func f => f.isVararg = false
  | .vararg f e => f.isVararg = true ∧ e ≤ 0
  | .lparen e _ _ => e ≤ 0
  | _ => True

/-- **The compiler's state while no `?` was read**: the count is right, or the source is bound to
be refused. -/
structure Inv (A : Arith F) (s : Compiler F) : Prop where
  conds : s.conds = []
  arms : s.holes.arms = []
  lost : s.holes.lost = false
  straight : ∀ op ∈ s.output, op.straight = true
  state : Alive A s ∨ Dropped s

lemma Op.stored_pops (op : Op F) : (op.stored A).pops = op.pops := by
  cases op with
  | lit v =>
    simp only [Op.stored]
    split_ifs <;> rfl
  | _ => rfl

lemma Op.stored_pushed (op : Op F) : (op.stored A).pushed = op.pushed := by
  cases op with
  | lit v =>
    simp only [Op.stored]
    split_ifs <;> rfl
  | _ => rfl

lemma Op.stored_straight (h : op.straight = true) : (op.stored A).straight = true := by
  cases op with
  | lit v =>
    simp only [Op.stored]
    split_ifs <;> rfl
  | _ => exact h

lemma Op.stored_counted (h : op.Counted) : (op.stored A).Counted := by
  cases op with
  | lit v =>
    simp only [Op.stored]
    split_ifs <;> trivial
  | _ => exact h

variable {ops : List (Op F)}

lemma execAll_concat
    (hruns : ∀ m : Machine F, Height 0 m →
      ∃ m', execAll A (ops.map (Op.stored A)) m = .ok m' ∧ Height n m')
    (hlt : n < stackSize) (hpops : op.pops ≤ n) (hcount : op.Counted) (m : Machine F)
    (hm : Height 0 m) :
    ∃ m', execAll A ((ops ++ [op]).map (Op.stored A)) m = .ok m' ∧
      Height (n - op.pops + op.pushed) m' := by
  obtain ⟨m₁, hrun, hm₁⟩ := hruns m hm
  have hstored : (op.stored A).pops ≤ n := by rw [Op.stored_pops]; exact hpops
  obtain ⟨m₂, hexec, hm₂⟩ := exec_height hm₁ hlt hstored (Op.stored_counted hcount)
  refine ⟨m₂, ?_, ?_⟩
  · rw [map_append, execAll_append, hrun]
    show execAll A [op.stored A] m₁ = .ok m₂
    rw [execAll, hexec]
    rfl
  · rw [Op.stored_pops, Op.stored_pushed] at hm₂
    exact hm₂

lemma FuncName.opcode_of_isVararg {f : FuncName} (hf : f.isVararg = true) (n : UInt8) :
    ∃ v, (f.opcode n : Op F) = .vararg v n := by
  cases f <;> first | exact ⟨_, rfl⟩ | simp [FuncName.isVararg, FuncName.kind] at hf

lemma FuncName.opcode_of_not_isVararg {f : FuncName} (hf : f.isVararg = false) (n : UInt8) :
    (∃ u, (f.opcode n : Op F) = .unary u ∧ f.arity = 1) ∨
      ∃ b, (f.opcode n : Op F) = .binary b ∧ f.arity = 2 := by
  cases f <;>
    first
      | exact .inl ⟨_, rfl, rfl⟩
      | exact .inr ⟨_, rfl, rfl⟩
      | simp [FuncName.isVararg, FuncName.kind] at hf

variable {e : StackEntry}

/-- **The instruction of an entry pops and pushes what the entry's effect says.**  For a function
of any number of operands the count must fit into its byte. -/
theorem opcode_spec (he : Plain e) (hbar : e.isBarrier = false)
    (hsmall : e.pushes - e.effect < 256) :
    ∃ op : Op F, e.opcode = some op ∧ op.straight = true ∧ op.Counted ∧
      (op.pops : ℤ) = e.pushes - e.effect ∧ (op.pushed : ℤ) = e.pushes := by
  cases e with
  | neg => exact ⟨_, rfl, rfl, trivial, rfl, rfl⟩
  | bang => exact ⟨_, rfl, rfl, trivial, rfl, rfl⟩
  | tilde => exact ⟨_, rfl, rfl, trivial, rfl, rfl⟩
  | func f =>
    rcases FuncName.opcode_of_not_isVararg (F := F) he 1 with ⟨u, hop, har⟩ | ⟨b, hop, har⟩
    · exact ⟨.unary u, congrArg some hop, rfl, trivial,
        by simp [StackEntry.effect, StackEntry.pushes, har, Op.pops], rfl⟩
    · exact ⟨.binary b, congrArg some hop, rfl, trivial,
        by simp [StackEntry.effect, StackEntry.pushes, har, Op.pops], rfl⟩
  | oper o => exact ⟨_, rfl, rfl, trivial, rfl, rfl⟩
  | sub => exact ⟨_, rfl, rfl, trivial, rfl, rfl⟩
  | lparen effect span args => simp [StackEntry.isBarrier] at hbar
  | vararg f effect =>
    obtain ⟨hf, heffect⟩ := he
    simp only [StackEntry.effect, StackEntry.pushes] at hsmall ⊢
    obtain ⟨v, hop⟩ :=
      FuncName.opcode_of_isVararg (F := F) hf (UInt8.ofNat ((1 - effect) % 256).toNat)
    have hn : ((UInt8.ofNat ((1 - effect) % 256).toNat).toNat : ℤ) = 1 - effect := by
      rw [UInt8.toNat_ofNat']
      omega
    refine ⟨_, congrArg some hop, rfl, ?_, hn, rfl⟩
    show 0 < (UInt8.ofNat ((1 - effect) % 256).toNat).toNat
    omega
  | condEnd => exact he.elim
  | store i => exact ⟨_, rfl, rfl, trivial, rfl, rfl⟩

lemma Path.floor_nonneg {p : Path} (h : ∀ x ∈ p.holes, 0 ≤ x.depth) : 0 ≤ p.floor := by
  unfold Path.floor
  cases hmax : (p.holes.map Hole.depth).max? with
  | none => exact le_refl 0
  | some d =>
    obtain ⟨x, hx, rfl⟩ := mem_map.1 (max?_mem hmax)
    exact h x hx

lemma opcode_straight (he : Plain e) (hop : e.opcode = some op) :
    op.straight = true := by
  cases e with
  | func f =>
    rcases FuncName.opcode_of_not_isVararg (F := F) he 1 with ⟨u, hf, -⟩ | ⟨b, hf, -⟩
    · rw [← some.inj hop, hf]; rfl
    · rw [← some.inj hop, hf]; rfl
  | vararg f effect =>
    obtain ⟨v, hf⟩ :=
      FuncName.opcode_of_isVararg (F := F) he.1 (UInt8.ofNat ((1 - effect) % 256).toNat)
    rw [← some.inj hop, hf]; rfl
  | condEnd => exact he.elim
  | lparen effect span args => cases hop
  | _ => rw [← some.inj hop]; rfl

variable {s t : Compiler F}

lemma Inv.congr (h : Inv A s) (houtput : t.output = s.output) (hdepth : t.depth = s.depth)
    (hholes : t.holes = s.holes) (hconds : t.conds = s.conds) :
    Inv A t := by
  refine ⟨?_, ?_, ?_, ?_, ?_⟩
  · rw [hconds]; exact h.conds
  · rw [hholes]; exact h.arms
  · rw [hholes]; exact h.lost
  · rw [houtput]; exact h.straight
  · rcases h.state with hs | hs
    · refine .inl ⟨?_, ?_⟩
      · rw [hholes]; exact hs.path
      · rw [houtput, hdepth]; exact hs.runs
    · refine .inr ?_
      unfold Dropped
      rw [hholes]
      exact hs

/-! ### Operators leave the stack -/

def afterPop (holes : Holes) (e : StackEntry) (depth : ℤ) : Holes :=
  match e with
  | .store _ => holes.store depth
  | _ => holes

lemma flush_holes (he : Plain e) :
    (s.flush e).holes =
      afterPop (s.holes.take s.depth (e.pushes - e.effect)) e (s.depth + e.effect) := by
  cases e with
  | condEnd => exact he.elim
  | _ => rfl

lemma flush_depth :
    (s.flush e).depth = s.depth + e.effect := by
  unfold Compiler.flush
  cases e.opcode (F := F) <;> rfl

lemma flush_conds : (s.flush e).conds = s.conds := by
  unfold Compiler.flush
  cases e.opcode (F := F) <;> rfl

lemma flush_output (hop : e.opcode = some op) :
    (s.flush e).output = s.output ++ [op] := by
  unfold Compiler.flush
  rw [hop]
  rfl

lemma afterPop_arms (holes : Holes) (e : StackEntry) (depth : ℤ) :
    (afterPop holes e depth).arms = holes.arms := by
  cases e <;> rfl

lemma afterPop_lost (holes : Holes) (e : StackEntry) (depth : ℤ) :
    (afterPop holes e depth).lost = holes.lost := by
  cases e <;> rfl

lemma afterPop_read (holes : Holes) (e : StackEntry) (depth : ℤ) :
    (afterPop holes e depth).read = holes.read := by
  cases e <;> rfl

lemma afterPop_nil {holes} (h : holes.paths = []) (e : StackEntry) (depth : ℤ) :
    (afterPop holes e depth).paths = [] := by
  cases e with
  | store i =>
    show holes.paths.map _ = []
    rw [h]
    rfl
  | _ => exact h

lemma afterPop_singleton {holes p} (h : holes.paths = [p]) (hoff : p.off = 0)
    (hholes : ∀ x ∈ p.holes, 0 ≤ x.depth) (e : StackEntry) {depth} (hdepth : 0 ≤ depth) :
    ∃ q, (afterPop holes e depth).paths = [q] ∧ q.off = 0 ∧ ∀ x ∈ q.holes, 0 ≤ x.depth := by
  cases e with
  | store i =>
    refine ⟨{ p with holes := p.holes ++ [.store (depth + p.off)] }, ?_, hoff, ?_⟩
    · show holes.paths.map _ = _
      rw [h]
      rfl
    · intro x hx
      rcases mem_append.1 hx with hx | hx
      · exact hholes x hx
      · rw [mem_singleton.1 hx]
        show 0 ≤ depth + p.off
        omega
  | _ => exact ⟨p, h, hoff, hholes⟩

lemma take_singleton {holes : Holes} {p} (h : holes.paths = [p]) (depth pops : ℤ) :
    (depth + p.off - p.floor < pops ∧ (holes.take depth pops).paths = [] ∧
        (holes.take depth pops).read = true) ∨
      (pops ≤ depth + p.off - p.floor ∧ (holes.take depth pops).paths = [p]) := by
  simp only [Holes.take, Holes.dropReads, h]
  by_cases hlt : depth + p.off - p.floor < pops
  · exact .inl ⟨hlt, by simp [hlt], by simp [hlt]⟩
  · exact .inr ⟨not_lt.1 hlt, by simp [hlt]⟩

lemma Dropped.take {holes : Holes} (hpaths : holes.paths = []) (hread : holes.read = true)
    (depth pops : ℤ) :
    (holes.take depth pops).paths = [] ∧ (holes.take depth pops).read = true := by
  simp [Holes.take, Holes.dropReads, hpaths, hread]

/-- **An operator that leaves the stack finds its operands**, or the way through the program is
dropped. -/
theorem Alive.flush (h : Alive A s) (hlt : s.depth < (stackSize : ℤ)) (he : Plain e)
    (hbar : e.isBarrier = false) :
    Alive A (s.flush e) ∨ Dropped (s.flush e) := by
  obtain ⟨p, hp, hoff, hdepths⟩ := h.path
  obtain ⟨n, hn, hruns⟩ := h.runs
  rcases take_singleton hp s.depth (e.pushes - e.effect) with ⟨-, hnil, hread⟩ | ⟨hpops, hkept⟩
  · right
    refine ⟨?_, ?_⟩
    · rw [flush_holes he]
      exact afterPop_nil hnil e _
    · rw [flush_holes he, afterPop_read]
      exact hread
  · left
    have hfloor := p.floor_nonneg hdepths
    have hsize : stackSize = 80 := rfl
    obtain ⟨op, hop, -, hcounted, hopops, hpushed⟩ :=
      opcode_spec (F := F) he hbar (by omega)
    refine ⟨?_, n - op.pops + op.pushed, ?_, ?_⟩
    · rw [flush_holes he]
      exact afterPop_singleton hkept hoff hdepths e (by omega)
    · rw [flush_depth]
      omega
    · intro m hm
      rw [flush_output hop]
      exact execAll_concat hruns (by omega) (by omega) hcounted m hm

lemma flush_inv (h : Inv A s) (hlt : s.depth < (stackSize : ℤ)) (he : Plain e)
    (hbar : e.isBarrier = false) :
    Inv A (s.flush e) := by
  refine ⟨?_, ?_, ?_, ?_, ?_⟩
  · rw [flush_conds]; exact h.conds
  · rw [flush_holes he, afterPop_arms]; exact h.arms
  · rw [flush_holes he, afterPop_lost]; exact h.lost
  · intro op hmem
    cases hop : e.opcode (F := F) with
    | none =>
      unfold Compiler.flush at hmem
      rw [hop] at hmem
      exact h.straight op hmem
    | some op' =>
      rw [flush_output hop] at hmem
      rcases mem_append.1 hmem with hmem | hmem
      · exact h.straight op hmem
      · rw [mem_singleton.1 hmem]
        exact opcode_straight he hop
  · rcases h.state with hs | ⟨hnil, hread⟩
    · exact hs.flush hlt he hbar
    · have htake := Dropped.take hnil hread s.depth (e.pushes - e.effect)
      refine .inr ⟨?_, ?_⟩
      · rw [flush_holes he]
        exact afterPop_nil htake.1 e _
      · rw [flush_holes he, afterPop_read]
        exact htake.2

lemma effect_nonpos (he : Plain e) : e.effect ≤ 0 := by
  cases e with
  | func f =>
    rcases FuncName.opcode_of_not_isVararg (F := Unit) he 1 with ⟨u, -, har⟩ | ⟨b, -, har⟩
    · simp [StackEntry.effect, har]
    · simp [StackEntry.effect, har]
  | vararg f effect => exact he.2
  | lparen effect span args => exact he
  | condEnd => exact he.elim
  | _ => simp [StackEntry.effect]

/-- **The compiler between two elements**: its invariant, plain entries on the operator stack, and
room on the evaluator's. -/
structure Ready (A : Arith F) (s : Compiler F) : Prop where
  inv : Inv A s
  plain : ∀ e ∈ s.stack, Plain e
  room : s.depth < (stackSize : ℤ)

lemma popWhile_ready {p} (hp : ∀ e, p e = true → e.isBarrier = false) {l} (hinv : Inv A s)
    (hroom : s.depth < (stackSize : ℤ)) (hl : ∀ e ∈ l, Plain e)
    : Ready A (Compiler.popWhile p l s) := by
  induction l generalizing s with
  | nil => exact ⟨hinv.congr rfl rfl rfl rfl, hl, hroom⟩
  | cons e rest ih =>
    unfold Compiler.popWhile
    split_ifs with hpe
    · have he : Plain e := hl e mem_cons_self
      have hdepth : (s.flush e).depth < (stackSize : ℤ) := by
        rw [flush_depth]
        have := effect_nonpos he
        omega
      exact ih (flush_inv hinv hroom he (hp e hpe)) hdepth
        fun e' h => hl e' (mem_cons_of_mem _ h)
    · exact ⟨hinv.congr rfl rfl rfl rfl, hl, hroom⟩

lemma Ready.popHigherOrEqual (h : Ready A s) (pri : ℕ) :
    Ready A (s.popHigherOrEqual pri) :=
  popWhile_ready (fun e he => by simp at he; exact he.1) h.inv h.room h.plain

lemma Ready.popToBarrier (h : Ready A s) : Ready A s.popToBarrier :=
  popWhile_ready (fun e he => by simpa using he) h.inv h.room h.plain

lemma Ready.push (h : Ready A s) (he : Plain e) (hstack : t.stack = e :: s.stack)
    (houtput : t.output = s.output) (hdepth : t.depth = s.depth) (hholes : t.holes = s.holes)
    (hconds : t.conds = s.conds) : Ready A t := by
  refine ⟨h.inv.congr houtput hdepth hholes hconds, ?_, ?_⟩
  · rw [hstack]
    intro e' he'
    rcases mem_cons.1 he' with rfl | he'
    · exact he
    · exact h.plain e' he'
  · rw [hdepth]; exact h.room

/-! ### Operands -/

lemma literal_inv (h : Ready A s) (hstraight : op.straight = true) (hpops : op.pops = 0)
    (hpushed : op.pushed = 1) (hcount : op.Counted) :
    Inv A (s.literal op) := by
  refine ⟨h.inv.conds, h.inv.arms, h.inv.lost, ?_, ?_⟩
  · intro op' hmem
    rcases mem_append.1 hmem with hmem | hmem
    · exact h.inv.straight op' hmem
    · rw [mem_singleton.1 hmem]; exact hstraight
  · rcases h.inv.state with hs | hs
    · obtain ⟨n, hn, hruns⟩ := hs.runs
      have hroom := h.room
      refine .inl ⟨hs.path, n + 1, ?_, ?_⟩
      · show s.depth + 1 = _
        rw [hn]; rfl
      · intro m hm
        have hrun := execAll_concat hruns (by omega) (by omega) hcount m hm
        rw [hpops, hpushed] at hrun
        exact hrun
    · exact .inr hs

lemma Inv.mapPaths (h : Inv A s) (f : Path → Path) (hoff : ∀ p, (f p).off = p.off)
    (hholes : ∀ p, ∀ x ∈ (f p).holes, x ∈ p.holes) (hpaths : t.holes.paths = s.holes.paths.map f)
    (hread : t.holes.read = s.holes.read) (hlost : t.holes.lost = s.holes.lost)
    (harms : t.holes.arms = s.holes.arms) (houtput : t.output = s.output)
    (hdepth : t.depth = s.depth) (hconds : t.conds = s.conds) :
    Inv A t := by
  refine ⟨?_, ?_, ?_, ?_, ?_⟩
  · rw [hconds]; exact h.conds
  · rw [harms]; exact h.arms
  · rw [hlost]; exact h.lost
  · rw [houtput]; exact h.straight
  · rcases h.state with hs | ⟨hnil, hr⟩
    · obtain ⟨p, hp, hzero, hdepths⟩ := hs.path
      refine .inl ⟨⟨f p, ?_, ?_, ?_⟩, ?_⟩
      · rw [hpaths, hp]; rfl
      · rw [hoff]; exact hzero
      · intro x hx
        exact hdepths x (hholes p x hx)
      · rw [houtput, hdepth]; exact hs.runs
    · refine .inr ⟨?_, ?_⟩
      · rw [hpaths, hnil]; rfl
      · rw [hread]; exact hr

lemma closePath_off (span : ℕ) (depth : ℤ) (p : Path) :
    (Holes.closePath span depth p).off = p.off := by
  unfold Holes.closePath
  cases p.spanStart span with
  | none => rfl
  | some start =>
    simp only
    split_ifs <;> rfl

lemma mem_holes_of_mem_closePath {span depth p x} (h : x ∈ (Holes.closePath span depth p).holes)
    : x ∈ p.holes := by
  unfold Holes.closePath at h
  cases hspan : p.spanStart span with
  | none =>
    rw [hspan] at h
    exact h
  | some start =>
    simp only [hspan] at h
    split_ifs at h with hlt
    · rcases mem_append.1 h with h | h
      · exact mem_of_mem_take h
      · exact mem_of_mem_drop (mem_of_mem_filter h)
    · exact h

lemma opening_inv (h : Inv A s) (depth : ℤ) (hholes : t.holes = s.holes.opening depth)
    (houtput : t.output = s.output) (hdepth : t.depth = s.depth) (hconds : t.conds = s.conds) :
    Inv A t := by
  refine h.mapPaths
    (fun p => { p with spans := p.spans ++ [(s.holes.next, depth + p.off, p.holes.length)] })
    (fun _ => rfl) (fun _ _ hx => hx) ?_ ?_ ?_ ?_ houtput hdepth hconds
  all_goals rw [hholes]; rfl

lemma close_inv (h : Inv A s) (span : ℕ) (depth : ℤ) (hholes : t.holes = s.holes.close span depth)
    (houtput : t.output = s.output) (hdepth : t.depth = s.depth) (hconds : t.conds = s.conds) :
    Inv A t := by
  refine h.mapPaths (Holes.closePath span depth) (closePath_off span depth)
    (fun _ _ hx => mem_holes_of_mem_closePath hx) ?_ ?_ ?_ ?_ houtput hdepth hconds
  all_goals rw [hholes]; rfl

/-- What an element leaves before its depth is checked. -/
structure Kept (A : Arith F) (s : Compiler F) : Prop where
  inv : Inv A s
  plain : ∀ e ∈ s.stack, Plain e

lemma Ready.kept (h : Ready A s) : Kept A s := ⟨h.inv, h.plain⟩

lemma operand_kept {tok} (h : Ready A s) (hstep : s.operand tok = .ok t) :
    Kept A t := by
  have hprefix : ∀ {e : StackEntry}, Plain e → Kept A (s.prefixEntry e) := by
    intro e he
    have hpushed : Ready A (s.prefixEntry e) :=
      (h.popHigherOrEqual 10).push he rfl rfl rfl rfl rfl
    exact hpushed.kept
  have hliteral : ∀ {op : Op F}, op.straight = true → op.pops = 0 → op.pushed = 1 → op.Counted →
      Kept A (s.literal op) := fun hs hpops hpushed hcount =>
    ⟨literal_inv h hs hpops hpushed hcount, h.plain⟩
  cases tok with
  | number v => cases hstep; exact hliteral rfl rfl rfl trivial
  | var i => cases hstep; exact hliteral rfl rfl rfl trivial
  | fetchVal => cases hstep; exact hliteral rfl rfl rfl trivial
  | rndm => cases hstep; exact hliteral rfl rfl rfl trivial
  | const c => cases hstep; exact hliteral rfl rfl rfl trivial
  | minus => cases hstep; exact hprefix trivial
  | bang => cases hstep; exact hprefix trivial
  | tilde => cases hstep; exact hprefix trivial
  | lparen =>
    cases hstep
    refine ⟨opening_inv h.inv s.depth rfl rfl rfl rfl, ?_⟩
    intro e he
    rcases mem_cons.1 he with rfl | he
    · exact le_refl (0 : ℤ)
    · exact h.plain e he
  | func f =>
    cases hstep
    cases hf : f.isVararg with
    | true => exact hprefix ⟨hf, le_refl 0⟩
    | false => exact hprefix hf
  | _ => cases hstep

/-! ### Operators -/

lemma Plain.inherit {effect} (heffect : effect ≤ 0) {l} (hl : ∀ e ∈ l, Plain e)
    : ∀ e ∈ Compiler.inherit effect l, Plain e := by
  cases l with
  | nil => exact hl
  | cons e rest =>
    cases e with
    | vararg f old =>
      intro e he
      rcases mem_cons.1 he with rfl | he
      · exact ⟨(hl _ mem_cons_self).1, heffect⟩
      · exact hl e (mem_cons_of_mem _ he)
    | _ => exact hl

lemma rparen_kept (h : Ready A s) (hstep : s.rparen = .ok t) : Kept A t := by
  have hpop := h.popToBarrier
  unfold Compiler.rparen at hstep
  cases hstack : s.popToBarrier.stack with
  | nil => simp only [hstack] at hstep; cases hstep
  | cons e rest =>
    cases e with
    | lparen effect span args =>
      simp only [hstack] at hstep
      cases hstep
      have hplain := hpop.plain
      rw [hstack] at hplain
      refine ⟨close_inv hpop.inv span _ rfl rfl rfl rfl, ?_⟩
      exact Plain.inherit (hplain _ mem_cons_self)
        fun e' h' => hplain e' (mem_cons_of_mem _ h')
    | _ => simp only [hstack] at hstep; cases hstep

lemma comma_kept (h : Ready A s) (hstep : s.comma = .ok t) : Kept A t := by
  have hpop := h.popToBarrier
  unfold Compiler.comma at hstep
  cases hstack : s.popToBarrier.stack with
  | nil => simp only [hstack] at hstep; cases hstep
  | cons e rest =>
    cases e with
    | lparen effect span args =>
      simp only [hstack] at hstep
      have hplain := hpop.plain
      rw [hstack] at hplain
      -- the parenthesis is charged one more argument
      have hcharged : ∀ span', ∀ e' ∈ StackEntry.lparen (effect - 1) span' args :: rest,
          Plain e' := by
        intro span' e' he'
        rcases mem_cons.1 he' with rfl | he'
        · have heffect : effect ≤ 0 := hplain _ mem_cons_self
          show effect - 1 ≤ 0
          omega
        · exact hplain e' (mem_cons_of_mem _ he')
      split_ifs at hstep with hargs
      · cases hstep
        have hclosed : Inv A { s.popToBarrier with
            holes := s.popToBarrier.holes.close span s.popToBarrier.depth } :=
          close_inv hpop.inv span _ rfl rfl rfl rfl
        exact ⟨opening_inv hclosed _ rfl rfl rfl rfl, hcharged _⟩
      · cases hstep
        exact ⟨hpop.inv.congr rfl rfl rfl rfl, hcharged _⟩
    | _ => simp only [hstack] at hstep; cases hstep

lemma colon_error (h : Ready A s) :
    s.colon = .error .conditional := by
  have hpop : Ready A (s.popHigherStrict 0) :=
    popWhile_ready (fun e he => by simp at he; exact he.1) h.inv h.room h.plain
  have hconds : ((s.popHigherStrict 0).emit .condElse).conds = [] := hpop.inv.conds
  unfold Compiler.colon
  simp only [hconds]

lemma semicolon_kept (h : Ready A s) (hstep : s.semicolon = .ok t) :
    Kept A t := by
  have hpop := h.popToBarrier
  unfold Compiler.semicolon at hstep
  cases hstack : s.popToBarrier.stack with
  | cons e rest => simp only [hstack] at hstep; cases hstep
  | nil =>
    simp only [hstack] at hstep
    split_ifs at hstep
    cases hstep
    exact ⟨hpop.inv.congr rfl rfl rfl rfl, by simp⟩

lemma lastFetch_eq_some {i} (h : s.lastFetch = some i) :
    s.output = s.output.dropLast ++ [.fetch i] := by
  unfold Compiler.lastFetch at h
  split_ifs at h
  cases hlast : s.output.getLast? with
  | none => rw [hlast] at h; cases h
  | some op =>
    rw [hlast] at h
    have hop : op = .fetch i := by
      cases op <;> first | (cases h; done) | (cases h; rfl)
    rw [← hop]
    exact (dropLast_append_getLast? op hlast).symm

/-- **A fetch that is retracted had pushed one value.** -/
theorem execAll_retract {i m'}
    (hrun : execAll A ((ops ++ [Op.fetch i]).map (Op.stored A)) m = .ok m') (hm' : Height n m') :
    ∃ m₁, execAll A (ops.map (Op.stored A)) m = .ok m₁ ∧ 0 < n ∧ Height (n - 1) m₁ := by
  rw [map_append, execAll_append] at hrun
  cases hfirst : execAll A (ops.map (Op.stored A)) m with
  | error e => rw [hfirst] at hrun; cases hrun
  | ok m₁ =>
    rw [hfirst] at hrun
    have hpushed : m' = m₁.push (m₁.numArg A i) := (Except.ok.inj hrun).symm
    refine ⟨m₁, rfl, ?_⟩
    have hlen := hm'.length_eq
    have hfits := hm'.fits
    rw [hpushed] at hlen hfits
    simp only [Machine.push, Stack.push] at hlen hfits
    split_ifs at hlen hfits with hroom
    rw [length_cons] at hlen
    exact ⟨by omega, by omega, hfits⟩

lemma assign_kept (h : Ready A s) (hstep : s.assign = .ok t) : Kept A t := by
  unfold Compiler.assign at hstep
  split_ifs at hstep with hstack
  cases hfetch : s.lastFetch with
  | none => rw [hfetch] at hstep; cases hstep
  | some i =>
    rw [hfetch] at hstep
    cases hstep
    have houtput := lastFetch_eq_some hfetch
    refine ⟨⟨h.inv.conds, h.inv.arms, h.inv.lost, ?_, ?_⟩, ?_⟩
    · intro op hmem
      exact h.inv.straight op (dropLast_subset _ hmem)
    · rcases h.inv.state with hs | hs
      · obtain ⟨n, hn, hruns⟩ := hs.runs
        rw [houtput] at hruns
        have hback : ∀ m : Machine F, Height 0 m → ∃ m₁,
            execAll A (s.output.dropLast.map (Op.stored A)) m = .ok m₁ ∧ 0 < n ∧
              Height (n - 1) m₁ := by
          intro m hm
          obtain ⟨m', hrun, hm'⟩ := hruns m hm
          exact execAll_retract hrun hm'
        have hpos : 0 < n := by
          obtain ⟨-, -, hpos, -⟩ := hback (start (fun _ => A.zero) 0 A.zero 0) ⟨rfl, rfl⟩
          exact hpos
        refine .inl ⟨hs.path, n - 1, ?_, ?_⟩
        · show s.depth - 1 = _
          omega
        · intro m hm
          obtain ⟨m₁, hrun, -, hm₁⟩ := hback m hm
          exact ⟨m₁, hrun, hm₁⟩
      · exact .inr hs
    · intro e he
      rcases mem_cons.1 he with rfl | he
      · trivial
      · exact h.plain e he

lemma operator_kept {tok} (h : Ready A s) (htok : tok ≠ .question) (hstep : s.operator tok = .ok t)
    : Kept A t := by
  have hinfix : ∀ {pri : ℕ} {e : StackEntry}, Plain e → Kept A (s.infixEntry pri e) := by
    intro pri e he
    have hpushed : Ready A (s.infixEntry pri e) :=
      (h.popHigherOrEqual pri).push he rfl rfl rfl rfl rfl
    exact hpushed.kept
  cases tok with
  | oper o => cases hstep; exact hinfix trivial
  | minus => cases hstep; exact hinfix trivial
  | rparen => exact rparen_kept h hstep
  | comma => exact comma_kept h hstep
  | question => exact absurd rfl htok
  | colon =>
    have herror : s.operator .colon = .error .conditional := colon_error h
    rw [herror] at hstep
    cases hstep
  | semicolon => exact semicolon_kept h hstep
  | assign => exact assign_kept h hstep
  | _ => cases hstep

/-! ### Whole sources -/

theorem step_ready {tok} (h : Ready A s) (htok : tok ≠ .question) (hstep : s.step tok = .ok t)
    : Ready A t := by
  obtain ⟨u, hu, hchecked⟩ : ∃ u,
      (if s.operandNeeded then s.operand tok else s.operator tok) = .ok u ∧ u.checked = .ok t := by
    unfold Compiler.step at hstep
    cases hu : (if s.operandNeeded then s.operand tok else s.operator tok) with
    | error e => rw [hu] at hstep; cases hstep
    | ok u => rw [hu] at hstep; exact ⟨u, rfl, hstep⟩
  have hkept : Kept A u := by
    split_ifs at hu
    · exact operand_kept h hu
    · exact operator_kept h htok hu
  unfold Compiler.checked at hchecked
  split_ifs at hchecked with hlow hhigh
  cases hchecked
  exact ⟨hkept.inv, hkept.plain, not_le.1 hhigh⟩

lemma compileLoop_ready {fuel text} (h : Ready A s) (hq : '?' ∉ text)
    (hloop : compileLoop A fuel s text = .ok t) : Ready A t := by
  induction fuel generalizing s text with
  | zero => cases hloop
  | succ fuel ih =>
    unfold compileLoop at hloop
    cases hnext : next A s.operandNeeded text with
    | error e => rw [hnext] at hloop; cases hloop
    | ok found =>
      rw [hnext] at hloop
      cases found with
      | none => cases hloop; exact h
      | some pair =>
        obtain ⟨tok, rest⟩ := pair
        obtain ⟨htok, hrest⟩ := next_question A hq hnext
        cases hstep : s.step tok with
        | error e =>
          simp only [bind, Except.bind, hstep] at hloop
          cases hloop
        | ok u =>
          simp only [bind, Except.bind, hstep] at hloop
          exact ih (step_ready h htok hstep) hrest hloop

lemma init_ready : Ready A (Compiler.init : Compiler F) := by
  refine ⟨⟨rfl, rfl, rfl, ?_, .inl ⟨⟨_, rfl, rfl, ?_⟩, 0, rfl, ?_⟩⟩, ?_, ?_⟩
  · intro op hop
    cases hop
  · intro x hx
    cases hx
  · intro m hm
    exact ⟨m, rfl, hm⟩
  · intro e he
    cases he
  · show (0 : ℤ) < 80
    decide

/-- **A source that ends well runs to one value**: the way through the program was not dropped. -/
theorem ending_runs (h : Ready A s) (hend : s.ending = .ok ops) :
    (∀ op ∈ ops, op.straight = true) ∧ ∀ m : Machine F, Height 0 m →
      ∃ m', execAll A (ops.map (Op.stored A)) m = .ok m' ∧ Height 1 m' := by
  have hpop := h.popToBarrier
  unfold Compiler.ending at hend
  cases hstack : s.popToBarrier.stack with
  | cons e rest => simp only [hstack] at hend; cases hend
  | nil =>
    simp only [hstack] at hend
    split_ifs at hend with hconds hdone hrefused
    cases hend
    refine ⟨hpop.inv.straight, ?_⟩
    rcases hpop.inv.state with hs | ⟨hnil, hread⟩
    · obtain ⟨n, hn, hruns⟩ := hs.runs
      have hone : n = 1 := by
        omega
      rw [hone] at hruns
      exact hruns
    · -- a dropped way is refused
      exfalso
      apply hrefused
      simp [Holes.refused, Holes.dropReads, hnil, hread, hpop.inv.lost]

lemma compileOps_runs {text} (hq : '?' ∉ text) (h : compileOps A text = .ok ops) :
    (∀ op ∈ ops, op.straight = true) ∧ ∀ m : Machine F, Height 0 m →
      ∃ m', execAll A (ops.map (Op.stored A)) m = .ok m' ∧ Height 1 m' := by
  unfold compileOps at h
  cases hloop : compileLoop A (text.length + 1) Compiler.init text with
  | error e => rw [hloop] at h; cases h
  | ok s =>
    rw [hloop] at h
    exact ending_runs (compileLoop_ready init_ready hq hloop) h

lemma assemble_head (hops : ops ≠ []) :
    ¬ ((assemble A ops).head? = none ∨ (assemble A ops).head? = some 0) := by
  cases ops with
  | nil => exact absurd rfl hops
  | cons op ops =>
    obtain ⟨b, rest, hop, hb⟩ := encode_cons A op
    simp [assemble, hop, hb]

/-- **An accepted source without a `?` evaluates to a value** on every argument block: the count
the compiler keeps is the evaluator's stack. -/
theorem compile_straight_sound (A : Arith F) (text : List Char) (code : List UInt8)
    (haccepted : compile A text = .ok code) (hq : '?' ∉ text) (vars : Fin 21 → F) (numArgs : ℕ)
    (prevVal : F) (drawn : ℕ) :
    ∃ v m', evalVars A code (start vars numArgs prevVal drawn) = .ok (v, m') := by
  unfold compile at haccepted
  split_ifs at haccepted with hempty
  cases hops : compileOps A text with
  | error e => rw [hops] at haccepted; cases haccepted
  | ok ops =>
    rw [hops] at haccepted
    cases haccepted
    obtain ⟨hstraight, hruns⟩ := compileOps_runs hq hops
    obtain ⟨m', hrun, hm'⟩ := hruns (start vars numArgs prevVal drawn) ⟨rfl, rfl⟩
    have hne : ops ≠ [] := by
      rintro rfl
      cases hrun
      cases hm'.length_eq
    have hstored : ∀ op ∈ ops.map (Op.stored A), op.straight = true := by
      intro op hop
      obtain ⟨op', hop', rfl⟩ := mem_map.1 hop
      exact Op.stored_straight (hstraight op' hop')
    have hfuel : (ops.map (Op.stored A)).length < (assemble A ops).length + 1 := by
      have := length_le_assemble A ops
      rw [length_map]
      omega
    obtain ⟨v, hv⟩ := length_eq_one_iff.1 hm'.length_eq
    refine ⟨v, m', ?_⟩
    unfold evalVars
    rw [if_neg (assemble_head hne), run_assemble, run_straight A hstored hfuel, hrun]
    simp [bind, Except.bind, finish, hm'.fits, hv]

end Straight

/-- `A:=B;MAX(A,B,C)`. -/
theorem compile_straight_sound_two_statements :
    ∃ v m', evalVars wholeArith [5, 25, 4, 5, 6, 60, 3, 0] (start (fun _ => 0) 21 0 0) =
      .ok (v, m') :=
  compile_straight_sound wholeArith
    ['A', ':', '=', 'B', ';', 'M', 'A', 'X', '(', 'A', ',', 'B', ',', 'C', ')']
    [5, 25, 4, 5, 6, 60, 3, 0] (by decide) (by decide) (fun _ => 0) 21 0 0

end Calc
