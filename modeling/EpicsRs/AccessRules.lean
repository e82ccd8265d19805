/-
**The access that the rules of a group grant.**

`compute_rules` (`access_security.rs`) goes through the rules of a group once.  It skips a rule
that grants no more than what was reached before it looks whether the rule applies, and it stops at
WRITE.  What it finds is the greatest access of the rules that apply, with the trap flag of the
first of them that grants it.

Main result: `AccessSecurity.access_is_greatest`.
-/

import EpicsRs.LockDatabase

set_option autoImplicit false

namespace AccessSecurity

open List
open RecordLock (eqIgnoreAsciiCase)

/-! ### The configuration -/

abbrev Text : Type := List UInt8

inductive AccessLevel where
  | noAccess | read | readWrite
deriving DecidableEq, Repr

inductive RuleAccess where
  | none | read | write
deriving DecidableEq, Repr

/-- `AccessRule`, but for the compiled expression. -/
structure AccessRule where
  level : ℤ
  access : RuleAccess
  uag : List Text
  hag : List Text
  method : List Text
  authority : List Text
  trap : Bool
  calcText : Option Text
  inpUsed : UInt32
  ignore : Bool

/-- `AsgState`, as the checks read it. -/
structure AsgState where
  good : UInt32
  results : List Bool

def AsgState.result (state : AsgState) (index : ℕ) : Bool := state.results[index]?.getD false

/-- `AccessSecurityGroup`, with the published state; of the inputs only their letters. -/
structure AccessSecurityGroup where
  rules : List AccessRule
  inp : List UInt8
  state : AsgState

namespace AccessSecurityGroup

def declared (asg : AccessSecurityGroup) : UInt32 :=
  (asg.inp.filter (· < 21)).foldl (fun bits index => bits ||| (1 : UInt32) <<< index.toUInt32) 0

def inpBad (asg : AccessSecurityGroup) : UInt32 := asg.declared &&& ~~~asg.state.good

end AccessSecurityGroup

/-- `AccessSecurityConfig`, as far as rules are matched against it. -/
structure AccessSecurityConfig where
  uag : Text → Option (List Text)
  hag : Text → Option (List Text)

/-- Who asks, and for a record of which level. -/
structure Client where
  host : Text
  user : Text
  roles : List Text
  recordAsl : UInt8
  method : Text
  authority : Text

def ruleAccess (rule : AccessRule) : AccessLevel :=
  if rule.ignore then .noAccess
  else match rule.access with
    | .none => .noAccess
    | .read => .read
    | .write => .readWrite

def ruleRank : AccessLevel → ℕ
  | .noAccess => 0
  | .read => 1
  | .readWrite => 2

/-- `role/`. -/
def roleTag : Text := [0x72, 0x6f, 0x6c, 0x65, 0x2f]

/-! ### The loop -/

section

variable (cfg : AccessSecurityConfig) (client : Client)

abbrev UserMatch (rule : AccessRule) : Prop :=
  rule.uag = [] ∨ ∃ g ∈ rule.uag, ∃ members ∈ cfg.uag g, ∃ m ∈ members,
    m = client.user ∨ ∃ role ∈ client.roles, m = roleTag ++ role

abbrev HostMatch (rule : AccessRule) : Prop :=
  rule.hag = [] ∨ ∃ g ∈ rule.hag, ∃ members ∈ cfg.hag g, ∃ m ∈ members,
    eqIgnoreAsciiCase m client.host

/-- `method_match` and `authority_match`. -/
abbrev TextMatch (texts : List Text) (text : Text) : Prop :=
  texts = [] ∨ ∃ t ∈ texts, eqIgnoreAsciiCase t text

variable (bad : UInt32)

/-- One round of the loop of `compute_rules`, for a rule and its stored result. -/
def ruleBody (p : AccessRule × Bool) (acc : AccessLevel × Bool) : ForInStep (AccessLevel × Bool) :=
  if p.1.ignore then .yield acc
  else if acc.1 = .readWrite then .done acc
  else if ruleRank (ruleAccess p.1) ≤ ruleRank acc.1 then .yield acc
  else if (client.recordAsl.toNat : ℤ) > p.1.level then .yield acc
  else if ¬ UserMatch cfg client p.1 then .yield acc
  else if ¬ HostMatch cfg client p.1 then .yield acc
  else if ¬ TextMatch p.1.method client.method then .yield acc
  else if ¬ TextMatch p.1.authority client.authority then .yield acc
  else if p.1.calcText.isSome ∧ (bad &&& p.1.inpUsed ≠ 0 ∨ p.2 = false) then .yield acc
  else .yield (ruleAccess p.1, p.1.trap)

/-- The loop of `compute_rules`, from the rule `index` on. -/
def rulesLoop (state : AsgState) : ℕ → List AccessRule → AccessLevel × Bool → AccessLevel × Bool
  | _, [], acc => acc
  | index, rule :: rules, acc =>
      match ruleBody cfg client bad (rule, state.result index) acc with
      | .done acc => acc
      | .yield acc => rulesLoop state (index + 1) rules acc

def computeRules (asg : AccessSecurityGroup) : AccessLevel × Bool :=
  rulesLoop cfg client asg.inpBad asg.state 0 asg.rules (.noAccess, false)

/-! ### Which rules apply -/

/-- A rule, with its stored result, applies to the client. -/
structure Applicable (p : AccessRule × Bool) : Prop where
  live : p.1.ignore = false
  asl : (client.recordAsl.toNat : ℤ) ≤ p.1.level
  user : UserMatch cfg client p.1
  host : HostMatch cfg client p.1
  method : TextMatch p.1.method client.method
  authority : TextMatch p.1.authority client.authority
  result : p.1.calcText.isSome → bad &&& p.1.inpUsed = 0 ∧ p.2 = true

/-- The greatest access of the rules that apply, with the trap flag of the first that grants it. -/
structure Greatest (ps : List (AccessRule × Bool)) (found : AccessLevel × Bool) : Prop where
  le : ∀ p ∈ ps, Applicable cfg client bad p → ruleRank (ruleAccess p.1) ≤ ruleRank found.1
  first : found = (.noAccess, false) ∨ found.1 ≠ .noAccess ∧ ∃ before p after,
    ps = before ++ p :: after ∧ Applicable cfg client bad p ∧ found = (ruleAccess p.1, p.1.trap) ∧
      ∀ q ∈ before, Applicable cfg client bad q → ruleAccess q.1 ≠ found.1

end

/-- The rules from `index` on, with their stored results. -/
def AsgState.judged (state : AsgState) : ℕ → List AccessRule → List (AccessRule × Bool)
  | _, [] => []
  | index, rule :: rules => (rule, state.result index) :: state.judged (index + 1) rules

def AccessSecurityGroup.judged (asg : AccessSecurityGroup) : List (AccessRule × Bool) :=
  asg.state.judged 0 asg.rules

variable {cfg : AccessSecurityConfig} {client : Client} {bad : UInt32}
  {acc found : AccessLevel × Bool} {p : AccessRule × Bool} {ps : List (AccessRule × Bool)}

lemma ruleRank_le (level : AccessLevel) : ruleRank level ≤ ruleRank .readWrite := by
  cases level <;> decide

lemma ruleRank_injective : Function.Injective ruleRank := by
  intro a b h
  cases a <;> cases b <;> first | rfl | cases h

lemma ruleBody_cases (cfg : AccessSecurityConfig) (client : Client) (bad : UInt32)
    (p : AccessRule × Bool) (acc : AccessLevel × Bool) :
    (ruleBody cfg client bad p acc = .done acc ∧ acc.1 = .readWrite) ∨
    (ruleBody cfg client bad p acc = .yield acc ∧
      (Applicable cfg client bad p → ruleRank (ruleAccess p.1) ≤ ruleRank acc.1)) ∨
    (ruleBody cfg client bad p acc = .yield (ruleAccess p.1, p.1.trap) ∧
      Applicable cfg client bad p ∧ ruleRank acc.1 < ruleRank (ruleAccess p.1)) := by
  rw [ruleBody]
  split_ifs with hignore hwrite hrank hasl huser hhost hmethod hauthority hresult
  · exact Or.inr (Or.inl ⟨rfl, fun h => absurd hignore (by simp [h.live])⟩)
  · exact Or.inl ⟨rfl, hwrite⟩
  · exact Or.inr (Or.inl ⟨rfl, fun _ => hrank⟩)
  · exact Or.inr (Or.inl ⟨rfl, fun h => absurd h.asl (Int.not_le.2 hasl)⟩)
  · refine Or.inr (Or.inl ⟨rfl, fun h => ?_⟩)
    obtain ⟨hbad, htrue⟩ := h.result hresult.1
    simp [hbad, htrue] at hresult
  · rw [Bool.not_eq_true] at hignore
    refine Or.inr (Or.inr ⟨rfl, ⟨hignore, Int.not_lt.1 hasl, huser, hhost, hmethod, hauthority, ?_⟩,
      Nat.lt_of_not_le hrank⟩)
    exact fun h => by simpa [h] using hresult
  · exact Or.inr (Or.inl ⟨rfl, fun h => absurd h.authority hauthority⟩)
  · exact Or.inr (Or.inl ⟨rfl, fun h => absurd h.method hmethod⟩)
  · exact Or.inr (Or.inl ⟨rfl, fun h => absurd h.host hhost⟩)
  · exact Or.inr (Or.inl ⟨rfl, fun h => absurd h.user huser⟩)

/-! ### The greatest access -/

lemma Greatest.skip (h : Greatest cfg client bad ps acc) {qs}
    (hqs : ∀ q ∈ qs, Applicable cfg client bad q → ruleRank (ruleAccess q.1) ≤ ruleRank acc.1) :
    Greatest cfg client bad (ps ++ qs) acc := by
  refine ⟨fun q hq => (mem_append.1 hq).elim (h.le q) (hqs q), h.first.imp_right ?_⟩
  rintro ⟨hne, before, q, after, rfl, hq⟩
  exact ⟨hne, before, q, after ++ qs, by simp, hq⟩

lemma Greatest.raise (h : Greatest cfg client bad ps acc) (happ : Applicable cfg client bad p)
    (hlt : ruleRank acc.1 < ruleRank (ruleAccess p.1)) :
    Greatest cfg client bad (ps ++ [p]) (ruleAccess p.1, p.1.trap) := by
  have hbefore : ∀ q ∈ ps, Applicable cfg client bad q →
      ruleRank (ruleAccess q.1) < ruleRank (ruleAccess p.1) :=
    fun q hq hqapp => (h.le q hq hqapp).trans_lt hlt
  refine ⟨fun q hq hqapp => ?_, Or.inr ⟨fun hnone => ?_, ps, p, [], rfl, happ, rfl, ?_⟩⟩
  · rcases mem_append.1 hq with hq | hq
    · exact (hbefore q hq hqapp).le
    · rw [mem_singleton.1 hq]
  · rw [show ruleAccess p.1 = .noAccess from hnone] at hlt
    exact absurd hlt (Nat.not_lt_zero _)
  · exact fun q hq hqapp heq => (hbefore q hq hqapp).ne (congrArg ruleRank heq)

/-- **The loop keeps the greatest access of the rules it has passed.** -/
theorem rulesLoop_greatest (state : AsgState) (rules : List AccessRule) (index : ℕ)
    (h : Greatest cfg client bad ps acc) :
    Greatest cfg client bad (ps ++ state.judged index rules)
      (rulesLoop cfg client bad state index rules acc) := by
  induction rules generalizing index ps acc with
  | nil => exact h.skip nofun
  | cons rule rules ih =>
    rw [rulesLoop]
    rcases ruleBody_cases cfg client bad (rule, state.result index) acc with
      ⟨hbody, hwrite⟩ | ⟨hbody, hle⟩ | ⟨hbody, happ, hlt⟩ <;> rw [hbody]
    · -- nothing grants more than WRITE
      exact h.skip fun q _ _ => hwrite ▸ ruleRank_le _
    · have hskip : Greatest cfg client bad (ps ++ [(rule, state.result index)]) acc :=
        h.skip (by simpa using hle)
      simpa [AsgState.judged] using ih (index + 1) hskip
    · simpa [AsgState.judged] using ih (index + 1) (h.raise happ hlt)

lemma Greatest.mono {qs} (h : Greatest cfg client bad ps acc)
    (h' : Greatest cfg client bad qs found) (hsub : ps ⊆ qs) :
    ruleRank acc.1 ≤ ruleRank found.1 := by
  rcases h.first with rfl | ⟨-, before, p, after, rfl, happ, rfl, -⟩
  · exact Nat.zero_le _
  · exact h'.le p (hsub (by simp)) happ

/-- **The access is the greatest of the rules that apply, and the trap flag that of the first of
them that grants it.**  The order of the rules does not change the access, and no rule that is added
lowers it. -/
theorem access_is_greatest (cfg : AccessSecurityConfig) (client : Client)
    (asg : AccessSecurityGroup) :
    Greatest cfg client asg.inpBad asg.judged (computeRules cfg client asg) ∧
    ∀ asg' : AccessSecurityGroup, asg'.inpBad = asg.inpBad →
      (asg'.judged.Perm asg.judged →
        (computeRules cfg client asg').1 = (computeRules cfg client asg).1) ∧
      (asg.judged ⊆ asg'.judged →
        ruleRank (computeRules cfg client asg).1 ≤ ruleRank (computeRules cfg client asg').1) := by
  have hgreatest (asg : AccessSecurityGroup) :
      Greatest cfg client asg.inpBad asg.judged (computeRules cfg client asg) :=
    have hnil : Greatest cfg client asg.inpBad [] (.noAccess, false) := ⟨nofun, Or.inl rfl⟩
    rulesLoop_greatest asg.state asg.rules 0 hnil
  refine ⟨hgreatest asg, fun asg' hbad => ?_⟩
  have h := hgreatest asg
  have h' := hgreatest asg'
  rw [hbad] at h'
  refine ⟨fun hperm => ruleRank_injective (Nat.le_antisymm ?_ ?_), h.mono h'⟩
  · exact h'.mono h hperm.subset
  · exact h.mono h' hperm.symm.subset

end AccessSecurity
