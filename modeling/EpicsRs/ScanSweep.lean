/-
**A sweep over a scan list that is edited on the way.**

`ScanCursor` of `server/database/scan_index.rs` walks a list whose records come and go while it
hands them out.  It keeps a copy of the list and takes it again when the revision of the bucket has
moved, and then goes on behind the key it handed out last.  So a step hands out the first key of the
list above that one, edited or not; what a sweep does follows from this alone.

The handle beside a key, which takes no part in its order, and the prefetches are left out; a
revision is a natural number.

Main result: `ScanList.sweep_survives_edits`.
-/

import Mathlib

set_option autoImplicit false

namespace ScanList

open List

/-! ### The list -/

section Model

variable {τ ν : Type} [LinearOrder τ] [LinearOrder ν]

/-- `ScanKey`: record types `τ` and record names `ν` are ordered. -/
structure ScanKey (τ ν : Type) where
  phas : ℤ
  recordType : τ
  loadOrder : ℕ
  name : ν
deriving DecidableEq

def ScanKey.sortFields (k : ScanKey τ ν) : ℤ ×ₗ τ ×ₗ ℕ ×ₗ ν :=
  toLex (k.phas, toLex (k.recordType, toLex (k.loadOrder, k.name)))

instance : LinearOrder (ScanKey τ ν) :=
  LinearOrder.lift' ScanKey.sortFields fun j k h => by
    cases j; cases k; simpa [ScanKey.sortFields] using h

/-- `BTreeSet::insert`: an equal key stays as it is. -/
def insertKey (k : ScanKey τ ν) : List (ScanKey τ ν) → List (ScanKey τ ν)
  | [] => [k]
  | j :: l => if k < j then k :: j :: l else if j < k then j :: insertKey k l else j :: l

/-- `ScanBucket`.  The ordered form, if there is one, is that of the keys. -/
structure ScanBucket (τ ν : Type) [LinearOrder τ] [LinearOrder ν] where
  revision : ℕ
  keys : List (ScanKey τ ν)
  ordered : Option (List (ScanKey τ ν))
  sorted : keys.Pairwise (· < ·)
  fresh : ∀ l ∈ ordered, l = keys

lemma mem_insertKey {k x} {l : List (ScanKey τ ν)} (h : x ∈ insertKey k l) :
    x = k ∨ x ∈ l := by
  induction l with
  | nil => exact Or.inl (mem_singleton.1 h)
  | cons j l ih =>
    unfold insertKey at h
    split_ifs at h with hkj hjk
    · exact mem_cons.1 h
    · rcases mem_cons.1 h with rfl | h
      · exact Or.inr mem_cons_self
      · exact (ih h).imp_right (mem_cons_of_mem _)
    · exact Or.inr h

lemma sorted_insertKey (k : ScanKey τ ν) {l : List (ScanKey τ ν)} (h : l.Pairwise (· < ·)) :
    (insertKey k l).Pairwise (· < ·) := by
  induction l with
  | nil => exact pairwise_singleton _ _
  | cons j l ih =>
    obtain ⟨hj, hl⟩ := pairwise_cons.1 h
    unfold insertKey
    split_ifs with hkj hjk
    · refine pairwise_cons.2 ⟨fun x hx => ?_, h⟩
      rcases mem_cons.1 hx with rfl | hx
      · exact hkj
      · exact hkj.trans (hj x hx)
    · refine pairwise_cons.2 ⟨fun x hx => ?_, ih hl⟩
      rcases mem_insertKey hx with rfl | hx
      · exact hjk
      · exact hj x hx
    · exact h

def ScanBucket.transition (b : ScanBucket τ ν) (f : List (ScanKey τ ν) → List (ScanKey τ ν))
    (hf : (f b.keys).Pairwise (· < ·)) : ScanBucket τ ν :=
  ⟨b.revision + 1, f b.keys, none, hf, fun _ h => nomatch h⟩

inductive Edit (τ ν : Type) where
  | add (k : ScanKey τ ν)
  | delete (name : ν)

/-- `add_to_scan_list` and `delete_from_scan_list`; a new key is a deletion and an addition. -/
def ScanBucket.edit (b : ScanBucket τ ν) : Edit τ ν → ScanBucket τ ν
  | .add k => b.transition (insertKey k) (sorted_insertKey k b.sorted)
  | .delete name => b.transition (List.filter fun k => k.name ≠ name) (b.sorted.filter _)

def ScanBucket.snapshot (b : ScanBucket τ ν) : ScanBucket τ ν × ℕ × List (ScanKey τ ν) :=
  let ordered := b.ordered.getD b.keys
  have hfresh : ordered = b.keys := by
    cases h : b.ordered with
    | none => simp [ordered, h]
    | some l => simpa [ordered, h] using b.fresh l h
  (⟨b.revision, b.keys, some ordered, b.sorted, fun _ h => Option.some.inj h ▸ hfresh⟩,
    b.revision, ordered)

/-! ### The cursor -/

structure ScanCursor (τ ν : Type) where
  snapshot : Option (List (ScanKey τ ν))
  nextIdx : ℕ
  revision : ℕ

/-- `scan_cursor`. -/
def ScanCursor.start : ScanCursor τ ν := ⟨none, 0, 0⟩

def ScanCursor.standing (c : ScanCursor τ ν) : Option (ScanKey τ ν) :=
  c.snapshot.bind fun s => if c.nextIdx = 0 then none else s[c.nextIdx - 1]?

/-- What the database knows of its records: PHAS, type and load order. -/
abbrev Records (τ ν : Type) := ν → Option (ℤ × τ × ℕ)

def liveScanKey (recs : Records τ ν) (name : ν) : Option (ScanKey τ ν) :=
  (recs name).map fun r => ⟨r.1, r.2.1, r.2.2, name⟩

/-- The index of the first key above `last`: `partition_point`, or 0 without a place to keep. -/
def position {K : Type} [LinearOrder K] (last : Option K) (l : List K) : ℕ :=
  last.elim 0 fun r => (l.takeWhile (· ≤ r)).length

def ScanCursor.resync (c : ScanCursor τ ν) (recs : Records τ ν) (b : ScanBucket τ ν) :
    ScanBucket τ ν × ScanCursor τ ν :=
  let was := c.standing
  let live := was.bind fun w => liveScanKey recs w.name
  let (b, revision, snapshot) := b.snapshot
  let resume := match live with
    | some k => if k ∈ snapshot then some k else was
    | none => was
  (b, ⟨some snapshot, position resume snapshot, revision⟩)

def ScanCursor.next (c : ScanCursor τ ν) (recs : Records τ ν) (b : ScanBucket τ ν) :
    Option (ScanKey τ ν) × ScanBucket τ ν × ScanCursor τ ν :=
  let (b, c) :=
    if c.snapshot = none ∨ b.revision ≠ c.revision then c.resync recs b else (b, c)
  match c.snapshot.bind (·[c.nextIdx]?) with
  | none => (none, b, c)
  | some key => (some key, b, { c with nextIdx := c.nextIdx + 1 })

/-- What happens before a step of a sweep: edits, after which the records are `recs`. -/
structure Round (τ ν : Type) where
  edits : List (Edit τ ν)
  recs : Records τ ν

/-- **A sweep**: at each step, the list and what was handed out. -/
def sweep : List (Round τ ν) → ScanBucket τ ν → ScanCursor τ ν →
    List (List (ScanKey τ ν) × Option (ScanKey τ ν))
  | [], _, _ => []
  | r :: rs, b, c =>
    let b := r.edits.foldl ScanBucket.edit b
    let step := c.next r.recs b
    (b.keys, step.1) :: if step.1.isSome then sweep rs step.2.1 step.2.2 else []

/-- A listed record is listed under its live key, and the record handed out last is listed under the
key it had, or not at all. -/
def InPlace : List (Round τ ν) → ScanBucket τ ν → ScanCursor τ ν → Prop
  | [], _, _ => True
  | r :: rs, b, c =>
    let b := r.edits.foldl ScanBucket.edit b
    let step := c.next r.recs b
    (∀ k ∈ b.keys, liveScanKey r.recs k.name = some k) ∧
      (∀ w ∈ c.standing, ∀ k ∈ b.keys, k.name = w.name → k = w) ∧
      (step.1.isSome → InPlace rs step.2.1 step.2.2)

instance decidableInPlace : ∀ (rs : List (Round τ ν)) (b : ScanBucket τ ν) (c : ScanCursor τ ν),
    Decidable (InPlace rs b c)
  | [], _, _ => isTrue trivial
  | _ :: rs, _, _ =>
    have := decidableInPlace rs
    show Decidable (_ ∧ _ ∧ (_ → _)) from inferInstance

end Model

/-! ### Walks up a list that changes -/

section Walk

variable {K : Type} [LinearOrder K]

def above (last : Option K) (k : K) : Bool := last.all (· < k)

lemma getElem?_position (last : Option K) (l : List K) :
    l[position last l]? = l.find? (above last) := by
  cases last with
  | none => cases l <;> rfl
  | some r =>
    induction l with
    | nil => rfl
    | cons x l ih =>
      rcases le_or_gt x r with h | h
      · have hnot : above (some r) x = false := by simpa [above] using h
        rw [find?_cons_of_neg (by simp [hnot]), ← ih]
        simp [position, h]
      · have habove : above (some r) x = true := by simpa [above] using h
        rw [find?_cons_of_pos habove]
        simp [position, not_le.2 h]

lemma position_of_getElem? {l} (hl : l.Pairwise (· < ·)) :
    ∀ {n} {k : K}, l[n]? = some k → position (some k) l = n + 1 := by
  induction l with
  | nil => intro n k h; cases h
  | cons x l ih =>
    intro n k h
    obtain ⟨hx, hl⟩ := pairwise_cons.1 hl
    cases n with
    | zero =>
      obtain rfl : x = k := Option.some.inj h
      cases l with
      | nil => simp [position]
      | cons y l => simp [position, hx y mem_cons_self]
    | succ n =>
      have hlt : x < k := hx k (mem_of_getElem? h)
      have htail := ih hl h
      simp only [position, Option.elim_some] at htail ⊢
      rw [takeWhile_cons_of_pos (by simpa using hlt.le), length_cons, htail]

/-- A walk above `last`: each step finds the first key above the one before. -/
inductive Walk : Option K → List (List K × Option K) → Prop
  | nil (last : Option K) : Walk last []
  | done {last : Option K} {l : List K} : l.find? (above last) = none → Walk last [(l, none)]
  | step {last : Option K} {l : List K} {k : K} {t : List (List K × Option K)} :
      l.Pairwise (· < ·) → l.find? (above last) = some k → Walk (some k) t →
      Walk last ((l, some k) :: t)

def outs (t : List (List K × Option K)) : List K := t.filterMap Prod.snd

def Ended (t : List (List K × Option K)) : Prop := ∃ l, (l, none) ∈ t

variable {last : Option K} {t : List (List K × Option K)}

lemma Walk.outs_sorted (h : Walk last t) :
    (∀ k ∈ outs t, above last k = true) ∧ (outs t).Pairwise (· < ·) := by
  induction h with
  | nil | done => exact ⟨fun k hk => by simp [outs] at hk, Pairwise.nil⟩
  | @step last l k t hl hfind _ ih =>
    have hk : above last k = true := find?_some hfind
    have hlt (j : K) (hj : j ∈ outs t) : k < j := by simpa [above] using ih.1 j hj
    refine ⟨fun j hj => ?_, pairwise_cons.2 ⟨hlt, ih.2⟩⟩
    rcases mem_cons.1 hj with rfl | hj
    · exact hk
    · cases last with
      | none => rfl
      | some r => simpa [above] using (show r < k by simpa [above] using hk).trans (hlt j hj)

lemma Walk.out_mem (h : Walk last t) : ∀ e ∈ t, ∀ k ∈ e.2, k ∈ e.1 := by
  induction h with
  | nil => intro e he; cases he
  | done => intro e he k hk; obtain rfl := mem_singleton.1 he; cases hk
  | step _ hfind _ ih =>
    intro e he k hk
    rcases mem_cons.1 he with rfl | he
    · exact Option.some.inj hk ▸ mem_of_find?_eq_some hfind
    · exact ih e he k hk

/-- **A key that stays ahead is handed out**: a step that passed it would not find the first. -/
theorem Walk.reaches (h : Walk last t) {k} (hend : Ended t) :
    (∀ e ∈ t, k ∈ e.1) → above last k = true → k ∈ outs t := by
  induction h with
  | nil => obtain ⟨l, hl⟩ := hend; cases hl
  | done hnone =>
    intro hmem habove
    exact absurd habove (find?_eq_none.1 hnone k (hmem _ mem_cons_self))
  | @step last l j t hl hfind _ ih =>
    intro hmem habove
    obtain ⟨l', hl'⟩ := hend
    have hrest : Ended t := ⟨l', (mem_cons.1 hl').resolve_left (by simp)⟩
    obtain ⟨_, as, bs, rfl, has⟩ := find?_eq_some_iff_append.1 hfind
    have hk := hmem _ mem_cons_self
    rcases mem_append.1 hk with hk | hk
    · exact absurd habove (by simpa using has k hk)
    · rcases mem_cons.1 hk with rfl | hk
      · exact mem_cons_self
      · have hjk : j < k := (pairwise_cons.1 (pairwise_append.1 hl).2.1).1 k hk
        exact mem_cons_of_mem _ (ih hrest (fun e he => hmem e (mem_cons_of_mem _ he))
          (by simpa [above] using hjk))

lemma Walk.reaches_added {pre post k} (hpost : post ≠ []) (hmem : ∀ e ∈ post, k ∈ e.1) :
    ∀ {last : Option K}, Walk last (pre ++ post) → Ended (pre ++ post) → above last k = true →
      (∀ j ∈ outs pre, j < k) → k ∈ outs post := by
  induction pre with
  | nil => exact fun h hend habove _ => h.reaches hend hmem habove
  | cons e pre ih =>
    intro last h hend habove hahead
    generalize hw : (e :: pre) ++ post = w at h
    cases h with
    | nil => cases hw
    | done => exact absurd (append_eq_nil_iff.1 (cons.inj hw).2).2 hpost
    | @step _ l j t _ _ hrest =>
      obtain ⟨rfl, rfl⟩ := cons.inj hw
      obtain ⟨l', hl'⟩ := hend
      refine ih hrest ⟨l', (mem_cons.1 hl').resolve_left (by simp)⟩ ?_
        fun i hi => hahead i (mem_cons_of_mem _ hi)
      simpa [above] using hahead j mem_cons_self

end Walk

/-! ### The sweep is a walk -/

section Sweep

variable {τ ν : Type} [LinearOrder τ] [LinearOrder ν]

/-- The copy of a cursor is the list, unless the revision has moved. -/
def Agrees (b : ScanBucket τ ν) (c : ScanCursor τ ν) : Prop :=
  c.snapshot = none ∨ ∃ s, c.snapshot = some s ∧ c.nextIdx = position c.standing s ∧
    c.revision ≤ b.revision ∧ (c.revision = b.revision → s = b.keys)

variable {b : ScanBucket τ ν} {c : ScanCursor τ ν}

lemma Agrees.edits (es : List (Edit τ ν)) :
    ∀ {b}, Agrees b c → Agrees (es.foldl ScanBucket.edit b) c := by
  induction es with
  | nil => exact fun h => h
  | cons e es ih =>
    intro b h
    have hrev : (b.edit e).revision = b.revision + 1 := by cases e <;> rfl
    refine ih (h.imp_right ?_)
    rintro ⟨s, hs, hpos, hle, -⟩
    exact ⟨s, hs, hpos, by omega, by omega⟩

lemma ScanBucket.snapshot_eq (b : ScanBucket τ ν) :
    ∃ b' : ScanBucket τ ν, b.snapshot = (b', b.revision, b.keys) ∧ b'.revision = b.revision ∧
      b'.keys = b.keys := by
  have hfresh : b.ordered.getD b.keys = b.keys := by
    cases h : b.ordered with
    | none => rfl
    | some l => exact b.fresh l h
  exact ⟨b.snapshot.1, by rw [← hfresh]; rfl, rfl, rfl⟩

lemma ScanCursor.resync_eq (recs : Records τ ν)
    (hplace : ∀ w ∈ c.standing, ∀ k ∈ b.keys, k.name = w.name → k = w) :
    ∃ b' : ScanBucket τ ν, b'.keys = b.keys ∧
      c.resync recs b = (b', ⟨some b.keys, position c.standing b.keys, b'.revision⟩) := by
  obtain ⟨b', hsnap, hrev, hkeys⟩ := b.snapshot_eq
  refine ⟨b', hkeys, ?_⟩
  simp only [ScanCursor.resync, hsnap, hrev]
  cases hwas : c.standing with
  | none => rfl
  | some w =>
    simp only [Option.bind_some, liveScanKey]
    cases recs w.name with
    | none => rfl
    | some r =>
      simp only [Option.map_some]
      split_ifs with hmem
      · rw [hplace w hwas _ hmem rfl]
      · rfl

/-- **A step hands out the first key above the last one.** -/
theorem Agrees.next (h : Agrees b c) (recs : Records τ ν)
    (hplace : ∀ w ∈ c.standing, ∀ k ∈ b.keys, k.name = w.name → k = w) :
    (c.next recs b).1 = b.keys.find? (above c.standing) ∧ (c.next recs b).2.1.keys = b.keys ∧
      ∀ k, (c.next recs b).1 = some k →
        Agrees (c.next recs b).2.1 (c.next recs b).2.2 ∧ (c.next recs b).2.2.standing = some k := by
  have hsync : ∃ b' : ScanBucket τ ν, b'.keys = b.keys ∧
      (if c.snapshot = none ∨ b.revision ≠ c.revision then c.resync recs b else (b, c)) =
        (b', ⟨some b.keys, position c.standing b.keys, b'.revision⟩) := by
    split_ifs with hstale
    · exact ScanCursor.resync_eq recs hplace
    · obtain ⟨hsome, hrev⟩ := not_or.1 hstale
      obtain ⟨s, hs, hpos, -, hkeys⟩ := h.resolve_left hsome
      have hrev := (not_not.1 hrev).symm
      obtain rfl := hkeys hrev
      refine ⟨b, rfl, Prod.ext rfl ?_⟩
      rw [← hs, ← hpos, ← hrev]
  obtain ⟨b', hkeys, hsync⟩ := hsync
  have hfind := getElem?_position c.standing b.keys
  simp only [ScanCursor.next, hsync, Option.bind_some, hfind]
  cases hout : b.keys.find? (above c.standing) with
  | none => exact ⟨rfl, hkeys, fun k hk => nomatch hk⟩
  | some k =>
    have hget : b.keys[position c.standing b.keys]? = some k := hfind.trans hout
    refine ⟨rfl, hkeys, fun j hj => ?_⟩
    obtain rfl := Option.some.inj hj
    have hstand : ScanCursor.standing (τ := τ) (ν := ν)
        ⟨some b.keys, position c.standing b.keys + 1, b'.revision⟩ = some k := by
      simpa [ScanCursor.standing] using hget
    refine ⟨Or.inr ⟨b.keys, rfl, ?_, le_rfl, fun _ => hkeys.symm⟩, hstand⟩
    rw [hstand, position_of_getElem? b.sorted hget]

lemma sweep_cases {r rs} (h : Agrees b c) (hplace : InPlace (r :: rs) b c)
    : let l := (r.edits.foldl ScanBucket.edit b).keys
    (∀ k ∈ l, liveScanKey r.recs k.name = some k) ∧ l.Pairwise (· < ·) ∧
      (l.find? (above c.standing) = none ∧ (∀ rs', sweep (r :: rs') b c = [(l, none)]) ∨
      ∃ k b' c', l.find? (above c.standing) = some k ∧ Agrees b' c' ∧ c'.standing = some k ∧
        b'.keys = l ∧ InPlace rs b' c' ∧
        ∀ rs', sweep (r :: rs') b c = (l, some k) :: sweep rs' b' c') := by
  obtain ⟨hlive, hstay, hrest⟩ := hplace
  obtain ⟨hfind, hkeys, hnext⟩ := (h.edits r.edits).next r.recs hstay
  refine ⟨hlive, ScanBucket.sorted _, ?_⟩
  cases hout : (c.next r.recs (r.edits.foldl ScanBucket.edit b)).1 with
  | none => exact Or.inl ⟨hfind.symm.trans hout, fun rs' => by simp [sweep, hout]⟩
  | some k =>
    obtain ⟨hagrees, hstand⟩ := hnext k hout
    rw [hout] at hrest
    exact Or.inr ⟨k, _, _, hfind.symm.trans hout, hagrees, hstand, hkeys, hrest rfl,
      fun rs' => by simp [sweep, hout]⟩

lemma sweep_walk (rs : List (Round τ ν)) :
    ∀ {b c}, Agrees b c → InPlace rs b c →
      Walk c.standing (sweep rs b c) ∧
        ∀ e ∈ sweep rs b c, ∀ j ∈ e.1, ∀ k ∈ e.1, j.name = k.name → j = k := by
  induction rs with
  | nil => exact fun _ _ => ⟨Walk.nil _, fun e he => nomatch he⟩
  | cons r rs ih =>
    intro b c h hplace
    obtain ⟨hlive, hsorted, hcase⟩ := sweep_cases h hplace
    have hname (j) (hj : j ∈ (r.edits.foldl ScanBucket.edit b).keys) (k)
        (hk : k ∈ (r.edits.foldl ScanBucket.edit b).keys) (hjk : j.name = k.name) : j = k :=
      Option.some.inj ((hlive j hj).symm.trans (hjk ▸ hlive k hk))
    rcases hcase with ⟨hnone, hsweep⟩ | ⟨k, b', c', hsome, hagrees, hstand, -, hplace, hsweep⟩
    · rw [hsweep]
      exact ⟨Walk.done hnone, fun e he => mem_singleton.1 he ▸ hname⟩
    · obtain ⟨hwalk, hnames⟩ := ih hagrees hplace
      rw [hsweep]
      refine ⟨Walk.step hsorted hsome (hstand ▸ hwalk), fun e he => ?_⟩
      rcases mem_cons.1 he with rfl | he
      · exact hname
      · exact hnames e he

lemma sweep_ends (quiet : List (Round τ ν)) :
    ∀ {b c}, (∀ r ∈ quiet, r.edits = []) → Agrees b c →
      InPlace quiet b c → b.keys.length - position c.standing b.keys < quiet.length →
      Ended (sweep quiet b c) := by
  induction quiet with
  | nil => intro b c _ _ _ hlen; cases hlen
  | cons r rs ih =>
    intro b c hquiet h hplace hlen
    obtain ⟨-, hsorted, hcase⟩ := sweep_cases h hplace
    rw [hquiet r mem_cons_self] at hsorted hcase
    rcases hcase with ⟨-, hsweep⟩ | ⟨k, b', c', hsome, hagrees, hstand, hkeys, hplace, hsweep⟩
    · exact ⟨_, hsweep rs ▸ mem_cons_self⟩
    · rw [foldl_nil] at *
      have hget := (getElem?_position c.standing b.keys).trans hsome
      have hlt := (List.getElem?_eq_some_iff.1 hget).1
      have hpos : position c'.standing b'.keys = position c.standing b.keys + 1 := by
        rw [hstand, hkeys, position_of_getElem? hsorted hget]
      rw [length_cons] at hlen
      obtain ⟨l, hl⟩ := ih (fun r hr => hquiet r (mem_cons_of_mem _ hr)) hagrees hplace
        (by rw [hpos, hkeys]; omega)
      exact ⟨l, hsweep rs ▸ mem_cons_of_mem _ hl⟩

lemma length_insertKey_le (k : ScanKey τ ν) (l : List (ScanKey τ ν)) :
    (insertKey k l).length ≤ l.length + 1 := by
  induction l with
  | nil => exact le_rfl
  | cons j l ih =>
    unfold insertKey
    split_ifs <;> simp only [length_cons] <;> omega

lemma length_edits_le (es : List (Edit τ ν)) :
    ∀ b : ScanBucket τ ν, (es.foldl ScanBucket.edit b).keys.length ≤ b.keys.length + es.length := by
  induction es with
  | nil => exact fun _ => le_rfl
  | cons e es ih =>
    intro b
    have hone : (b.edit e).keys.length ≤ b.keys.length + 1 := by
      cases e with
      | add k => exact length_insertKey_le k b.keys
      | delete name => exact (length_filter_le _ _).trans (Nat.le_succ _)
    have hrest := ih (b.edit e)
    rw [foldl_cons, length_cons]
    omega

lemma sweep_ends_after {quiet} (hquiet : ∀ r ∈ quiet, r.edits = []) (rs : List (Round τ ν)) :
    ∀ {b c}, Agrees b c → InPlace (rs ++ quiet) b c →
      b.keys.length + (rs.flatMap Round.edits).length < quiet.length →
      Ended (sweep (rs ++ quiet) b c) := by
  induction rs with
  | nil => exact fun h hplace hlen => sweep_ends quiet hquiet h hplace (Nat.lt_of_le_of_lt
      (Nat.sub_le _ _) hlen)
  | cons r rs ih =>
    intro b c h hplace hlen
    rcases (sweep_cases h hplace).2.2 with
      ⟨-, hsweep⟩ | ⟨k, b', c', -, hagrees, -, hkeys, hplace, hsweep⟩
    · exact ⟨_, hsweep (rs ++ quiet) ▸ mem_cons_self⟩
    · have hle := length_edits_le r.edits b
      rw [← hkeys] at hle
      rw [flatMap_cons, length_append] at hlen
      obtain ⟨l, hl⟩ := ih hagrees hplace (by omega)
      exact ⟨l, hsweep (rs ++ quiet) ▸ mem_cons_of_mem _ hl⟩

/-- **A sweep survives the edits of its list.**  The keys handed out go up, each from the list as it
is at its step; a sweep that has ended has handed out every record whose key was in the list at each
step, once, and every key that was ahead of the cursor at some step and stayed; and it ends when
there have been enough steps after the last edit. -/
theorem sweep_survives_edits (b : ScanBucket τ ν) (rs : List (Round τ ν))
    (hplace : InPlace rs b ScanCursor.start) :
    let t := sweep rs b ScanCursor.start
    (outs t).Pairwise (· < ·) ∧
    (∀ e ∈ t, ∀ k ∈ e.2, k ∈ e.1) ∧
    (Ended t → ∀ k, (∀ e ∈ t, k ∈ e.1) → (outs t).filter (fun j => j.name = k.name) = [k]) ∧
    (Ended t → ∀ pre post k, t = pre ++ post → post ≠ [] → (∀ e ∈ post, k ∈ e.1) →
      (∀ j ∈ outs pre, j < k) → k ∈ outs post) ∧
    ∀ rs' quiet, rs = rs' ++ quiet → (∀ r ∈ quiet, r.edits = []) →
      b.keys.length + (rs'.flatMap Round.edits).length < quiet.length → Ended t := by
  have hagrees : Agrees b (ScanCursor.start : ScanCursor τ ν) := Or.inl rfl
  obtain ⟨hwalk, hnames⟩ := sweep_walk rs hagrees hplace
  refine ⟨hwalk.outs_sorted.2, hwalk.out_mem, fun hend k hk => ?_, ?_, ?_⟩
  · have hmem := hwalk.reaches hend hk rfl
    have hone : ∀ j ∈ outs (sweep rs b ScanCursor.start), j.name = k.name ↔ j = k := by
      intro j hj
      obtain ⟨e, he, hout⟩ := mem_filterMap.1 hj
      exact ⟨hnames e he j (hwalk.out_mem e he j hout) k (hk e he), fun h => h ▸ rfl⟩
    rw [filter_congr fun j hj => decide_eq_decide.2 (hone j hj)]
    rw [filter_eq]
    simp [count_eq_one_of_mem (hwalk.outs_sorted.2.imp ne_of_lt) hmem]
  · intro hend pre post k ht hpost hk hahead
    exact Walk.reaches_added hpost hk (ht ▸ hwalk) (ht ▸ hend) rfl hahead
  · rintro rs' quiet rfl hquiet hlen
    exact sweep_ends_after hquiet rs' hagrees hplace hlen

/-- While record 1 is processed, record 2 leaves the list and record 4 enters it. -/
theorem sweep_over_edited_list :
    let key (n : ℕ) : ScanKey ℕ ℕ := ⟨0, 0, n, n⟩
    let quiet : Round ℕ ℕ := ⟨[], fun n => some (0, 0, n)⟩
    let rs := [quiet, ⟨[.delete 2, .add (key 4)], quiet.recs⟩, quiet, quiet]
    let b : ScanBucket ℕ ℕ := ⟨0, [key 1, key 2, key 3], none, by decide, fun _ h => nomatch h⟩
    outs (sweep rs b .start) = [key 1, key 3, key 4] ∧
      (outs (sweep rs b .start)).filter (fun j => j.name = 3) = [key 3] := by
  intro key quiet rs b
  have hend : Ended (sweep rs b .start) := ⟨[key 1, key 3, key 4], by decide +kernel⟩
  exact ⟨by decide +kernel, (sweep_survives_edits b rs (by decide +kernel)).2.2.1 hend (key 3)
    (by decide +kernel)⟩

end Sweep

end ScanList
