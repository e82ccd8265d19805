/-
**How deep a macro expansion nests.**

A translation leaves the table as it found it.  Its depth is bounded as long as it goes into the
source and the values of definitions: a part of a reference is shorter than its text, and a
definition is not entered twice.  But the text of a scoped definition is the *output* of a
translation and its entry is new, so no mark stops a text that brings itself back: one that quotes a
reference to itself gets deeper than any bound.

Main results: `MacLib.transPieces_kept`, `MacLib.expand_finishes`, `MacLib.expand_leaves_table`.
-/

import EpicsRs.MacLib
import EpicsRs.StateWp

set_option autoImplicit false

namespace MacLib

open StateWp List MacroTable

/-! ### Looking up -/

variable (opts : MacroExpandOptions) {α : Type} {e : MacEntry} {E : ExpandCtx → Prop}

lemma rposition_spec {p l i} {a : α} (h : rposition p l = some (i, a)) :
    l[i]? = some a ∧ p a = true := by
  induction l generalizing i with
  | nil => simp [rposition] at h
  | cons b l ih =>
    cases hl : rposition p l with
    | some q =>
      simp only [rposition, hl, Option.some.injEq, Prod.mk.injEq] at h
      obtain ⟨rfl, rfl⟩ := h
      exact ih hl
    | none =>
      simp only [rposition, hl] at h
      split_ifs at h with hb
      obtain ⟨rfl, rfl⟩ := Prod.mk.inj (Option.some.inj h)
      exact ⟨rfl, hb⟩

lemma rposition_none {p} {l : List α} (h : ∀ a ∈ l, p a = false) :
    rposition p l = none := by
  induction l with
  | nil => rfl
  | cons b l ih =>
    have hb := h b mem_cons_self
    rw [rposition, ih fun a ha => h a (mem_cons_of_mem b ha)]
    simp [hb]

lemma rposition_append {p} (l : List α) {a : α} {tail} (ha : p a = true)
    (htail : ∀ b ∈ tail, p b = false) : rposition p (l ++ a :: tail) = some (l.length, a) := by
  induction l with
  | nil => simp [rposition, rposition_none htail, ha]
  | cons b l ih => simp [rposition, ih]

lemma rposition_append_of_false {p} (l : List α) {tail : List α} (htail : ∀ b ∈ tail, p b = false)
    : rposition p (l ++ tail) = rposition p l := by
  induction l with
  | nil => exact rposition_none htail
  | cons b l ih => simp only [cons_append, rposition, ih]

lemma modify_last (l : List α) (a : α) (f : α → α) : (l ++ [a]).modify l.length f = l ++ [f a] := by
  induction l with
  | nil => rfl
  | cons b l ih => simp [ih]

lemma lookup_spec {t : MacroTable} {name i} (h : t.lookup name = some (i, e)) :
    t.entries[i]? = some e ∧ e.special = false := by
  obtain ⟨hget, hp⟩ := rposition_spec h
  refine ⟨hget, ?_⟩
  rw [Bool.and_eq_true] at hp
  simpa using hp.1

lemma put_cases (t : MacroTable) (name val : Text) :
    t.put name val = t.push name val ∨
      ∃ i e, t.entries[i]? = some e ∧ e.special = false ∧ t.level ≤ e.level ∧
        t.put name val = t.overwrite i e val := by
  unfold put
  cases hlook : t.lookup name with
  | none => exact .inl rfl
  | some q =>
    obtain ⟨i, e⟩ := q
    obtain ⟨hget, hspecial⟩ := lookup_spec hlook
    by_cases hlevel : t.level ≤ e.level
    · exact .inr ⟨i, e, hget, hspecial, hlevel, if_pos hlevel⟩
    · exact .inl (if_neg hlevel)

lemma put_level (t : MacroTable) (name val : Text) : (t.put name val).level = t.level := by
  rcases put_cases t name val with hput | ⟨i, e, -, -, -, hput⟩
  · rw [hput]; rfl
  · rw [hput]; rfl

/-! ### What a translation keeps -/

/-- **The same entries at the same level**; the record of scoped texts may have grown. -/
structure Kept (c c' : ExpandCtx) : Prop where
  entries : c'.table.entries = c.table.entries
  level : c'.table.level = c.table.level
  texts : ∀ x ∈ c.scopedTexts, x ∈ c'.scopedTexts

lemma Kept.refl (c : ExpandCtx) : Kept c c := ⟨rfl, rfl, fun _ h => h⟩

variable {c : ExpandCtx}

lemma Kept.trans {a b} (h : Kept a b) (h' : Kept b c) : Kept a c :=
  ⟨h'.entries.trans h.entries, h'.level.trans h.level, fun x hx => h'.texts x (h.texts x hx)⟩

lemma Kept.suppressed (c : ExpandCtx) (b : Bool) : Kept c (c.setSuppressed b) :=
  ⟨rfl, rfl, fun _ h => h⟩

/-- No entry belongs to a scope that is not open. -/
def Nested (c : ExpandCtx) : Prop := ∀ e ∈ c.table.entries, e.level ≤ c.table.level

variable {c' : ExpandCtx}

lemma Nested.kept (h : Nested c) (hk : Kept c c') : Nested c' := by
  intro e he
  rw [hk.entries] at he
  rw [hk.level]
  exact h e he

/-- The state inside a scope that was opened in `old`. -/
structure Inside (old c : ExpandCtx) : Prop where
  level : c.table.level = old.table.level + 1
  entries : ∃ tail, c.table.entries =
    old.table.entries ++ MacroTable.marker (old.table.level + 1) :: tail ∧
      ∀ e ∈ tail, e.special = false ∧ e.level = old.table.level + 1
  texts : ∀ x ∈ old.scopedTexts, x ∈ c.scopedTexts

lemma Inside.pushScope (c : ExpandCtx) : Inside c (c.withTable pushScope) :=
  ⟨rfl, ⟨[], rfl, by simp⟩, fun _ h => h⟩

lemma Inside.kept {old} (h : Inside old c) (hk : Kept c c') : Inside old c' := by
  obtain ⟨tail, htail, hall⟩ := h.entries
  exact ⟨hk.level.trans h.level, ⟨tail, hk.entries.trans htail, hall⟩,
    fun x hx => hk.texts x (h.texts x hx)⟩

lemma Inside.put {old} (h : Inside old c) (hold : Nested old) (name val : Text) :
    Inside old (c.withTable fun t => t.put name val) := by
  obtain ⟨tail, htail, hall⟩ := h.entries
  unfold ExpandCtx.withTable
  rcases put_cases c.table name val with hput | ⟨i, e, hget, hspecial, hlevel, hput⟩
  · simp only [hput]
    refine ⟨h.level, ⟨tail ++ [MacEntry.fresh name val c.table.level], ?_, ?_⟩, h.texts⟩
    · simp [push, htail]
    · intro e he
      rcases mem_append.1 he with he | he
      · exact hall e he
      · obtain rfl := mem_singleton.1 he
        exact ⟨rfl, h.level⟩
  · simp only [hput]
    rw [h.level] at hlevel
    rw [htail] at hget
    -- the entry found is neither an outer one nor the marker
    obtain ⟨k, rfl⟩ : ∃ k, i = old.table.entries.length + (k + 1) := by
      rcases Nat.lt_trichotomy i old.table.entries.length with hlt | heq | hgt
      · rw [getElem?_append_left hlt] at hget
        have := hold e (mem_of_getElem? hget)
        omega
      · rw [heq, getElem?_append_right (Nat.le_refl _), Nat.sub_self,
          getElem?_cons_zero] at hget
        obtain rfl := Option.some.inj hget
        exact absurd hspecial (by simp [marker])
      · exact ⟨i - old.table.entries.length - 1, by omega⟩
    have hmem : e ∈ tail := by
      rw [getElem?_append_right (Nat.le_add_right _ _), Nat.add_sub_cancel_left,
        getElem?_cons_succ] at hget
      exact mem_of_getElem? hget
    refine ⟨h.level, ⟨tail.set k { e with rawval := val, value := none }, ?_, ?_⟩, h.texts⟩
    · simp only [overwrite, htail]
      rw [set_append_right _ _ (Nat.le_add_right _ _), Nat.add_sub_cancel_left,
        set_cons_succ]
    · intro e' he'
      rcases mem_or_eq_of_mem_set he' with he' | rfl
      · exact hall e' he'
      · exact hall e hmem

lemma Inside.popScope {old} (h : Inside old c) :
    Kept old (c.withTable popScope) := by
  obtain ⟨tail, htail, hall⟩ := h.entries
  have hpos : rposition (fun e : MacEntry => e.special) c.table.entries =
      some (old.table.entries.length, marker (old.table.level + 1)) := by
    rw [htail]
    exact rposition_append _ rfl fun e he => (hall e he).1
  have hpop : c.table.popScope =
      { entries := old.table.entries, level := old.table.level, dirty := true } := by
    rw [MacroTable.popScope, hpos]
    simp only [htail, h.level, take_left, Nat.add_sub_cancel]
  refine ⟨?_, ?_, h.texts⟩
  · simp only [ExpandCtx.withTable, hpop]
  · simp only [ExpandCtx.withTable, hpop]

lemma setVisited_restore {t : MacroTable} {i} (hget : t.entries[i]? = some e)
    (hvisited : e.visited = false) : (t.setVisited i true).setVisited i false = t := by
  have hentries : ((t.setVisited i true).setVisited i false).entries = t.entries := by
    apply ext_getElem?
    intro j
    by_cases hj : i = j
    · subst hj
      have he : { e with visited := false } = e := by rw [← hvisited]
      simp [setVisited, hget, he]
    · simp [setVisited, hj]
  show { t with entries := ((t.setVisited i true).setVisited i false).entries } = t
  rw [hentries]

/-- Lowering the mark that `enter` raised brings the table back. -/
lemma Kept.leave {i : ℕ} (hget : c.table.entries[i]? = some e) (hvisited : e.visited = false)
    (hk : Kept (c.enter i e) c') : Kept c (c'.withTable fun t => t.setVisited i false) := by
  refine ⟨?_, hk.level, ?_⟩
  · have hrestore := congrArg MacroTable.entries (setVisited_restore hget hvisited)
    have hentries : c'.table.entries = (c.table.setVisited i true).entries := hk.entries
    simp only [ExpandCtx.withTable, setVisited] at hrestore hentries ⊢
    rw [hentries, hrestore]
  · intro x hx
    apply hk.texts
    simp only [ExpandCtx.enter]
    split_ifs
    · exact hx
    · exact mem_cons_of_mem _ hx

/-! ### A translation from its nested translations -/

/-- **What a translation may assume of those nested in it**: started in a state of `I` on a text of
`T`, or on the value of a definition that is not being translated, they keep the table or stop in
`E`. -/
structure Calls (recur : Text → ℕ → Expand Text) (T : Text → Prop) (I E : ExpandCtx → Prop) :
    Prop where
  part : ∀ {t level c}, T t → I c → wp (recur t level) (fun _ => Kept c) E c
  raw : ∀ {name i e level c}, I c → c.table.lookup name = some (i, e) → e.visited = false →
    wp (recur e.rawval level) (fun _ => Kept (c.enter i e)) E (c.enter i e)
  nested : ∀ {c}, I c → Nested c
  kept : ∀ {c c'}, I c → Kept c c' → I c'
  push : ∀ {c}, I c → I (c.withTable MacroTable.pushScope)
  put : ∀ {c} (name val : Text), I c → 0 < c.table.level → I (c.withTable fun t => t.put name val)

section Calls

variable {recur : Text → ℕ → Expand Text} {T : Text → Prop} {I E : ExpandCtx → Prop} {level : ℕ}

lemma suppressing_kept (h : Calls recur T I E) {t c} (ht : T t) (hc : I c) :
    wp (suppressing (recur t level)) (fun _ => Kept c) E c := by
  have hsup := Kept.suppressed c true
  refine wp_bind (wp_get (wp_bind (wp_modify (wp_bind ?_))))
  refine wp_mono (h.part ht (h.kept hc hsup)) ?_ fun _ hE => hE
  intro out c' hk
  exact wp_bind (wp_modify ((hsup.trans hk).trans (Kept.suppressed c' _)))

lemma parseScoped_inside (h : Calls recur T I E) {old} (hold : Nested old) {defs} :
    ∀ {c}, (∀ p ∈ defs.flatMap defParts, T p) → I c → Inside old c →
      wp (parseScoped recur level defs) (fun _ c' => I c' ∧ Inside old c') E c := by
  induction defs with
  | nil => intro c _ hc hin; exact wp_pure ⟨hc, hin⟩
  | cons d rest ih =>
    obtain ⟨name, value⟩ := d
    intro c hparts hc hin
    have hrest : ∀ p ∈ rest.flatMap defParts, T p := fun p hp =>
      hparts p (mem_append_right _ hp)
    have hname : T name := hparts name (by simp [defParts])
    refine wp_bind (wp_mono (suppressing_kept h hname hc) ?_ fun _ hE => hE)
    intro sname c₁ hk₁
    have hc₁ := h.kept hc hk₁
    have hin₁ := hin.kept hk₁
    cases value with
    | none => exact ih hrest hc₁ hin₁
    | some v =>
      have hv : T v := hparts v (by simp [defParts])
      refine wp_bind (wp_mono (suppressing_kept h hv hc₁) ?_ fun _ hE => hE)
      intro sval c₂ hk₂
      have hin₂ := hin₁.kept hk₂
      refine wp_bind (wp_modify (ih hrest ?_ (hin₂.put hold sname sval)))
      exact h.put sname sval (h.kept hc₁ hk₂) (by rw [hin₂.level]; omega)

lemma resolve_kept (h : Calls recur T I E) {name : Text} {default c} (hdefault : ∀ d ∈ default, T d)
    (hc : I c) :
    wp (resolve recur level name default) (fun _ => Kept c) E c := by
  refine wp_bind (wp_get ?_)
  cases hlook : c.table.lookup name with
  | none =>
    cases default with
    | none => exact wp_pure (Kept.refl c)
    | some d => exact h.part (hdefault d rfl) hc
  | some q =>
    obtain ⟨i, e⟩ := q
    simp only
    split_ifs with hvisited hdirty
    · exact wp_pure (Kept.refl c)
    · have hfree : e.visited = false := by simpa using hvisited
      refine wp_bind (wp_modify (wp_bind (wp_mono (h.raw hc hlook hfree) ?_ fun _ hE => hE)))
      intro out c' hk
      exact wp_bind (wp_modify (hk.leave (lookup_spec hlook).1 hfree))
    · exact wp_pure (Kept.refl c)

lemma refer_kept (h : Calls recur T I E) {r c} (hparts : ∀ p ∈ r.parts, T p) (hc : I c) :
    wp (refer recur level r) (fun _ => Kept c) E c := by
  have hname : T r.name := hparts _ mem_cons_self
  have hdefault : ∀ d ∈ r.default, T d := fun d hd => hparts d
    (mem_cons_of_mem _ (mem_append_left _ (Option.mem_toList.2 hd)))
  refine wp_bind (wp_mono (suppressing_kept h hname hc) ?_ fun _ hE => hE)
  intro name c₁ hk₁
  have hc₁ := h.kept hc hk₁
  cases hdefs : r.defs with
  | none =>
    refine wp_mono (resolve_kept h hdefault hc₁) ?_ fun _ hE => hE
    exact fun out c₂ hk₂ => hk₁.trans hk₂
  | some defs =>
    have hscoped : ∀ p ∈ defs.flatMap defParts, T p := fun p hp => hparts p
      (mem_cons_of_mem _ (mem_append_right _ (by rw [hdefs]; exact hp)))
    refine wp_bind (wp_modify (wp_bind ?_))
    refine wp_mono (parseScoped_inside h (h.nested hc₁) hscoped (h.push hc₁)
      (Inside.pushScope c₁)) ?_ fun _ hE => hE
    intro _ c₂ ⟨hc₂, hin₂⟩
    refine wp_bind (wp_mono (resolve_kept h hdefault hc₂) ?_ fun _ hE => hE)
    intro out c₃ hk₃
    exact wp_bind (wp_modify (hk₁.trans (hin₂.kept hk₃).popScope))

/-- **A translation keeps the table, and stops only where one nested in it does.** -/
theorem transPieces_kept (h : Calls recur T I E) {ps} :
    ∀ {c}, (∀ r, Piece.ref r ∈ ps → ∀ p ∈ r.parts, T p) → I c →
      wp (transPieces recur level ps) (fun _ => Kept c) E c := by
  induction ps with
  | nil => intro c _ _; exact wp_pure (Kept.refl c)
  | cons piece rest ih =>
    intro c hparts hc
    have hrest : ∀ r, Piece.ref r ∈ rest → ∀ p ∈ r.parts, T p := fun r hr =>
      hparts r (mem_cons_of_mem _ hr)
    cases piece with
    | text t =>
      refine wp_bind (wp_mono (ih hrest hc) ?_ fun _ hE => hE)
      exact fun out c' hk => wp_pure hk
    | ref r =>
      refine wp_bind (wp_mono (refer_kept h (hparts r mem_cons_self) hc) ?_
        fun _ hE => hE)
      intro value c₁ hk₁
      refine wp_bind (wp_mono (ih hrest (h.kept hc hk₁)) ?_ fun _ hE => hE)
      exact fun out c₂ hk₂ => wp_pure (hk₁.trans hk₂)

end Calls

/-! ### The bounded part -/

lemma Nested.pushScope (h : Nested c) :
    Nested (c.withTable pushScope) := by
  intro e he
  rcases mem_append.1 he with he | he
  · exact Nat.le_succ_of_le (h e he)
  · obtain rfl := mem_singleton.1 he
    exact Nat.le_refl _

/-- An entry after `put`: an old one, the new one, or one of the scope with a new value. -/
lemma mem_put {t : MacroTable} {name val e'} (h : e' ∈ (t.put name val).entries) :
    e' ∈ t.entries ∨ e' = MacEntry.fresh name val t.level ∨
      ∃ e ∈ t.entries, t.level ≤ e.level ∧ e' = { e with rawval := val, value := none } := by
  rcases put_cases t name val with hput | ⟨i, e, hget, -, hlevel, hput⟩
  · rw [hput] at h
    rcases mem_append.1 h with h | h
    · exact .inl h
    · exact .inr (.inl (mem_singleton.1 h))
  · rw [hput] at h
    rcases mem_or_eq_of_mem_set h with h | h
    · exact .inl h
    · exact .inr (.inr ⟨e, mem_of_getElem? hget, hlevel, h⟩)

lemma Nested.put (h : Nested c) (name val : Text) :
    Nested (c.withTable fun t => t.put name val) := by
  intro e' he'
  show e'.level ≤ (c.table.put name val).level
  rw [put_level]
  rcases mem_put he' with he' | rfl | ⟨e, he, -, rfl⟩
  · exact h e' he'
  · exact Nat.le_refl _
  · exact h e he

lemma Nested.enter (h : Nested c) (i : ℕ) (e : MacEntry) :
    Nested (c.enter i e) := by
  intro e' he'
  obtain ⟨j, hj⟩ := mem_iff_getElem?.1 he'
  simp only [ExpandCtx.enter, setVisited, getElem?_modify] at hj
  obtain ⟨e₀, he₀, rfl⟩ := Option.map_eq_some_iff.1 hj
  have hle := h e₀ (mem_of_getElem? he₀)
  show (if i = j then _ else e₀).level ≤ c.table.level
  split_ifs
  · exact hle
  · exact hle

/-- **Every translation keeps the table** and, even when it stops, the record of scoped texts. -/
theorem trans_kept {xs} :
    ∀ (depth : ℕ) {t level c}, Nested c → xs ⊆ c.scopedTexts →
      wp (trans opts depth t level) (fun _ => Kept c) (fun c' => xs ⊆ c'.scopedTexts) c := by
  intro depth
  induction depth with
  | zero => intro t level c _ hxs; exact wp_throw hxs
  | succ depth ih =>
    intro t level c hc hxs
    refine transPieces_kept (T := fun _ => True)
      (I := fun c => Nested c ∧ xs ⊆ c.scopedTexts) ?_ (fun _ _ _ _ => trivial) ⟨hc, hxs⟩
    refine ⟨fun _ hI => ih hI.1 hI.2, ?_, fun hI => hI.1, ?_, ?_, ?_⟩
    · intro name i e level c hI _ _
      refine ih (hI.1.enter i e) ?_
      simp only [ExpandCtx.enter]
      split_ifs
      · exact hI.2
      · exact subset_cons_of_subset _ hI.2
    · exact fun hI hk => ⟨hI.1.kept hk, fun x hx => hk.texts x (hI.2 hx)⟩
    · exact fun hI => ⟨hI.1.pushScope, hI.2⟩
    · exact fun name val hI _ => ⟨hI.1.put name val, hI.2⟩

/-- A scoped definition with a reference in its text was translated. -/
def Regenerated (c : ExpandCtx) : Prop := ∃ x ∈ c.scopedTexts, hasRef x = true

instance (c : ExpandCtx) : Decidable (Regenerated c) :=
  inferInstanceAs (Decidable (∃ x ∈ c.scopedTexts, hasRef x = true))

/-- The caller's definitions that are not being translated. -/
def unvisited (l : List MacEntry) : ℕ := l.countP fun e => e.level == 0 && !e.visited

/-- At most `u` of the caller's definitions can still be entered, and none is longer than `L`. -/
structure Bounded (L u : ℕ) (c : ExpandCtx) : Prop where
  nested : Nested c
  length_le : ∀ e ∈ c.table.entries, e.level = 0 → e.rawval.length ≤ L
  unvisited_le : unvisited c.table.entries ≤ u

variable {L : ℕ}

lemma Bounded.kept {u} (h : Bounded L u c) (hk : Kept c c') :
    Bounded L u c' := by
  refine ⟨h.nested.kept hk, ?_, ?_⟩
  · rw [hk.entries]; exact h.length_le
  · rw [hk.entries]; exact h.unvisited_le

lemma Bounded.pushScope {u} (h : Bounded L u c) :
    Bounded L u (c.withTable pushScope) := by
  refine ⟨h.nested.pushScope, ?_, ?_⟩
  · intro e he hlevel
    rcases mem_append.1 he with he | he
    · exact h.length_le e he hlevel
    · obtain rfl := mem_singleton.1 he
      exact absurd hlevel (Nat.succ_ne_zero _)
  · simpa [unvisited, ExpandCtx.withTable, MacroTable.pushScope, MacroTable.marker]
      using h.unvisited_le

lemma Bounded.put {u : ℕ} (h : Bounded L u c) (hpos : 0 < c.table.level) (name val : Text) :
    Bounded L u (c.withTable fun t => t.put name val) := by
  refine ⟨h.nested.put name val, ?_, ?_⟩
  · intro e' he' hlevel
    rcases mem_put he' with he' | rfl | ⟨e, -, hge, rfl⟩
    · exact h.length_le e' he' hlevel
    · exact absurd hlevel (Nat.ne_of_gt hpos)
    · simp only at hlevel
      omega
  · refine Nat.le_trans (Nat.le_of_eq ?_) h.unvisited_le
    simp only [ExpandCtx.withTable, unvisited]
    rcases put_cases c.table name val with hput | ⟨i, e, hget, -, hlevel, hput⟩
    · have hne : c.table.level ≠ 0 := Nat.ne_of_gt hpos
      simp [hput, push, MacEntry.fresh, hne]
    · have hne : e.level ≠ 0 := by omega
      obtain ⟨hi, rfl⟩ := List.getElem?_eq_some_iff.1 hget
      simp [hput, overwrite, List.countP_set, hi, hne]

lemma Bounded.enter {u i} (h : Bounded L u c) (hget : c.table.entries[i]? = some e)
    (hlevel : e.level = 0) (hvisited : e.visited = false) :
    ∃ v, u = v + 1 ∧ Bounded L v (c.enter i e) := by
  obtain ⟨hi, rfl⟩ := List.getElem?_eq_some_iff.1 hget
  have hcount := h.unvisited_le
  have hmodify : c.table.entries.modify i (fun e => { e with visited := true }) =
      c.table.entries.set i { c.table.entries[i] with visited := true } := by
    rw [modify_eq_set_getElem?]
    simp [hi]
  have hpos : 0 < unvisited c.table.entries :=
    countP_pos_iff.2 ⟨_, getElem_mem hi, by simp [hlevel, hvisited]⟩
  have henter : unvisited (c.enter i c.table.entries[i]).table.entries + 1 =
      unvisited c.table.entries := by
    simp only [ExpandCtx.enter, setVisited, hmodify, unvisited, countP_set, hi,
      hlevel, hvisited] at hpos ⊢
    simp only [BEq.rfl, Bool.not_false, Bool.and_self, if_true, Bool.not_true,
      Bool.and_false, Bool.false_eq_true, if_false] at hpos ⊢
    omega
  refine ⟨u - 1, by omega, h.nested.enter i _, ?_, by omega⟩
  intro e' he' hlevel'
  simp only [ExpandCtx.enter, setVisited, hmodify] at he'
  rcases mem_or_eq_of_mem_set he' with he' | rfl
  · exact h.length_le e' he' hlevel'
  · exact h.length_le c.table.entries[i] (getElem_mem hi) hlevel

lemma trans_noRef {depth level t} (ht : hasRef t = false) :
    wp (trans opts (depth + 1) t level) (fun _ => Kept c) E c := by
  have hps : ∀ r, Piece.ref r ∉ pieces opts.dollarEscape (decide (0 < level)) t 0 none :=
    fun r => pieces_of_noRef ht
  show wp (transPieces _ level (pieces opts.dollarEscape (decide (0 < level)) t 0 none)) _ E c
  generalize pieces opts.dollarEscape (decide (0 < level)) t 0 none = ps at hps ⊢
  induction ps with
  | nil => exact wp_pure (Kept.refl c)
  | cons piece rest ih =>
    cases piece with
    | text t =>
      refine wp_bind (wp_mono (ih fun r hr => hps r (mem_cons_of_mem _ hr)) ?_
        fun _ hE => hE)
      exact fun out c' hk => wp_pure hk
    | ref r => exact absurd mem_cons_self (hps r)

/-- **A translation that gets too deep has gone through a scoped definition.**  The induction is
on the depth: the part of a reference is shorter than the text, and entering a definition of the
caller's leaves one fewer to enter. -/
theorem trans_bounded :
    ∀ (depth : ℕ) {u : ℕ} {t level c}, Bounded L u c →
      u * (L + 2) + t.length + 1 ≤ depth →
      wp (trans opts depth t level) (fun _ => Kept c) Regenerated c := by
  intro depth
  induction depth with
  | zero => intro u t level c _ hdepth; omega
  | succ depth ih =>
    intro u t level c hc hdepth
    cases t with
    | nil => exact trans_noRef opts rfl
    | cons a t =>
      simp only [length_cons] at hdepth
      refine transPieces_kept (T := fun p => p.length ≤ t.length) (I := Bounded L u) ?_ ?_ hc
      · refine ⟨?_, ?_, Bounded.nested, Bounded.kept, Bounded.pushScope, ?_⟩
        · intro p level c hp hc
          exact ih hc (by omega)
        · intro name i e level c hc hlook hvisited
          obtain ⟨hget, -⟩ := lookup_spec hlook
          by_cases hlevel : e.level = 0
          · obtain ⟨v, rfl, hv⟩ := hc.enter hget hlevel hvisited
            have hlen := hc.length_le e (mem_of_getElem? hget) hlevel
            rw [Nat.add_mul, Nat.one_mul] at hdepth
            exact ih hv (by omega)
          · by_cases href : hasRef e.rawval = true
            · have hmem : [e.rawval] ⊆ (c.enter i e).scopedTexts := by
                simp [ExpandCtx.enter, hlevel]
              refine wp_mono (trans_kept opts depth (hc.nested.enter i e) hmem)
                (fun _ _ hk => hk) fun c' hx => ⟨e.rawval, hx mem_cons_self, href⟩
            · obtain ⟨d, rfl⟩ : ∃ d, depth = d + 1 := ⟨depth - 1, by omega⟩
              exact trans_noRef opts (by simpa using href)
        · exact fun name val hc hpos => hc.put hpos name val
      · intro r hr p hp
        have := pieces_parts_lt hr hp
        simp only [length_cons] at this
        omega

/-! ### The whole expansion -/

def longest (defs : List (Text × Text)) : ℕ := (defs.map fun d => d.2.length).foldr max 0

lemma length_le_longest {defs d} (h : d ∈ defs) :
    d.2.length ≤ longest defs := by
  induction defs with
  | nil => simp at h
  | cons d' defs ih =>
    rcases mem_cons.1 h with rfl | h
    · exact Nat.le_max_left _ _
    · exact Nat.le_trans (ih h) (Nat.le_max_right _ _)

/-- **A depth that depends on the sizes of the definitions and of the source only.** -/
def depthBound (defs : List (Text × Text)) (src : Text) : ℕ :=
  defs.length * (longest defs + 2) + max (longest defs) src.length + 1

/-- Between translations only the caller's definitions are in the table. -/
structure Resting (L n : ℕ) (c : ExpandCtx) : Prop where
  length_eq : c.table.entries.length = n
  entries : ∀ e ∈ c.table.entries, e.level = 0 ∧ e.rawval.length ≤ L

lemma Resting.bounded {n} (h : Resting L n c) : Bounded L n c := by
  refine ⟨?_, fun e he _ => (h.entries e he).2, ?_⟩
  · intro e he
    rw [(h.entries e he).1]
    exact Nat.zero_le _
  · exact Nat.le_trans countP_le_length (Nat.le_of_eq h.length_eq)

/-! The table pass fills in the cached values and keeps the rest. -/

def MacEntry.uncached (e : MacEntry) : MacEntry := { e with value := none }

/-- The same tables up to the cached values. -/
structure SameEntries (t t' : MacroTable) : Prop where
  level : t'.level = t.level
  entries : t'.entries.map MacEntry.uncached = t.entries.map MacEntry.uncached

variable {t : MacroTable}

lemma SameEntries.exists_mem {t' e'} (h : SameEntries t t') (he' : e' ∈ t'.entries) :
    ∃ e ∈ t.entries, e.level = e'.level ∧ e.rawval = e'.rawval ∧ e.visited = e'.visited := by
  have hmem : e'.uncached ∈ t'.entries.map MacEntry.uncached := mem_map_of_mem he'
  rw [h.entries] at hmem
  obtain ⟨e, he, heq⟩ := mem_map.1 hmem
  injection heq with hname hraw hvalue hvisited hspecial hlevel
  exact ⟨e, he, hlevel, hraw, hvisited⟩

lemma SameEntries.kept (h : SameEntries t c.table) (hk : Kept c c') : SameEntries t c'.table :=
  ⟨hk.level.trans h.level, by rw [hk.entries, h.entries]⟩

lemma SameEntries.cache (h : SameEntries t c.table) (i : ℕ) (value : Text) :
    SameEntries t (c.table.cache i value) := by
  refine ⟨h.level, Eq.trans ?_ h.entries⟩
  apply ext_getElem?
  intro j
  simp only [MacroTable.cache, getElem?_map, getElem?_modify]
  cases c.table.entries[j]? with
  | none => rfl
  | some e => by_cases hij : i = j <;> simp [hij, MacEntry.uncached]

lemma expandEntries_same {opts depth}
    (htrans : ∀ {c e}, SameEntries t c.table → e ∈ c.table.entries → wp (trans opts depth e.rawval 1) (fun _ => Kept c) E c) :
    ∀ (k i : ℕ) {c}, SameEntries t c.table →
      wp (expandEntries opts depth k i) (fun _ c' => SameEntries t c'.table) E c := by
  intro k
  induction k with
  | zero => intro i c hc; exact wp_pure hc
  | succ k ih =>
    intro i c hc
    refine wp_bind (wp_get ?_)
    cases hget : c.table.entries[i]? with
    | none => exact wp_pure hc
    | some e =>
      simp only
      split_ifs
      · exact ih (i + 1) hc
      · refine wp_bind (wp_mono (htrans hc (mem_of_getElem? hget)) ?_ fun _ hE => hE)
        exact fun value c' hk => wp_bind (wp_modify (ih (i + 1) ((hc.kept hk).cache i value)))

/-- **An expansion keeps the table up to the cached values**, and stops only where a translation of
an entry or of the source does. -/
theorem expand_same {opts depth} (src : Text) (c₀ : ExpandCtx)
    (htrans : ∀ {c e}, SameEntries c₀.table c.table → e ∈ c.table.entries → wp (trans opts depth e.rawval 1) (fun _ => Kept c) E c)
    (hsrc : ∀ {c}, SameEntries c₀.table c.table → wp (trans opts depth src 0) (fun _ => Kept c) E c) :
    wp (expand opts depth src) (fun _ c' => SameEntries c₀.table c'.table) E c₀ := by
  refine wp_bind (wp_mono (Q := fun _ c' => SameEntries c₀.table c'.table) ?_ ?_ fun _ hE => hE)
  · refine wp_bind (wp_get ?_)
    split_ifs
    · refine wp_bind (wp_mono (expandEntries_same htrans _ 0 ⟨rfl, rfl⟩) ?_ fun _ hE => hE)
      exact fun _ c' hc' => wp_modify ⟨hc'.level, hc'.entries⟩
    · exact wp_pure ⟨rfl, rfl⟩
  · exact fun _ c hc => wp_mono (hsrc hc) (fun _ _ hk => hc.kept hk) fun _ hE => hE

lemma Resting.same {n} (h : Resting L n c) (hs : SameEntries c.table c'.table) :
    Resting L n c' := by
  refine ⟨?_, fun e' he' => ?_⟩
  · have hlength := congrArg length hs.entries
    rw [length_map, length_map] at hlength
    exact hlength.trans h.length_eq
  · obtain ⟨e, he, hlevel, hraw, -⟩ := hs.exists_mem he'
    rw [← hlevel, ← hraw]
    exact h.entries e he

lemma Resting.initial (defs : List (Text × Text)) :
    Resting (longest defs) defs.length (initial opts defs) := by
  refine ⟨by simp [MacLib.initial, new], ?_⟩
  intro e he
  obtain ⟨d, hd, rfl⟩ := mem_map.1 he
  exact ⟨rfl, length_le_longest hd⟩

/-- `P` stands for `$(K)`. -/
def plainDefs : List (Text × Text) := [([0x50], [0x24, 0x28, 0x4b, 0x29])]

/-- The bytes of `$(P,K=5)`: its scoped definition is plain text. -/
def plainText : Text := [0x24, 0x28, 0x50, 0x2c, 0x4b, 0x3d, 0x35, 0x29]

/-- The kinds of table entries when the environment fallback is off. -/
inductive EntryKind
  | definition
  | scopeMarker
deriving DecidableEq

/-- Every definition is written with `KIND_MACRO`, a scoped one included. -/
def MacEntry.kind (e : MacEntry) : EntryKind := if e.special then .scopeMarker else .definition

/-- What an entry is, whatever was cached for it: name, raw value, kind, scope level, marker. -/
def MacEntry.static (e : MacEntry) : Text × Text × EntryKind × ℕ × Bool :=
  (e.name, e.rawval, e.kind, e.level, e.special)

/-- `undefine`: the newest definition of a name goes. -/
def MacroTable.undefine (t : MacroTable) (name : Text) : MacroTable :=
  match t.lookup name with
  | some (i, _) => { t with entries := t.entries.eraseIdx i, dirty := true }
  | none => t

/-- The engine's state when `expand` is called on `t`. -/
def ExpandCtx.ofTable (opts : MacroExpandOptions) (t : MacroTable) : ExpandCtx :=
  { table := t, suppressed := opts.suppressWarnings, scopedTexts := [] }

/-- **The tables there are**: the fields of `MacroTable` are private, so each one comes from `new`
by `define` (a `put` of the caller's), `undefine` and `expand`. -/
inductive MacroTable.Built (opts : MacroExpandOptions) : MacroTable → Prop
  | new (defs : List (Text × Text)) : Built opts (new defs)
  | define {t : MacroTable} (name rawval : Text) : Built opts t → Built opts (t.put name rawval)
  | undefine {t : MacroTable} (name : Text) : Built opts t → Built opts (t.undefine name)
  | expand {t : MacroTable} {depth : ℕ} {src out : Text} {c : ExpandCtx} : Built opts t →
      expand opts depth src (.ofTable opts t) = .ok out c → Built opts c.table

/-- Between calls no scope is open and no mark is raised. -/
structure AtRest (t : MacroTable) : Prop where
  level : t.level = 0
  entries : ∀ e ∈ t.entries, e.level = 0 ∧ e.visited = false

lemma AtRest.same {t'} (h : AtRest t) (hs : SameEntries t t') : AtRest t' := by
  refine ⟨hs.level.trans h.level, fun e' he' => ?_⟩
  obtain ⟨e, he, hlevel, -, hvisited⟩ := hs.exists_mem he'
  rw [← hlevel, ← hvisited]
  exact h.entries e he

lemma AtRest.expand {opts depth src out} (ht : AtRest t)
    (hok : expand opts depth src (.ofTable opts t) = .ok out c) : SameEntries t c.table := by
  have htrans {c : ExpandCtx} {src : Text} {level : ℕ} (hs : SameEntries t c.table) :
      wp (trans opts depth src level) (fun _ => Kept c) (fun _ => True) c := by
    have hnested : Nested c := by
      intro e he
      rw [((ht.same hs).entries e he).1]
      exact Nat.zero_le _
    exact wp_mono (trans_kept opts depth hnested (nil_subset _)) (fun _ _ hk => hk)
      fun _ _ => trivial
  have hwp := expand_same src (.ofTable opts t) (fun hs _ => htrans hs) htrans
  unfold wp at hwp
  rw [hok] at hwp
  exact hwp

lemma MacroTable.Built.atRest {opts : MacroExpandOptions} (h : t.Built opts) : AtRest t := by
  induction h with
  | new defs =>
    refine ⟨rfl, fun e he => ?_⟩
    obtain ⟨d, -, rfl⟩ := mem_map.1 he
    exact ⟨rfl, rfl⟩
  | define name rawval _ ih =>
    refine ⟨(put_level _ _ _).trans ih.level, fun e' he' => ?_⟩
    rcases mem_put he' with he' | rfl | ⟨e, he, -, rfl⟩
    · exact ih.entries e' he'
    · exact ⟨ih.level, rfl⟩
    · exact ih.entries e he
  | @undefine t name _ ih =>
    unfold MacroTable.undefine
    cases t.lookup name with
    | none => exact ih
    | some q => exact ⟨ih.level, fun e he => ih.entries e (mem_of_mem_eraseIdx he)⟩
  | expand _ hok ih => exact ih.same (ih.expand hok)

/-- **An expansion leaves the table as it found it**: the same entries, values apart, at the same
scope level, and no mark raised. -/
theorem expand_leaves_table {opts : MacroExpandOptions} {t : MacroTable} {depth : ℕ}
    {src out : Text} {c : ExpandCtx} (h : t.Built opts)
    (hok : expand opts depth src (.ofTable opts t) = .ok out c) :
    c.table.entries.map MacEntry.static = t.entries.map MacEntry.static ∧
      c.table.level = t.level ∧ ∀ e ∈ c.table.entries, e.visited = false := by
  have hs := h.atRest.expand hok
  refine ⟨?_, hs.level, fun e he => ((h.atRest.same hs).entries e he).2⟩
  have hstatic := congrArg (map MacEntry.static) hs.entries
  rw [map_map, map_map] at hstatic
  exact hstatic

theorem expand_leaves_table_plain : ∃ out c,
    expand ⟨false, false⟩ 4 plainText (.ofTable ⟨false, false⟩ (.new plainDefs)) = .ok out c ∧
      c.table.entries.map MacEntry.static = (MacroTable.new plainDefs).entries.map MacEntry.static ∧
      c.table.level = 0 ∧ ∀ e ∈ c.table.entries, e.visited = false := by
  obtain ⟨out, c, hok⟩ : ∃ out c, expand ⟨false, false⟩ 4 plainText
      (.ofTable ⟨false, false⟩ (.new plainDefs)) = .ok out c := ⟨_, _, rfl⟩
  exact ⟨out, c, hok, expand_leaves_table (.new plainDefs) hok⟩

/-! ### A text that brings itself back -/

/-- The bytes of `$(A,A=$(Q))`. -/
def selfText : Text := [0x24, 0x28, 0x41, 0x2c, 0x41, 0x3d, 0x24, 0x28, 0x51, 0x29, 0x29]

def quotedText : Text :=
  [0x5c, 0x24, 0x28, 0x41, 0x2c, 0x41, 0x3d, 0x5c, 0x24, 0x28, 0x51, 0x29, 0x29]

/-- The one definition of the table: `Q` stands for the quoted text. -/
def selfDefs : List (Text × Text) := [([0x51], quotedText)]

/-- `Q` can be looked up, and its translation is `selfText`. -/
structure SelfReady (c : ExpandCtx) : Prop where
  nested : Nested c
  lookup : ∃ e, c.table.lookup [0x51] = some (0, e) ∧ e.level = 0 ∧ e.visited = false ∧
    e.rawval = quotedText ∧ (c.table.dirty = true ∨ e.value = some selfText)

section SelfText

variable {opts : MacroExpandOptions} {depth level : ℕ} {c : ExpandCtx}

lemma wp_trans {t} (ps : List Piece) {Q : Text → ExpandCtx → Prop}
    (hps : ∀ de, pieces de (decide (0 < level)) t 0 none = ps)
    (h : ∀ d, depth = d + 1 → wp (transPieces (trans opts d) level ps) Q (fun _ => True) c) :
    wp (trans opts depth t level) Q (fun _ => True) c := by
  cases depth with
  | zero => exact wp_throw trivial
  | succ d =>
    have hd := h d rfl
    rw [← hps opts.dollarEscape] at hd
    exact hd

lemma trans_letter (b : UInt8) (hb : b = 0x41 ∨ b = 0x51) :
    wp (trans opts depth [b] level) (fun out c' => out = [b] ∧ c' = c) (fun _ => True) c := by
  refine wp_trans [.text [b]] ?_ fun _ _ => wp_pure ⟨rfl, rfl⟩
  generalize decide (0 < level) = discard
  rcases hb with rfl | rfl <;> cases discard <;> decide

lemma trans_quotedText :
    wp (trans opts depth quotedText (level + 1)) (fun out c' => out = selfText ∧ c' = c)
      (fun _ => True) c := by
  refine wp_trans (selfText.map fun b => .text [b]) ?_ fun _ _ => wp_pure ⟨rfl, rfl⟩
  simp only [Nat.zero_lt_succ, decide_true]
  decide

lemma suppressing_same {m : Expand Text} {out}
    (h : wp m (fun o c' => o = out ∧ c' = c.setSuppressed true) (fun _ => True)
    (c.setSuppressed true)) :
    wp (suppressing m) (fun o c' => o = out ∧ c' = c) (fun _ => True) c := by
  refine wp_bind (wp_get (wp_bind (wp_modify (wp_bind ?_))))
  refine wp_mono h ?_ fun _ hE => hE
  rintro o _ ⟨rfl, rfl⟩
  exact wp_bind (wp_modify (wp_pure ⟨rfl, rfl⟩))

/-- The reference to `Q` in `selfText` gives back `selfText`. -/
lemma trans_quotedRef (hc : SelfReady c) :
    wp (trans opts depth [0x24, 0x28, 0x51, 0x29] level) (fun out c' => out = selfText ∧ c' = c)
      (fun _ => True) c := by
  refine wp_trans [.ref { name := [0x51], default := none, defs := none }] ?_ fun _ _ => ?_
  · generalize decide (0 < level) = discard
    cases discard <;> decide
  · refine wp_bind (wp_bind (wp_mono (suppressing_same (trans_letter 0x51 (.inr rfl))) ?_
      fun _ hE => hE))
    rintro _ _ ⟨rfl, rfl⟩
    obtain ⟨e, hlook, hlevel, hvisited, hraw, hvalue⟩ := hc.lookup
    refine wp_bind (wp_get ?_)
    simp only [hlook, hvisited, Bool.false_eq_true, if_false]
    split_ifs with hdirty
    · rw [hraw]
      refine wp_bind (wp_modify (wp_bind (wp_mono trans_quotedText ?_ fun _ hE => hE)))
      rintro _ _ ⟨rfl, rfl⟩
      refine wp_bind (wp_modify (wp_pure (wp_bind (wp_pure (wp_pure ⟨by simp, ?_⟩)))))
      have hrestore := setVisited_restore (lookup_spec hlook).1 hvisited
      simp only [ExpandCtx.withTable, ExpandCtx.enter, hlevel, if_true, hrestore]
    · have hcached := hvalue.resolve_left hdirty
      exact wp_pure (wp_bind (wp_pure (wp_pure ⟨by simp [hcached], rfl⟩)))

lemma SelfReady.suppressed (hc : SelfReady c) {b} : SelfReady (c.setSuppressed b) :=
  ⟨hc.nested, hc.lookup⟩

lemma SelfReady.pushScope (hc : SelfReady c) :
    SelfReady (c.withTable pushScope) := by
  obtain ⟨e, hlook, he⟩ := hc.lookup
  refine ⟨hc.nested.pushScope, e, ?_, he⟩
  rw [← hlook]
  exact rposition_append_of_false _ (by simp [marker])

/-- The scoped `A` of `selfText`, defined one scope deeper than `c`. -/
def scopedSelf (c : ExpandCtx) : ExpandCtx :=
  (c.withTable MacroTable.pushScope).withTable fun t => t.put [0x41] selfText

lemma scopedSelf_eq (hc : SelfReady c) : (scopedSelf c).table =
    { entries := (c.table.entries ++ [marker (c.table.level + 1)]) ++
        [MacEntry.fresh [0x41] selfText (c.table.level + 1)]
      level := c.table.level + 1
      dirty := true } := by
  simp only [scopedSelf, ExpandCtx.withTable]
  rcases put_cases c.table.pushScope [0x41] selfText with hput | ⟨i, e, hget, hspecial, hlevel, -⟩
  · rw [hput]
    rfl
  · -- an `A` of the new scope would be the marker
    exfalso
    rcases mem_append.1 (mem_of_getElem? hget) with he | he
    · have := hc.nested e he
      simp only [pushScope] at hlevel
      omega
    · obtain rfl := mem_singleton.1 he
      exact absurd hspecial (by simp [marker])

lemma scopedSelf_lookup (hc : SelfReady c) : (scopedSelf c).table.lookup [0x41] =
    some ((c.table.entries ++ [marker (c.table.level + 1)]).length,
      MacEntry.fresh [0x41] selfText (c.table.level + 1)) := by
  rw [scopedSelf_eq hc]
  exact rposition_append _ rfl (by simp)

/-- The state in which the scoped `A` is translated is as good as the one before. -/
lemma SelfReady.enter (hc : SelfReady c) : SelfReady ((scopedSelf c).enter
    (c.table.entries ++ [marker (c.table.level + 1)]).length
    (MacEntry.fresh [0x41] selfText (c.table.level + 1))) := by
  have hnested : Nested (scopedSelf c) := hc.nested.pushScope.put [0x41] selfText
  refine ⟨hnested.enter _ _, ?_⟩
  obtain ⟨e, hlook, hlevel, hvisited, hraw, -⟩ := hc.lookup
  refine ⟨e, ?_, hlevel, hvisited, hraw, .inl ?_⟩
  · rw [← hlook]
    simp only [ExpandCtx.enter, scopedSelf_eq hc, setVisited]
    rw [modify_last, append_assoc]
    refine rposition_append_of_false _ ?_
    simp [marker, MacEntry.fresh]
  · simp only [ExpandCtx.enter, scopedSelf_eq hc, setVisited]

lemma resolve_stops {recur name default i e} (hlook : c.table.lookup name = some (i, e)) (hvisited : e.visited = false)
    (hdirty : c.table.dirty = true)
    (h : wp (recur e.rawval (level + 1)) (fun _ _ => False) (fun _ => True) (c.enter i e)) :
    wp (resolve recur level name default) (fun _ _ => False) (fun _ => True) c := by
  refine wp_bind (wp_get ?_)
  simp only [hlook, hvisited, hdirty, Bool.false_eq_true, if_false, if_true]
  exact wp_bind (wp_modify (wp_bind (wp_mono h (fun _ _ hfalse => hfalse.elim) fun _ hE => hE)))

/-- **`selfText` is translated through itself**, at any depth. -/
theorem trans_selfText_deep :
    ∀ (depth : ℕ) {level c}, SelfReady c →
      wp (trans opts depth selfText level) (fun _ _ => False) (fun _ => True) c := by
  intro depth
  induction depth with
  | zero => intro level c _; exact wp_throw trivial
  | succ depth ih =>
    intro level c hc
    refine wp_trans [.ref ⟨[0x41], none, some [([0x41], some [0x24, 0x28, 0x51, 0x29])]⟩] ?_
      fun d hd => ?_
    · generalize decide (0 < level) = discard
      cases discard <;> decide
    obtain rfl := Nat.succ.inj hd
    refine wp_bind (wp_bind (wp_mono (suppressing_same (trans_letter 0x41 (.inl rfl))) ?_
      fun _ hE => hE))
    rintro _ c ⟨rfl, rfl⟩
    -- the scope is opened and `A` defined in it, with the text itself for a value
    refine wp_bind (wp_modify (wp_bind (wp_bind ?_)))
    refine wp_mono (suppressing_same (trans_letter 0x41 (.inl rfl))) ?_ fun _ hE => hE
    rintro _ _ ⟨rfl, rfl⟩
    refine wp_bind (wp_mono (suppressing_same (trans_quotedRef hc.pushScope.suppressed)) ?_
      fun _ hE => hE)
    rintro _ _ ⟨rfl, rfl⟩
    refine wp_bind (wp_modify (wp_pure (wp_bind ?_)))
    -- the new `A` is not marked, so its text is translated one deeper
    have hdirty := congrArg dirty (scopedSelf_eq hc)
    exact wp_mono (resolve_stops (scopedSelf_lookup hc) rfl hdirty (ih hc.enter))
      (fun _ _ hfalse => hfalse.elim) fun _ hE => hE

lemma expand_selfText_stops : wp (expand opts depth selfText) (fun _ _ => False) (fun _ => True)
    (initial opts selfDefs) := by
  refine wp_bind (wp_bind (wp_get (wp_bind (wp_bind (wp_get (wp_bind ?_))))))
  refine wp_mono (@trans_quotedText _ _ 0 _) ?_ fun _ hE => hE
  rintro _ _ ⟨rfl, rfl⟩
  refine wp_bind (wp_modify (wp_pure (wp_modify (trans_selfText_deep depth ?_))))
  refine ⟨?_, ⟨_, rfl, rfl, rfl, rfl, .inr rfl⟩⟩
  intro e he
  obtain rfl := mem_singleton.1 he
  exact Nat.le_refl 0

end SelfText

end MacLib
