/-
**The link graph of a database.**

Records, the record that each of their DB link fields names, and the lock partners, as
`server/database/record_lock.rs` reads them.  `db_link_adjacency_of` lists the records that a record
reaches and those that reach it, without the link being edited.  Record names are any linear order;
how a link text is parsed is not modelled.

Main result: `RecordLock.Database.mem_neighbours_adjacencyOf`.
-/

import Mathlib

set_option autoImplicit false

namespace RecordLock

open Function List

/-! ### Field names -/

abbrev FieldName : Type := List UInt8

def toAsciiUppercase (field : FieldName) : FieldName :=
  field.map fun b => if 97 ≤ b && b ≤ 122 then b - 32 else b

def eqIgnoreAsciiCase (a b : FieldName) : Bool := toAsciiUppercase a = toAsciiUppercase b

lemma eqIgnoreAsciiCase_iff {a b} :
    eqIgnoreAsciiCase a b = true ↔ toAsciiUppercase a = toAsciiUppercase b :=
  decide_eq_true_iff

/-! ### The adjacency -/

structure DbLinks (ν : Type) where
  out : List ν
  back : List (ν × Option FieldName)

def DbLinks.neighbours {ν : Type} (links : DbLinks ν) : List ν := links.out ++ links.back.map Prod.fst

/-- `Adjacency`: the entries of the map are those of `keys`. -/
structure Adjacency (ν : Type) where
  keys : Finset ν
  links : ν → DbLinks ν

namespace Adjacency

variable {ν : Type} [DecidableEq ν] (adjacency : Adjacency ν)

def neighbours (name : ν) : List ν :=
  if name ∈ adjacency.keys then (adjacency.links name).neighbours else []

def ofNames (names : List ν) : Adjacency ν := ⟨names.toFinset, fun _ => ⟨[], []⟩⟩

def push (name : ν) (field : Option FieldName) (target : ν) : Adjacency ν :=
  let out := Function.update adjacency.links name
    { adjacency.links name with out := (adjacency.links name).out ++ [target] }
  { keys := insert target (insert name adjacency.keys)
    links := Function.update out target
      { out target with back := (out target).back ++ [(name, field)] } }

/-- The links of an entry only. -/
def Sparse : Prop := ∀ name, name ∉ adjacency.keys → adjacency.links name = ⟨[], []⟩

def Symmetric : Prop := ∀ x y, y ∈ adjacency.neighbours x → x ∈ adjacency.neighbours y

variable {adjacency}

lemma neighbours_of_sparse (h : adjacency.Sparse) (name : ν) :
    adjacency.neighbours name = (adjacency.links name).neighbours := by
  unfold neighbours
  split_ifs with hkey
  · rfl
  · rw [h name hkey]
    rfl

lemma ofNames_symmetric (names : List ν) :
    (ofNames names).Sparse ∧ (ofNames names).Symmetric := by
  have hsparse : (ofNames names).Sparse := fun _ _ => rfl
  refine ⟨hsparse, fun x y hxy => ?_⟩
  rw [neighbours_of_sparse hsparse] at hxy
  exact absurd hxy not_mem_nil

lemma Sparse.push (h : adjacency.Sparse) (name : ν) (field : Option FieldName) (target : ν) :
    (adjacency.push name field target).Sparse := by
  intro x hx
  simp only [Adjacency.push, Finset.mem_insert, not_or] at hx
  obtain ⟨hxt, hxn, hx⟩ := hx
  simp only [Adjacency.push, update_of_ne hxt, update_of_ne hxn, h x hx]

lemma mem_links_push {name target x y field} :
    y ∈ ((adjacency.push name field target).links x).neighbours ↔
      y ∈ (adjacency.links x).neighbours ∨ x = name ∧ y = target ∨ x = target ∧ y = name := by
  unfold Adjacency.push
  by_cases hxt : x = target
  · subst hxt
    by_cases hxn : x = name
    · subst hxn
      simp [DbLinks.neighbours]
      tauto
    · simp [DbLinks.neighbours, hxn]
      tauto
  · by_cases hxn : x = name
    · subst hxn
      simp [DbLinks.neighbours, hxt]
      tauto
    · simp [DbLinks.neighbours, hxt, hxn]

end Adjacency

/-! ### The database -/

/-- The record map, the DB link fields of each record in `link_ind` order with the record that they
name, and the partners of `set_lock_partners`.  A record has no two fields of one name. -/
structure Database (ν : Type) where
  records : Finset ν
  fields : ν → List (FieldName × Option ν)
  partners : ν → List ν
  distinct : ∀ record, ((fields record).map fun l => toAsciiUppercase l.1).Nodup

namespace Database

variable {ν : Type} [DecidableEq ν] (db : Database ν)

/-- `db_links`: a record that the database does not have has no link fields. -/
def dbLinks (record : ν) : List (Option FieldName × ν) :=
  (if record ∈ db.records then
      (db.fields record).filterMap fun l =>
        (l.2.filter fun target => target ∈ db.records).map fun target => (some l.1, target)
    else []) ++
    ((db.partners record).filter fun target => target ∈ db.records).map fun target => (none, target)

def dbLinkTargets (record : ν) : List ν := (db.dbLinks record).map Prod.snd

def dbLinkOf (record : ν) (field : FieldName) : Option ν :=
  ((db.dbLinks record).find? fun l => l.1.any fun name => eqIgnoreAsciiCase name field).map Prod.snd

/-- The link that `without` names. -/
def skips (without : Option (ν × FieldName)) (name : ν) (field : Option FieldName) : Bool :=
  without.any fun w => decide (name = w.1) && field.any fun f => eqIgnoreAsciiCase f w.2

/-- The links of one record are read into the adjacency. -/
def addLinks (without : Option (ν × FieldName)) (adjacency : Adjacency ν) (name : ν) : Adjacency ν :=
  (db.dbLinks name).foldl (fun adjacency l =>
    if skips without name l.1 then adjacency else adjacency.push name l.1 l.2) adjacency

/-- `db_link_adjacency_of`. -/
def adjacencyOf (names : List ν) (without : Option (ν × FieldName)) : Adjacency ν :=
  names.foldl (db.addLinks without) (.ofNames names)

def writeField (links : List (FieldName × Option ν)) (field : FieldName) (target : Option ν) :
    List (FieldName × Option ν) :=
  links.map fun l => if eqIgnoreAsciiCase l.1 field then (l.1, target) else l

omit [DecidableEq ν] in
lemma map_fst_writeField (links : List (FieldName × Option ν)) (field : FieldName)
    (target : Option ν) : (writeField links field target).map (fun l => toAsciiUppercase l.1) =
      links.map fun l => toAsciiUppercase l.1 := by
  unfold writeField
  rw [map_map]
  refine map_congr_left fun l _ => ?_
  simp only [comp_apply]
  split_ifs
  · rfl
  · rfl

def setField (record : ν) (field : FieldName) (target : Option ν) : Database ν where
  records := db.records
  fields := Function.update db.fields record (writeField (db.fields record) field target)
  partners := db.partners
  distinct := by
    intro x
    by_cases hx : x = record
    · subst hx
      rw [Function.update_self, map_fst_writeField]
      exact db.distinct x
    · rw [Function.update_of_ne hx]
      exact db.distinct x

/-- The links that are not left out. -/
def Links (without : Option (ν × FieldName)) (x y : ν) : Prop :=
  ∃ field, (field, y) ∈ db.dbLinks x ∧ skips without x field = false

/-- The graph: the links and partners of the records. -/
def Edge (x y : ν) : Prop := x ∈ db.records ∧ db.Links none x y

variable {db} {field : Option FieldName} {record : ν}

lemma mem_dbLinks {target} :
    (field, target) ∈ db.dbLinks record ↔ target ∈ db.records ∧
      (record ∈ db.records ∧ (∃ name, field = some name ∧ (name, some target) ∈ db.fields record) ∨
        field = none ∧ target ∈ db.partners record) := by
  have hfields : (field, target) ∈ (db.fields record).filterMap (fun l =>
      (l.2.filter fun target => target ∈ db.records).map fun target => (some l.1, target)) ↔
      target ∈ db.records ∧ ∃ name, field = some name ∧ (name, some target) ∈ db.fields record := by
    simp only [mem_filterMap, Option.map_eq_some_iff, Option.filter_eq_some_iff,
      decide_eq_true_eq, Prod.mk.injEq]
    constructor
    · rintro ⟨⟨name, _⟩, hl, t, ⟨rfl, ht⟩, rfl, rfl⟩
      exact ⟨ht, name, rfl, hl⟩
    · rintro ⟨ht, name, rfl, hl⟩
      exact ⟨(name, some target), hl, target, ⟨rfl, ht⟩, rfl, rfl⟩
  have hpartners : (field, target) ∈ ((db.partners record).filter fun target =>
      target ∈ db.records).map (fun target => ((none : Option FieldName), target)) ↔
      target ∈ db.records ∧ field = none ∧ target ∈ db.partners record := by
    simp only [mem_map, mem_filter, decide_eq_true_eq, Prod.mk.injEq]
    constructor
    · rintro ⟨t, ⟨hpartner, ht⟩, rfl, rfl⟩
      exact ⟨ht, rfl, hpartner⟩
    · rintro ⟨ht, rfl, hpartner⟩
      exact ⟨target, ⟨hpartner, ht⟩, rfl, rfl⟩
  unfold dbLinks
  rw [mem_append, hpartners]
  split_ifs with hrecord
  · rw [hfields]
    simp only [hrecord, true_and]
    exact and_or_left.symm
  · simp [hrecord]

lemma target_mem {target} (h : (field, target) ∈ db.dbLinks record) :
    target ∈ db.records :=
  (mem_dbLinks.1 h).1

lemma Edge.target_mem {x y} (h : db.Edge x y) : y ∈ db.records := by
  obtain ⟨-, field, hlink, -⟩ := h
  exact Database.target_mem hlink

lemma skips_some {w} {name : ν} :
    skips (some w) name field = true ↔
      name = w.1 ∧ ∃ f, field = some f ∧ toAsciiUppercase f = toAsciiUppercase w.2 := by
  unfold skips
  rw [Option.any_some, Bool.and_eq_true, decide_eq_true_eq, Option.any_eq_true]
  simp only [eqIgnoreAsciiCase_iff]

omit [DecidableEq ν] in
lemma field_inj {f g s t} (hf : (f, s) ∈ db.fields record) (hg : (g, t) ∈ db.fields record)
    (heq : toAsciiUppercase f = toAsciiUppercase g) : s = t :=
  congrArg Prod.snd (inj_on_of_nodup_map (db.distinct record) hf hg heq)

lemma dbLinkOf_eq_some {target field} :
    db.dbLinkOf record field = some target ↔ ∃ f, (some f, target) ∈ db.dbLinks record ∧
      toAsciiUppercase f = toAsciiUppercase field := by
  have hpred : ∀ l : Option FieldName × ν,
      l.1.any (fun name => eqIgnoreAsciiCase name field) = true ↔
        ∃ f, l.1 = some f ∧ toAsciiUppercase f = toAsciiUppercase field := by
    intro l
    rw [Option.any_eq_true]
    simp only [eqIgnoreAsciiCase_iff]
  unfold dbLinkOf
  constructor
  · intro h
    obtain ⟨l, hfind, rfl⟩ := Option.map_eq_some_iff.1 h
    have hl := find?_some hfind
    obtain ⟨f, hf, heq⟩ := (hpred l).1 hl
    exact ⟨f, hf ▸ mem_of_find?_eq_some hfind, heq⟩
  · rintro ⟨f, hlink, heq⟩
    cases hfind : (db.dbLinks record).find? fun l =>
        l.1.any fun name => eqIgnoreAsciiCase name field with
    | none => exact absurd ((hpred (some f, target)).2 ⟨f, rfl, heq⟩) (find?_eq_none.1 hfind _ hlink)
    | some l =>
      have hl := find?_some hfind
      obtain ⟨g, hg, heq'⟩ := (hpred l).1 hl
      have hlink' : (some g, l.2) ∈ db.dbLinks record := hg ▸ mem_of_find?_eq_some hfind
      rw [mem_dbLinks] at hlink hlink'
      obtain ⟨-, ⟨-, _, hf, hmem⟩ | ⟨hnone, -⟩⟩ := hlink
      · obtain ⟨-, ⟨-, _, hg', hmem'⟩ | ⟨hnone, -⟩⟩ := hlink'
        · obtain rfl := Option.some.inj hf
          obtain rfl := Option.some.inj hg'
          rw [Option.map_some, field_inj hmem' hmem (heq'.trans heq.symm)]
        · exact absurd hnone nofun
      · exact absurd hnone nofun

/-- **One link more than the graph without it.** -/
theorem links_iff (record : ν) (field : FieldName) {x y : ν} : db.Links none x y ↔
    db.Links (some (record, field)) x y ∨ x = record ∧ db.dbLinkOf record field = some y := by
  constructor
  · rintro ⟨f, hlink, -⟩
    cases hskip : skips (some (record, field)) x f with
    | false => exact Or.inl ⟨f, hlink, hskip⟩
    | true =>
      obtain ⟨rfl, g, rfl, heq⟩ := skips_some.1 hskip
      exact Or.inr ⟨rfl, dbLinkOf_eq_some.2 ⟨g, hlink, heq⟩⟩
  · rintro (⟨f, hlink, -⟩ | ⟨rfl, h⟩)
    · exact ⟨f, hlink, rfl⟩
    · obtain ⟨f, hlink, -⟩ := dbLinkOf_eq_some.1 h
      exact ⟨some f, hlink, rfl⟩

lemma links_setField (record : ν) (field : FieldName) (target : Option ν) {x y : ν} :
    (db.setField record field target).Links (some (record, field)) x y ↔
      db.Links (some (record, field)) x y := by
  refine exists_congr fun f => and_congr_left fun hskip => ?_
  rw [mem_dbLinks, mem_dbLinks]
  refine and_congr_right fun _ => or_congr_left (and_congr_right fun _ => ?_)
  refine exists_congr fun name => and_congr_right fun hf => ?_
  simp only [setField]
  by_cases hx : x = record
  · subst hx
    have hother : eqIgnoreAsciiCase name field = false := by
      cases h : eqIgnoreAsciiCase name field with
      | false => rfl
      | true =>
        rw [skips_some.2 ⟨rfl, name, hf, eqIgnoreAsciiCase_iff.1 h⟩] at hskip
        exact absurd hskip nofun
    rw [update_self, writeField, mem_map]
    constructor
    · rintro ⟨l, hl, heq⟩
      split_ifs at heq with hl'
      · obtain ⟨rfl, -⟩ := Prod.mk.inj heq
        rw [hother] at hl'
        exact absurd hl' nofun
      · rwa [← heq]
    · intro hmem
      exact ⟨_, hmem, by rw [hother]; rfl⟩
  · rw [update_of_ne hx]

section

variable {without : Option (ν × FieldName)}

lemma fold_links (without : Option (ν × FieldName)) (name : ν)
    (links : List (Option FieldName × ν)) : ∀ {adjacency : Adjacency ν}, adjacency.Sparse →
    let result := links.foldl (fun adjacency l =>
      if skips without name l.1 then adjacency else adjacency.push name l.1 l.2) adjacency
    result.Sparse ∧ adjacency.keys ⊆ result.keys ∧
      (∀ x ∈ result.keys, x ∈ adjacency.keys ∨ x = name ∨ ∃ f, (f, x) ∈ links) ∧
      ∀ x y, y ∈ (result.links x).neighbours ↔ y ∈ (adjacency.links x).neighbours ∨
        ∃ l ∈ links, skips without name l.1 = false ∧
          (x = name ∧ y = l.2 ∨ x = l.2 ∧ y = name) := by
  induction links with
  | nil => exact fun h => ⟨h, Finset.Subset.refl _, fun _ hx => Or.inl hx, by simp⟩
  | cons l links ih =>
    intro adjacency h
    rw [foldl_cons]
    split_ifs with hskip
    · obtain ⟨hsparse, hkeys, hback, hlinks⟩ := ih h
      refine ⟨hsparse, hkeys, fun x hx => ?_, fun x y => ?_⟩
      · rcases hback x hx with hx | hx | ⟨f, hx⟩
        · exact Or.inl hx
        · exact Or.inr (Or.inl hx)
        · exact Or.inr (Or.inr ⟨f, mem_cons_of_mem l hx⟩)
      · rw [hlinks x y]
        simp [hskip]
    · obtain ⟨hsparse, hkeys, hback, hlinks⟩ := ih (h.push name l.1 l.2)
      refine ⟨hsparse, fun x hx => hkeys ?_, fun x hx => ?_, fun x y => ?_⟩
      · simp [Adjacency.push, hx]
      · rcases hback x hx with hx | hx | ⟨f, hx⟩
        · simp only [Adjacency.push, Finset.mem_insert] at hx
          rcases hx with rfl | rfl | hx
          · exact Or.inr (Or.inr ⟨l.1, mem_cons_self⟩)
          · exact Or.inr (Or.inl rfl)
          · exact Or.inl hx
        · exact Or.inr (Or.inl hx)
        · exact Or.inr (Or.inr ⟨f, mem_cons_of_mem l hx⟩)
      · rw [hlinks x y, Adjacency.mem_links_push]
        have hkept : skips without name l.1 = false := by simpa using hskip
        simp only [mem_cons, exists_eq_or_imp, hkept, true_and]
        exact or_assoc

lemma fold_names (db : Database ν) (without : Option (ν × FieldName)) (todo : List ν) :
    ∀ {adjacency : Adjacency ν}, adjacency.Sparse →
    let result := todo.foldl (db.addLinks without) adjacency
    result.Sparse ∧ adjacency.keys ⊆ result.keys ∧
      (∀ x ∈ result.keys, x ∈ adjacency.keys ∨ x ∈ todo ∨ x ∈ db.records) ∧
      ∀ x y, y ∈ (result.links x).neighbours ↔ y ∈ (adjacency.links x).neighbours ∨
        x ∈ todo ∧ db.Links without x y ∨ y ∈ todo ∧ db.Links without y x := by
  induction todo with
  | nil => exact fun h => ⟨h, Finset.Subset.refl _, fun _ hx => Or.inl hx, by simp⟩
  | cons name todo ih =>
    intro adjacency h
    rw [foldl_cons, addLinks]
    obtain ⟨hsparse₁, hkeys₁, hback₁, hlinks₁⟩ := fold_links without name
      (db.dbLinks name) h
    obtain ⟨hsparse, hkeys, hback, hlinks⟩ := ih hsparse₁
    refine ⟨hsparse, hkeys₁.trans hkeys, fun x hx => ?_, fun x y => ?_⟩
    · rcases hback x hx with hx | hx | hx
      · rcases hback₁ x hx with hx | rfl | ⟨f, hx⟩
        · exact Or.inl hx
        · exact Or.inr (Or.inl mem_cons_self)
        · exact Or.inr (Or.inr (target_mem hx))
      · exact Or.inr (Or.inl (mem_cons_of_mem name hx))
      · exact Or.inr (Or.inr hx)
    · rw [hlinks x y, hlinks₁ x y]
      constructor
      · rintro ((hold | ⟨l, hl, hskip, ⟨rfl, rfl⟩ | ⟨rfl, rfl⟩⟩) | ⟨hx, hlink⟩ | ⟨hy, hlink⟩)
        · exact Or.inl hold
        · exact Or.inr (Or.inl ⟨mem_cons_self, l.1, hl, hskip⟩)
        · exact Or.inr (Or.inr ⟨mem_cons_self, l.1, hl, hskip⟩)
        · exact Or.inr (Or.inl ⟨mem_cons_of_mem name hx, hlink⟩)
        · exact Or.inr (Or.inr ⟨mem_cons_of_mem name hy, hlink⟩)
      · rintro (hold | ⟨hx, f, hl, hskip⟩ | ⟨hy, f, hl, hskip⟩)
        · exact Or.inl (Or.inl hold)
        · rcases mem_cons.1 hx with rfl | hx
          · exact Or.inl (Or.inr ⟨(f, y), hl, hskip, Or.inl ⟨rfl, rfl⟩⟩)
          · exact Or.inr (Or.inl ⟨hx, f, hl, hskip⟩)
        · rcases mem_cons.1 hy with rfl | hy
          · exact Or.inl (Or.inr ⟨(f, x), hl, hskip, Or.inr ⟨rfl, rfl⟩⟩)
          · exact Or.inr (Or.inr ⟨hy, f, hl, hskip⟩)

lemma symmetric_addLinks {adjacency : Adjacency ν} (hsparse : adjacency.Sparse)
    (hsymm : adjacency.Symmetric) (name : ν) :
    (db.addLinks without adjacency name).Sparse ∧ (db.addLinks without adjacency name).Symmetric := by
  obtain ⟨hsparse', -, -, hlinks⟩ := fold_links without name (db.dbLinks name) hsparse
  refine ⟨hsparse', fun x y hxy => ?_⟩
  rw [addLinks, Adjacency.neighbours_of_sparse hsparse', hlinks] at hxy ⊢
  rcases hxy with hxy | ⟨l, hl, hskip, hends⟩
  · refine Or.inl ?_
    rw [← Adjacency.neighbours_of_sparse hsparse] at hxy ⊢
    exact hsymm x y hxy
  · exact Or.inr ⟨l, hl, hskip, hends.symm.imp And.symm And.symm⟩

variable {names : List ν}

lemma adjacencyOf_spec (db : Database ν) (names : List ν) (without : Option (ν × FieldName)) :
    (db.adjacencyOf names without).Sparse ∧
      (∀ x ∈ names, x ∈ (db.adjacencyOf names without).keys) ∧
      (∀ x ∈ (db.adjacencyOf names without).keys, x ∈ names ∨ x ∈ db.records) ∧
      ∀ x y, y ∈ ((db.adjacencyOf names without).links x).neighbours ↔
        x ∈ names ∧ db.Links without x y ∨ y ∈ names ∧ db.Links without y x := by
  have hstart : (Adjacency.ofNames names).Sparse := fun _ _ => rfl
  obtain ⟨hsparse, hkeys, hback, hlinks⟩ := fold_names db without names hstart
  refine ⟨hsparse, fun x hx => hkeys (mem_toFinset.2 hx), fun x hx => ?_, fun x y => ?_⟩
  · rcases hback x hx with hx | hx
    · exact Or.inl (mem_toFinset.1 hx)
    · exact hx
  · rw [adjacencyOf, hlinks x y]
    simp [Adjacency.ofNames, DbLinks.neighbours]

/-- **The neighbours are the links, either way.** -/
theorem mem_neighbours_adjacencyOf {x y} :
    y ∈ (db.adjacencyOf names without).neighbours x ↔
      x ∈ names ∧ db.Links without x y ∨ y ∈ names ∧ db.Links without y x := by
  obtain ⟨hsparse, -, -, hlinks⟩ := adjacencyOf_spec db names without
  rw [Adjacency.neighbours_of_sparse hsparse, hlinks x y]

end

end Database

end RecordLock
