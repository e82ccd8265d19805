/-
**What an update does to a value.**

An update is a value with a set of marked bits.  Laid over a complete value, it replaces the marked
fields; the functions of `PvaPartial` compute this in different ways.  Two updates are the same as
one: the fields of both, with the later one in front, under the bits of both spelled out over the
fields that are not structures, since the bit of a structure would drag other fields along.

Main result: `Pva.overlay_overlay`.
-/

import EpicsRs.PvaPartial
import EpicsRs.PvaValueInline

set_option autoImplicit false

namespace Pva

open ByteReader List FieldDesc TypeCache PvField BitSet

/-! ### Overlays -/

def headValue : List (String × PvField) → PvField
  | [] => .null
  | f :: _ => f.2

mutual
/-- The update `new` laid over `old`: `p` says which bits are marked, and `whole` that a structure
around the field is. -/
def overlay (p : ℕ → Bool) : FieldDesc → ℕ → Bool → PvField → PvField → PvField
  | .struct i ms, bit, whole, new, old =>
      .struct ⟨i, overlayMembers p ms (bit + 1) (whole || p bit) (fieldsOf new) (fieldsOf old)⟩
  | _, bit, whole, new, old => if whole || p bit then new else old

def overlayMembers (p : ℕ → Bool) : List Member → ℕ → Bool → List (String × PvField) →
    List (String × PvField) → List (String × PvField)
  | [], _, _, _, _ => []
  | (name, d) :: ms, bit, whole, news, olds =>
      (name, overlay p d bit whole (headValue news) (headValue olds)) ::
        overlayMembers p ms (bit + d.totalBits) whole news.tail olds.tail
end

mutual
/-- The structures of the value are those of the descriptor: their ids, and the names of their
fields in order. -/
def shaped : FieldDesc → PvField → Bool
  | .struct i ms, .struct ⟨j, fs⟩ => decide (j = i) && shapedMembers ms fs
  | .struct .., _ => false
  | _, _ => true

def shapedMembers : List Member → List (String × PvField) → Bool
  | [], [] => true
  | (name, d) :: ms, (n, v) :: fs => decide (n = name) && shaped d v && shapedMembers ms fs
  | _, _ => false
end

variable {d : FieldDesc}

lemma overlay_leaf (hd : d.isStruct = false) (p : ℕ → Bool) (bit : ℕ) (whole : Bool)
    (new old : PvField) :
    overlay p d bit whole new old = if whole || p bit then new else old := by
  cases d <;> first | rfl | simp [isStruct] at hd

lemma shaped_leaf (hd : d.isStruct = false) (v : PvField) :
    shaped d v = true := by
  cases d <;> first | rfl | simp [isStruct] at hd

variable {ms : List Member} {v : PvField}

lemma shaped_struct {i} :
    shaped (.struct i ms) v = true ↔
      ∃ fs, v = .struct ⟨i, fs⟩ ∧ shapedMembers ms fs = true := by
  cases v with
  | struct s =>
    obtain ⟨j, fs⟩ := s
    simp [shaped]
  | _ => simp [shaped]

variable {fs : List (String × PvField)}

lemma shapedMembers_cons {name} :
    shapedMembers ((name, d) :: ms) fs = true ↔
      ∃ v fs', fs = (name, v) :: fs' ∧ shaped d v = true ∧ shapedMembers ms fs' = true := by
  cases fs with
  | nil => simp [shapedMembers]
  | cons f fs =>
    obtain ⟨n, v⟩ := f
    simp [shapedMembers, and_assoc]

lemma shapedMembers_nil :
    shapedMembers [] fs = true ↔ fs = [] := by
  cases fs <;> simp [shapedMembers]

section

variable {p : ℕ → Bool}

lemma shaped_overlay (d : FieldDesc) :
    ∀ bit whole new old, shaped d (overlay p d bit whole new old) = true := by
  induction d using members_induction
    (Q := fun ms => ∀ bit whole news olds,
      shapedMembers ms (overlayMembers p ms bit whole news olds) = true) with
  | leaf d hd => exact fun _ _ _ _ => shaped_leaf hd _
  | nil => rfl
  | cons name d ms hm hms =>
    exact shapedMembers_cons.2 ⟨_, _, rfl, hm .., hms ..⟩
  | struct i ms ih => exact fun _ _ _ _ => shaped_struct.2 ⟨_, rfl, ih ..⟩

lemma overlay_whole (d : FieldDesc) :
    ∀ bit new old, shaped d new = true → overlay p d bit true new old = new := by
  induction d using members_induction
    (Q := fun ms => ∀ bit news olds, shapedMembers ms news = true →
      overlayMembers p ms bit true news olds = news) with
  | leaf d hd =>
    intro bit new old _
    rw [overlay_leaf hd]
    rfl
  | nil _ _ _ h => exact (shapedMembers_nil.1 h).symm
  | cons name d ms hm hms bit news olds h =>
    obtain ⟨v, fs, rfl, hv, hfs⟩ := shapedMembers_cons.1 h
    rw [overlayMembers, headValue, tail_cons, hm _ _ _ hv, hms _ _ _ hfs]
  | struct i ms ih =>
    intro bit new old h
    obtain ⟨news, rfl, hnews⟩ := shaped_struct.1 h
    rw [overlay, Bool.true_or, fieldsOf, ih _ _ _ hnews]

lemma overlay_of_bit {i bit new old} (hbit : p bit = true) (h : shaped (.struct i ms) new = true) :
    overlay p (.struct i ms) bit false new old = new := by
  have hwhole := overlay_whole (p := p) (.struct i ms) bit new old h
  rw [overlay, Bool.true_or] at hwhole
  rw [overlay, hbit, Bool.or_true, hwhole]

lemma overlay_none (d : FieldDesc) :
    ∀ bit new old, (∀ j, bit ≤ j → j < bit + d.totalBits → p j = false) → shaped d old = true →
      overlay p d bit false new old = old := by
  induction d using members_induction
    (Q := fun ms => ∀ bit news olds,
      (∀ j, bit ≤ j → j < bit + totalBitsMembers ms → p j = false) →
      shapedMembers ms olds = true → overlayMembers p ms bit false news olds = olds) with
  | leaf d hd =>
    intro bit new old hp _
    rw [totalBits_of_leaf hd] at hp
    rw [overlay_leaf hd, hp bit le_rfl (Nat.lt_succ_self bit)]
    rfl
  | nil _ _ _ _ h => exact (shapedMembers_nil.1 h).symm
  | cons name d ms hm hms bit news olds hp h =>
    -- each member is at the bit behind the one before
    obtain ⟨v, fs, rfl, hv, hfs⟩ := shapedMembers_cons.1 h
    rw [totalBitsMembers] at hp
    rw [overlayMembers, headValue, hm _ _ _ (fun j h₁ h₂ => hp j h₁ (by omega)) hv]
    exact congrArg _ (hms _ _ _ (fun j h₁ h₂ => hp j (by omega) (by omega)) hfs)
  | struct i ms ih =>
    intro bit new old hp h
    obtain ⟨olds, rfl, holds⟩ := shaped_struct.1 h
    rw [totalBits] at hp
    rw [overlay, hp bit le_rfl (by omega), Bool.false_or, fieldsOf,
      ih _ _ _ (fun j h₁ h₂ => hp j (by omega) (by omega)) holds]

lemma fieldsOf_overlay (i : String) (ms : List Member) (bit : ℕ) (whole : Bool)
    (new old : PvField) :
    fieldsOf (overlay p (.struct i ms) bit whole new old) =
      overlayMembers p ms (bit + 1) (whole || p bit) (fieldsOf new) (fieldsOf old) := by
  rw [overlay, fieldsOf]

lemma overlay_same (d : FieldDesc) :
    ∀ bit whole x y z, overlay p d bit whole (overlay p d bit whole x y) z =
      overlay p d bit whole x z := by
  induction d using members_induction
    (Q := fun ms => ∀ bit whole xs ys zs,
      overlayMembers p ms bit whole (overlayMembers p ms bit whole xs ys) zs =
        overlayMembers p ms bit whole xs zs) with
  | leaf d hd =>
    intro bit whole x y z
    simp only [overlay_leaf hd]
    split_ifs <;> rfl
  | nil => rfl
  | cons name d ms hm hms bit whole xs ys zs =>
    simp only [overlayMembers, headValue, tail_cons, hm, hms]
  | struct i ms ih =>
    intro bit whole x y z
    rw [overlay, fieldsOf_overlay, overlay, ih]

end

/-! ### Two updates as one -/

mutual
/-- The bits of `c` spell out the fields that `a` marks, with `wa` for a structure around them, and
those that `b` marks. -/
def Joins (c a b : ℕ → Bool) : FieldDesc → ℕ → Bool → Bool → Prop
  | .struct _ ms, bit, wa, wb =>
      c bit = false ∧ JoinsMembers c a b ms (bit + 1) (wa || a bit) (wb || b bit)
  | _, bit, wa, wb => c bit = ((wa || a bit) || (wb || b bit))

def JoinsMembers (c a b : ℕ → Bool) : List Member → ℕ → Bool → Bool → Prop
  | [], _, _, _ => True
  | (_, d) :: ms, bit, wa, wb =>
      Joins c a b d bit wa wb ∧ JoinsMembers c a b ms (bit + d.totalBits) wa wb
end

lemma joins_leaf {c a b} (hd : d.isStruct = false) {bit wa wb} :
    Joins c a b d bit wa wb ↔ c bit = ((wa || a bit) || (wb || b bit)) := by
  cases d <;> first | rfl | simp [isStruct] at hd

section

variable {c a b : ℕ → Bool}

/-- **Two updates, one after the other, are one**: the second laid over the first, under the bits
of both. -/
theorem overlay_overlay (d : FieldDesc) :
    ∀ bit wa wb x y z, Joins c a b d bit wa wb →
      overlay b d bit wb y (overlay a d bit wa x z) =
        overlay c d bit false (overlay b d bit wb y x) z := by
  induction d using members_induction
    (Q := fun ms => ∀ bit wa wb xs ys zs, JoinsMembers c a b ms bit wa wb →
      overlayMembers b ms bit wb ys (overlayMembers a ms bit wa xs zs) =
        overlayMembers c ms bit false (overlayMembers b ms bit wb ys xs) zs) with
  | leaf d hd =>
    intro bit wa wb x y z h
    rw [joins_leaf hd] at h
    -- four cases: the later mark wins, then the earlier one, then what was there
    simp only [overlay_leaf hd, h, Bool.false_or]
    cases wb || b bit <;> cases wa || a bit <;> rfl
  | nil => rfl
  | cons name d ms hm hms bit wa wb xs ys zs h =>
    simp only [overlayMembers, headValue, tail_cons, hm _ _ _ _ _ _ h.1]
    exact congrArg _ (hms _ _ _ _ _ _ h.2)
  | struct i ms ih =>
    intro bit wa wb x y z h
    obtain ⟨hc, h⟩ := h
    rw [overlay, fieldsOf_overlay, overlay, fieldsOf_overlay, hc, Bool.or_self, ih _ _ _ _ _ _ h]

lemma joins_of_leafMark (d : FieldDesc) :
    ∀ bit wa wb, (∀ j, bit ≤ j → j < bit + d.totalBits →
      c j = (leafMark a d bit wa j || leafMark b d bit wb j)) → Joins c a b d bit wa wb := by
  induction d using members_induction
    (Q := fun ms => ∀ bit wa wb, (∀ j, bit ≤ j → j < bit + totalBitsMembers ms →
      c j = (leafMarkMembers a ms bit wa j || leafMarkMembers b ms bit wb j)) →
      JoinsMembers c a b ms bit wa wb) with
  | leaf d hd =>
    intro bit wa wb h
    rw [totalBits_of_leaf hd] at h
    rw [joins_leaf hd, h bit le_rfl (Nat.lt_succ_self bit), leafMark_leaf hd, leafMark_leaf hd]
    simp
  | nil => trivial
  | cons name d ms hm hms bit wa wb h =>
    rw [totalBitsMembers] at h
    -- the marks of one member and of the others are in different spans
    refine ⟨hm _ _ _ fun j h₁ h₂ => ?_, hms _ _ _ fun j h₁ h₂ => ?_⟩
    · rw [h j h₁ (by omega), leafMarkMembers, leafMarkMembers, leafMarkMembers_before h₂,
        leafMarkMembers_before h₂, Bool.or_false, Bool.or_false]
    · rw [h j (by omega) (by omega), leafMarkMembers, leafMarkMembers, leafMark_behind h₁,
        leafMark_behind h₁, Bool.false_or, Bool.false_or]
  | struct i ms ih =>
    intro bit wa wb h
    rw [totalBits] at h
    refine ⟨?_, ih _ _ _ fun j h₁ h₂ => ?_⟩
    · -- a structure has a bit of its own, in front of those of its members
      rw [h bit le_rfl (by omega), leafMark, leafMark, leafMarkMembers_before (Nat.lt_succ_self _),
        leafMarkMembers_before (Nat.lt_succ_self _)]
      rfl
    · rw [h j (by omega) (by omega), leafMark, leafMark]

end

/-! ### Filling -/

mutual
def distinctNames : FieldDesc → Bool
  | .struct _ ms => decide (ms.map Prod.fst).Nodup && distinctNamesMembers ms
  | _ => true

def distinctNamesMembers : List Member → Bool
  | [] => true
  | (_, d) :: ms => distinctNames d && distinctNamesMembers ms
end

lemma distinctNamesMembers_iff :
    distinctNamesMembers ms = true ↔ ∀ m ∈ ms, distinctNames m.2 = true := by
  induction ms with
  | nil => simp [distinctNamesMembers]
  | cons m ms ih => simp [distinctNamesMembers, ih]

lemma shapedMembers_names (h : shapedMembers ms fs = true) :
    fs.map Prod.fst = ms.map Prod.fst := by
  induction ms generalizing fs with
  | nil => rw [shapedMembers_nil.1 h]; rfl
  | cons m ms ih =>
    obtain ⟨v, fs', rfl, -, hfs⟩ := shapedMembers_cons.1 h
    rw [map_cons, map_cons, ih hfs]

lemma shapedMembers_length (h : shapedMembers ms fs = true) : fs.length = ms.length := by
  simpa using congrArg length (shapedMembers_names h)

/-- `swap_remove` takes one item out and keeps the others, in some order. -/
lemma swapRemove_perm {α : Type} {xs i} {x : α} (h : xs[i]? = some x) :
    List.Perm xs (x :: swapRemove xs i) := by
  obtain ⟨hi, rfl⟩ := List.getElem?_eq_some_iff.1 h
  obtain ⟨as, bs, hxs, hlen⟩ : ∃ as bs, xs = as ++ xs[i] :: bs ∧ as.length = i :=
    ⟨xs.take i, xs.drop (i + 1), by simp, by simp [Nat.min_eq_left (Nat.le_of_lt hi)]⟩
  generalize xs[i] = x at hxs
  subst hxs hlen
  cases bs using reverseRecOn with
  | nil =>
    have hswap : swapRemove (as ++ [x]) as.length = as := by simp [swapRemove]
    rw [hswap]
    exact perm_append_singleton x as
  | append_singleton bs last =>
    have hswap : swapRemove (as ++ x :: (bs ++ [last])) as.length = as ++ last :: bs := by
      have hlast : (as ++ x :: (bs ++ [last])).getLast? = some last := by
        simp [getLast?_append, getLast?_cons]
      simp only [swapRemove, hlast, set_append_right _ _ (Nat.le_refl _), Nat.sub_self,
        set_cons_zero]
      rw [show as ++ last :: (bs ++ [last]) = (as ++ last :: bs) ++ [last] by simp]
      exact dropLast_concat
    rw [hswap]
    refine perm_middle.trans (Perm.cons x ?_)
    refine Perm.append_left as ?_
    exact perm_append_singleton last bs

lemma eq_of_names_nodup (h : (fs.map Prod.fst).Nodup) {f g} (hf : f ∈ fs) (hg : g ∈ fs)
    (hfg : f.1 = g.1) : f = g :=
  inj_on_of_nodup_map h hf hg hfg

lemma takeChild_perm {children name} (hperm : Perm children ((name, v) :: fs))
    (hnodup : (children.map Prod.fst).Nodup) :
    (takeChild children name).1 = some v ∧ Perm (takeChild children name).2 fs := by
  have hmem : (name, v) ∈ children := hperm.mem_iff.2 (mem_cons_self ..)
  cases hidx : children.findIdx? fun f => f.1 = name with
  | none =>
    have := findIdx?_eq_none_iff.1 hidx _ hmem
    simp at this
  | some i =>
    obtain ⟨hi, hname, -⟩ := findIdx?_eq_some_iff_getElem.1 hidx
    have hchild : children[i] = (name, v) :=
      eq_of_names_nodup hnodup (getElem_mem hi) hmem (by simpa using hname)
    have hget : children[i]? = some (name, v) := by rw [getElem?_eq_getElem hi, hchild]
    simp only [takeChild, hidx, hget, Option.map_some, true_and]
    exact ((swapRemove_perm hget).symm.trans hperm).cons_inv

lemma getField_of_mem {name} (hmem : (name, v) ∈ fs) (hnodup : (fs.map Prod.fst).Nodup) :
    getField fs name = some v := by
  cases hfind : fs.find? fun f => f.1 = name with
  | none =>
    have := find?_eq_none.1 hfind _ hmem
    simp at this
  | some f =>
    have hname : f.1 = name := by simpa using find?_some hfind
    have hf : f = (name, v) :=
      eq_of_names_nodup hnodup (mem_of_find?_eq_some hfind) hmem hname
    simp [getField, hfind, hf]

/-- **Filling is an overlay** when sibling names are distinct: the source finds fields by name. -/
theorem fillUnmarkedFromPrior_eq (bs : BitSet) (d : FieldDesc) :
    distinctNames d = true → ∀ bit decoded prior, shaped d decoded = true →
      shaped d prior = true →
      fillUnmarkedFromPrior bs d bit decoded prior = overlay bs.get d bit false decoded prior := by
  -- in the loop, the children that are left are those of the members that are left
  induction d using members_induction
    (Q := fun ms => distinctNamesMembers ms = true → ∀ prior bit children news olds,
      ((fieldsOf prior).map Prod.fst).Nodup → Perm children news →
      (children.map Prod.fst).Nodup → shapedMembers ms news = true →
      shapedMembers ms olds = true → (∀ f ∈ olds, f ∈ fieldsOf prior) →
      fillMembers bs ms bit children prior = overlayMembers bs.get ms bit false news olds) with
  | leaf d hd =>
    intro _ bit decoded prior _ _
    rw [fillUnmarkedFromPrior_leaf hd, overlay_leaf hd]
    rfl
  | nil => rfl
  | cons name d ms hm hms hnames prior bit children news olds hprior hperm hnodup hnews holds hmem =>
    rw [distinctNamesMembers, Bool.and_eq_true] at hnames
    obtain ⟨v, vs, rfl, hv, hvs⟩ := shapedMembers_cons.1 hnews
    obtain ⟨w, ws, rfl, hw, hws⟩ := shapedMembers_cons.1 holds
    obtain ⟨hw', hmem⟩ := forall_mem_cons.1 hmem
    obtain ⟨htake, hrest⟩ := takeChild_perm hperm hnodup
    have hnodup' : ((takeChild children name).2.map Prod.fst).Nodup := by
      have hvs' := (hperm.map Prod.fst).nodup_iff.1 hnodup
      exact (hrest.map Prod.fst).nodup_iff.2 (nodup_cons.1 hvs').2
    rw [fillMembers, overlayMembers, htake, getField_of_mem hw' hprior, Option.getD_some,
      Option.getD_some, hm hnames.1 _ _ _ hv hw, headValue, headValue]
    exact congrArg _ (hms hnames.2 _ _ _ _ _ hprior hrest hnodup' hvs hws hmem)
  | struct i ms ih =>
    intro hnames bit decoded prior hdec hpri
    rw [distinctNames, Bool.and_eq_true, decide_eq_true_iff] at hnames
    obtain ⟨hnodup, hnames⟩ := hnames
    rw [fillUnmarkedFromPrior]
    split_ifs with hbit
    · exact (overlay_of_bit hbit hdec).symm
    · obtain ⟨news, rfl, hnews⟩ := shaped_struct.1 hdec
      obtain ⟨olds, rfl, holds⟩ := shaped_struct.1 hpri
      have hn := shapedMembers_names hnews
      have ho := shapedMembers_names holds
      rw [overlay, Bool.eq_false_iff.2 hbit, Bool.or_self]
      congr 2
      refine ih hnames _ _ _ _ _ ?_ (Perm.refl _) ?_ hnews holds fun f hf => hf
      · rw [fieldsOf, ho]
        exact hnodup
      · rw [fieldsOf, hn]
        exact hnodup

/-! ### Decoding -/

lemma shapedMembers_of_forall₂
    (h : Forall₂ (fun m f => f.1 = m.1 ∧ shaped m.2 f.2 = true) ms fs) :
    shapedMembers ms fs = true := by
  induction h with
  | nil => rfl
  | @cons m f ms fs hmf _ ih => exact shapedMembers_cons.2 ⟨f.2, fs, by rw [← hmf.1], hmf.2, ih⟩

lemma shaped_default (d : FieldDesc) : shaped d (defaultValueFor d) = true := by
  induction d using struct_induction with
  | leaf d hd => exact shaped_leaf hd _
  | struct i ms ih =>
    refine shaped_struct.2 ⟨_, rfl, ?_⟩
    rw [defaultMembers_eq]
    refine shapedMembers_of_forall₂ (forall₂_map_right_iff.2 ?_)
    exact forall₂_same.2 fun m hm => ⟨rfl, ih m hm⟩

lemma shaped_decodePvFieldAtDepth (order : ByteOrder) : ∀ room d,
    Clean (fun _ => False) (decodePvFieldAtDepth order room d) fun v => shaped d v = true := by
  intro room
  induction room with
  | zero => exact fun _ => Clean.fail _
  | succ room ih =>
    intro d
    cases hd : d.isStruct with
    | false =>
      exact ⟨fun _ _ h => h.elim, fun _ _ _ _ _ _ _ _ => shaped_leaf hd _⟩
    | true =>
      cases d with
      | struct i ms =>
        have hmember : ∀ m : Member, Clean (fun _ => False)
            (decodePvFieldAtDepth order room m.2 >>= fun v => pure (m.1, v))
            fun f => f.1 = m.1 ∧ shaped m.2 f.2 = true :=
          fun m => (ih m.2).map _ fun v hv => ⟨rfl, hv⟩
        refine (Clean.each hmember ms).map _ fun fs hfs => ?_
        exact shaped_struct.2 ⟨fs, rfl, shapedMembers_of_forall₂ hfs⟩
      | _ => simp [isStruct] at hd

lemma shaped_of_decodePvFieldCached {order i r} {s s' : TypeCache}
    (h : decodePvFieldCached order d i s = (.ok (v, r), s')) :
    shaped d v = true :=
  (shaped_decodePvFieldAtDepth order _ d).2 i r s s' v not_false h not_false

section

variable {σ : Type} {field : FieldDesc → Decoder σ PvField} {bs : BitSet}

lemma decodeMembersWith_cons_eq_ok {name d ms bit i r s s' fs} :
    decodeMembersWith field bs ((name, d) :: ms) bit i s = (.ok (fs, r), s') ↔
      ∃ v i₁ s₁ fs', decodeWith field bs d bit i s = (.ok (v, i₁), s₁) ∧
        decodeMembersWith field bs ms (bit + d.totalBits) i₁ s₁ = (.ok (fs', r), s') ∧
        fs = (name, v) :: fs' := by
  simp only [decodeMembersWith, bind_eq_ok, pure_eq_ok]
  constructor
  · rintro ⟨v, i₁, s₁, h₁, fs', i₂, s₂, h₂, rfl, rfl, rfl⟩
    exact ⟨v, i₁, s₁, fs', h₁, h₂, rfl⟩
  · rintro ⟨v, i₁, s₁, fs', h₁, h₂, rfl⟩
    exact ⟨v, i₁, s₁, h₁, fs', r, s', h₂, rfl, rfl, rfl⟩

lemma decodeWith_struct_cases {n} {ms : List Member} {bit i r s s' v}
    (h : decodeWith field bs (.struct n ms) bit i s = (.ok (v, r), s')) :
    (bs.get bit = true ∧ field (.struct n ms) i s = (.ok (v, r), s')) ∨
    (bs.get bit = false ∧ bs.anyIn bit (bit + (struct n ms).totalBits) = true ∧
      ∃ fs, v = .struct ⟨n, fs⟩ ∧
        decodeMembersWith field bs ms (bit + 1) i s = (.ok (fs, r), s')) ∨
    (bs.get bit = false ∧ bs.anyIn bit (bit + (struct n ms).totalBits) = false ∧
      v = defaultValueFor (.struct n ms) ∧ r = i ∧ s' = s) := by
  rw [decodeWith] at h
  split_ifs at h with hbit hany
  · exact Or.inl ⟨hbit, h⟩
  · obtain ⟨fs, i₁, s₁, hfs, hp⟩ := bind_eq_ok.1 h
    obtain ⟨rfl, rfl, rfl⟩ := pure_eq_ok.1 hp
    exact Or.inr (Or.inl ⟨Bool.eq_false_iff.2 hbit, hany, fs, rfl, hfs⟩)
  · obtain ⟨rfl, rfl, rfl⟩ := pure_eq_ok.1 h
    exact Or.inr (Or.inr ⟨Bool.eq_false_iff.2 hbit, Bool.eq_false_iff.2 hany, rfl, rfl, rfl⟩)

lemma get_of_anyIn_eq_false {start stop j} (h : bs.anyIn start stop = false) (h₁ : start ≤ j)
    (h₂ : j < stop) : bs.get j = false := by
  rw [Bool.eq_false_iff] at h ⊢
  exact fun hget => h ((anyIn_iff bs start stop).2 ⟨j, h₁, h₂, hget⟩)

end

/-- **Decoding in place is an overlay**, of what the decoder that fills with defaults returns. -/
theorem decodePvFieldWithBitsetInto_eq (order : ByteOrder) (bs : BitSet) (d : FieldDesc) :
    ∀ bit dst i r s s' v,
      decodePvFieldWithBitsetCached order bs d bit i s = (.ok (v, r), s') → shaped d dst = true →
      decodePvFieldWithBitsetInto order bs d dst bit i s =
        (.ok (overlay bs.get d bit false v dst, r), s') := by
  -- the loop goes over the slots and the members together
  induction d using members_induction
    (Q := fun ms => ∀ bit slots i r s s' fs,
      decodeMembersWith (decodePvFieldCached order) bs ms bit i s = (.ok (fs, r), s') →
      shapedMembers ms slots = true → decodeMembersInto order bs ms slots bit i s =
        (.ok (overlayMembers bs.get ms bit false fs slots, r), s')) with
  | leaf d hd =>
    intro bit dst i r s s' v h _
    rw [decodePvFieldWithBitsetCached, decodeWith_leaf hd] at h
    rw [decodePvFieldWithBitsetInto_leaf hd, overlay_leaf hd]
    split_ifs at h with hbit
    · simpa [hbit] using h
    · obtain ⟨-, rfl, rfl⟩ := pure_eq_ok.1 h
      simp [hbit, pure_apply]
  | nil bit slots i r s s' fs h hslots =>
    obtain ⟨rfl, rfl, rfl⟩ := pure_eq_ok.1 h
    rw [shapedMembers_nil.1 hslots]
    rfl
  | cons name d ms hm hms bit slots i r s s' fs h hslots =>
    obtain ⟨v, i₁, s₁, fs', h₁, h₂, rfl⟩ := decodeMembersWith_cons_eq_ok.1 h
    obtain ⟨w, ws, rfl, hw, hws⟩ := shapedMembers_cons.1 hslots
    have hhead := hm bit w i i₁ s s₁ v h₁ hw
    have htail := hms _ _ _ _ _ _ _ h₂ hws
    rw [decodeMembersInto, bind_of_ok hhead, bind_of_ok htail]
    rfl
  | struct n ms ih =>
    intro bit dst i r s s' v h hdst
    obtain ⟨slots, rfl, hslots⟩ := shaped_struct.1 hdst
    rcases decodeWith_struct_cases h with ⟨hbit, hrun⟩ | ⟨hbit, hany, fs, rfl, hrun⟩ |
      ⟨hbit, hany, rfl, rfl, rfl⟩
    · -- the bit of the structure: all of it is replaced
      have hshape := shaped_of_decodePvFieldCached hrun
      rw [decodePvFieldWithBitsetInto, if_pos hbit, overlay_of_bit hbit hshape, hrun]
    · -- some member is marked: the members in turn
      have hms := ih _ _ _ _ _ _ _ hrun hslots
      rw [decodePvFieldWithBitsetInto, if_neg (by simp [hbit]), if_pos hany]
      simp only [shapedMembers_length hslots, if_true]
      rw [bind_of_ok hms, overlay, hbit]
      rfl
    · -- nothing is marked: nothing is read
      have hnone := overlay_none (p := bs.get) (.struct n ms) bit
        (defaultValueFor (.struct n ms)) (.struct ⟨n, slots⟩)
        (fun j h₁ h₂ => get_of_anyIn_eq_false hany h₁ h₂) hdst
      rw [decodePvFieldWithBitsetInto, if_neg (by simp [hbit]), if_neg (by simp [hany]), hnone]
      rfl

/-- **Decoding in place fails where the decoder that fills with defaults does**, with the same fault. -/
theorem decodePvFieldWithBitsetInto_error (order : ByteOrder) (bs : BitSet) (d : FieldDesc) :
    ∀ bit dst i s s' e,
      decodePvFieldWithBitsetCached order bs d bit i s = (.error e, s') → shaped d dst = true →
      decodePvFieldWithBitsetInto order bs d dst bit i s = (.error e, s') := by
  induction d using members_induction
    (Q := fun ms => ∀ bit slots i s s' e,
      decodeMembersWith (decodePvFieldCached order) bs ms bit i s = (.error e, s') →
      shapedMembers ms slots = true →
      decodeMembersInto order bs ms slots bit i s = (.error e, s')) with
  | leaf d hd =>
    intro bit dst i s s' e h _
    rw [decodePvFieldWithBitsetCached, decodeWith_leaf hd] at h
    rw [decodePvFieldWithBitsetInto_leaf hd]
    split_ifs at h ⊢ with hbit
    · exact h
    · cases h
  | nil bit slots i s s' e h => cases h
  | cons name d ms hm hms bit slots i s s' e h hslots =>
    obtain ⟨w, ws, rfl, hw, hws⟩ := shapedMembers_cons.1 hslots
    rcases bind_eq_error.1 h with hhead | ⟨v, i₁, s₁, hhead, htail⟩
    · exact bind_eq_error.2 (Or.inl (hm bit w i s s' e hhead hw))
    · have hinto := decodePvFieldWithBitsetInto_eq order bs d bit w i i₁ s s₁ v hhead hw
      refine bind_eq_error.2 (Or.inr ⟨_, i₁, s₁, hinto, ?_⟩)
      rcases bind_eq_error.1 htail with hfail | ⟨fs, i₂, s₂, -, hpure⟩
      · exact bind_eq_error.2 (Or.inl (hms _ ws i₁ s₁ s' e hfail hws))
      · cases hpure
  | struct n ms ih =>
    intro bit dst i s s' e h hdst
    obtain ⟨slots, rfl, hslots⟩ := shaped_struct.1 hdst
    rw [decodePvFieldWithBitsetCached, decodeWith] at h
    rw [decodePvFieldWithBitsetInto]
    split_ifs at h with hbit hany
    · rw [if_pos hbit]
      exact h
    · rw [if_neg hbit, if_pos hany]
      simp only [shapedMembers_length hslots, if_true]
      rcases bind_eq_error.1 h with hfail | ⟨fs, i₁, s₁, -, hpure⟩
      · exact bind_eq_error.2 (Or.inl (ih _ slots i s s' e hfail hslots))
      · cases hpure
    · cases h

/-! ### What the wire can carry -/

mutual
/-- The marked fields of the value are ones that the wire can carry. -/
def Carries (c : ℕ → Bool) : FieldDesc → ℕ → Bool → PvField → Prop
  | .struct _ ms, bit, whole, v => CarriesMembers c ms (bit + 1) (whole || c bit) (fieldsOf v)
  | d, bit, whole, v => (whole || c bit) = true → matchesDesc v d = true ∧ withinLimits v = true

def CarriesMembers (c : ℕ → Bool) : List Member → ℕ → Bool → List (String × PvField) → Prop
  | [], _, _, _ => True
  | (_, d) :: ms, bit, whole, fs =>
      Carries c d bit whole (headValue fs) ∧ CarriesMembers c ms (bit + d.totalBits) whole fs.tail
end

lemma carries_leaf {c} (hd : d.isStruct = false) {bit whole} :
    Carries c d bit whole v ↔
      ((whole || c bit) = true → matchesDesc v d = true ∧ withinLimits v = true) := by
  cases d <;> first | rfl | simp [isStruct] at hd

section

variable {c a b : ℕ → Bool}

lemma withinLimits_iff {v} :
    withinLimits v = true ↔ fits v = true ∧ nesting v ≤ maxFieldDepth := by
  simp [withinLimits]

lemma carries_of_matches (d : FieldDesc) :
    ∀ bit whole v, matchesDesc v d = true → withinLimits v = true → Carries c d bit whole v := by
  induction d using struct_induction with
  | leaf d hd => exact fun bit whole v hm hl => (carries_leaf hd).2 fun _ => ⟨hm, hl⟩
  | struct i ms ih =>
    intro bit whole v hm hl
    obtain ⟨s, rfl⟩ := eq_struct_of_matchesDesc hm
    obtain ⟨-, hfields⟩ := matchesDesc_struct.1 hm
    rw [withinLimits_iff] at hl
    have hfits := (all_struct.1 hl.1).2
    have hnest := nesting_struct_le.1 hl.2
    rw [Carries, fieldsOf]
    generalize s.fields = fs at hfields hfits hnest
    generalize (whole || c bit) = whole
    generalize bit + 1 = bit
    clear hm hl
    induction hfields generalizing bit with
    | nil => trivial
    | @cons f m fs ms hfm _ ihms =>
      obtain ⟨hm, hms⟩ := forall_mem_cons.1 ih
      obtain ⟨hf, hfs⟩ := forall_mem_cons.1 hfits
      obtain ⟨hn, hns⟩ := forall_mem_cons.1 hnest
      exact ⟨hm _ _ _ hfm.2 (withinLimits_iff.2 ⟨hf, Nat.le_of_succ_le hn⟩), ihms hms hfs hns _⟩

lemma carries_none (d : FieldDesc) :
    ∀ bit v, (∀ j, bit ≤ j → j < bit + d.totalBits → c j = false) → Carries c d bit false v := by
  induction d using members_induction
    (Q := fun ms => ∀ bit fs, (∀ j, bit ≤ j → j < bit + totalBitsMembers ms →
      c j = false) → CarriesMembers c ms bit false fs) with
  | leaf d hd =>
    intro bit v h
    rw [totalBits_of_leaf hd] at h
    rw [carries_leaf hd, h bit le_rfl (Nat.lt_succ_self bit)]
    exact fun hfalse => by cases hfalse
  | nil => trivial
  | cons name d ms hm hms bit fs h =>
    rw [totalBitsMembers] at h
    exact ⟨hm _ _ fun j h₁ h₂ => h j h₁ (by omega),
      hms _ _ fun j h₁ h₂ => h j (by omega) (by omega)⟩
  | struct i ms ih =>
    intro bit v h
    rw [totalBits] at h
    rw [Carries, h bit le_rfl (by omega), Bool.or_self]
    exact ih _ _ fun j h₁ h₂ => h j (by omega) (by omega)

lemma carries_overlay (d : FieldDesc) :
    ∀ bit wa wb x y, Joins c a b d bit wa wb → Carries a d bit wa x → Carries b d bit wb y →
      Carries c d bit false (overlay b d bit wb y x) := by
  induction d using members_induction
    (Q := fun ms => ∀ bit wa wb xs ys, JoinsMembers c a b ms bit wa wb →
      CarriesMembers a ms bit wa xs → CarriesMembers b ms bit wb ys →
      CarriesMembers c ms bit false (overlayMembers b ms bit wb ys xs)) with
  | leaf d hd =>
    intro bit wa wb x y hj hx hy
    rw [joins_leaf hd] at hj
    rw [carries_leaf hd] at hx hy ⊢
    rw [overlay_leaf hd, hj, Bool.false_or]
    cases hb : wb || b bit with
    | true => exact fun _ => hy hb
    | false =>
      intro ha
      rw [Bool.or_false] at ha
      exact hx ha
  | nil => trivial
  | cons name d ms hm hms bit wa wb xs ys hj hx hy =>
    exact ⟨hm _ _ _ _ _ hj.1 hx.1 hy.1, hms _ _ _ _ _ hj.2 hx.2 hy.2⟩
  | struct i ms ih =>
    intro bit wa wb x y hj hx hy
    obtain ⟨hc, hj⟩ := hj
    rw [Carries, fieldsOf_overlay, hc, Bool.or_self]
    exact ih _ _ _ _ _ hj hx hy

lemma Joins.self (d : FieldDesc) :
    ∀ bit wa wb, Joins c a b d bit wa wb → Joins c c c d bit false false := by
  induction d using members_induction
    (Q := fun ms => ∀ bit wa wb, JoinsMembers c a b ms bit wa wb →
      JoinsMembers c c c ms bit false false) with
  | leaf d hd =>
    intro bit wa wb _
    rw [joins_leaf hd]
    simp
  | nil => trivial
  | cons name d ms hm hms _ _ _ h => exact ⟨hm _ _ _ h.1, hms _ _ _ h.2⟩
  | struct i ms ih =>
    intro bit wa wb h
    obtain ⟨hc, h⟩ := h
    refine ⟨hc, ?_⟩
    rw [hc, Bool.or_self]
    exact ih _ _ _ h

end

/-! ### What is sent -/

mutual
/-- What the encoder sends of the value is what the wire can carry: a structure under its own bit
as a whole, and the fields of the others one by one. -/
def Sendable (p : ℕ → Bool) : FieldDesc → ℕ → PvField → Prop
  | .struct i ms, bit, v =>
      (p bit = true → matchesDesc v (.struct i ms) = true ∧ withinLimits v = true) ∧
        (p bit = false → SendableMembers p ms (bit + 1) (fieldsOf v))
  | d, bit, v => p bit = true → matchesDesc v d = true ∧ withinLimits v = true

def SendableMembers (p : ℕ → Bool) : List Member → ℕ → List (String × PvField) → Prop
  | [], _, _ => True
  | (_, d) :: ms, bit, fs =>
      Sendable p d bit (headValue fs) ∧ SendableMembers p ms (bit + d.totalBits) fs.tail
end

section

variable {p : ℕ → Bool}

lemma sendable_leaf {d} (hd : d.isStruct = false) {bit v} :
    Sendable p d bit v ↔ (p bit = true → matchesDesc v d = true ∧ withinLimits v = true) := by
  cases d <;> first | exact Iff.rfl | simp [isStruct] at hd

lemma sendable_struct {i} {ms : List Member} {bit v} :
    Sendable p (.struct i ms) bit v ↔
      (p bit = true → matchesDesc v (.struct i ms) = true ∧ withinLimits v = true) ∧
        (p bit = false → SendableMembers p ms (bit + 1) (fieldsOf v)) := Iff.rfl

lemma sendable_of_carries (d : FieldDesc) :
    ∀ bit v, Joins p p p d bit false false → Carries p d bit false v → Sendable p d bit v := by
  induction d using members_induction
    (Q := fun ms => ∀ bit fs, JoinsMembers p p p ms bit false false →
      CarriesMembers p ms bit false fs → SendableMembers p ms bit fs) with
  | leaf d hd =>
    intro bit v _ hcarry
    rw [carries_leaf hd, Bool.false_or] at hcarry
    exact (sendable_leaf hd).2 hcarry
  | nil => trivial
  | cons name d ms hm hms _ _ hj hcarry =>
    exact ⟨hm _ _ hj.1 hcarry.1, hms _ _ hj.2 hcarry.2⟩
  | struct i ms ih =>
    intro bit v hj hcarry
    obtain ⟨hbit, hj⟩ := hj
    rw [Carries, hbit] at hcarry
    rw [hbit] at hj
    refine sendable_struct.2 ⟨fun hp => absurd (hbit.symm.trans hp) Bool.false_ne_true, fun _ => ?_⟩
    exact ih _ _ hj hcarry

end

section

variable {σ : Type} {conv : ScalarConv} {order : ByteOrder} {bs : BitSet} {s : σ}
  {field : FieldDesc → Decoder σ PvField}

/-- **What is encoded of a value is read back** as an overlay on the default. -/
theorem reads_decodeWith
    (hfield : ∀ d v, matchesDesc v d = true → withinLimits v = true →
      Reads (field d) (encodePvField conv order v d) s v s) (d : FieldDesc) :
    ∀ bit v, shaped d v = true → Sendable bs.get d bit v →
      Reads (decodeWith field bs d bit) (encodePvFieldWithBitset conv order bs v d bit) s
        (overlay bs.get d bit false v (defaultValueFor d)) s := by
  -- `pre` are the fields in front of the members
  induction d using members_induction
    (Q := fun ms => ∀ n bit pre fs, shapedMembers ms fs = true → SendableMembers bs.get ms bit fs →
      Reads (decodeMembersWith field bs ms bit)
        (encodeMarkedMembers conv order bs ms (.struct ⟨n, pre ++ fs⟩) pre.length bit) s
        (overlayMembers bs.get ms bit false fs (defaultMembers ms)) s) with
  | leaf d hd =>
    intro bit v _ hsend
    rw [sendable_leaf hd] at hsend
    rw [decodeWith_leaf hd, encodePvFieldWithBitset_leaf hd, overlay_leaf hd]
    cases hbit : bs.get bit with
    | true =>
      obtain ⟨hm, hl⟩ := hsend hbit
      exact hfield d v hm hl
    | false => exact Reads.pure _ s
  | nil => exact Reads.pure [] s
  | cons name d ms hm hms n bit pre fs hshape hsend =>
    obtain ⟨v, vs, rfl, hv, hvs⟩ := shapedMembers_cons.1 hshape
    have hfound : childAt (.struct ⟨n, pre ++ (name, v) :: vs⟩) pre.length name = some v := by
      simp [childAt, memberAt]
    have hhead := hm bit v hv hsend.1
    have htail := hms n (bit + d.totalBits) (pre ++ [(name, v)]) vs hvs hsend.2
    rw [length_append, append_assoc] at htail
    rw [encodeMarkedMembers, hfound]
    exact hhead.bind (htail.map ((name, _) :: ·))
  | struct n ms ih =>
    intro bit v hshape hsend
    obtain ⟨hwhole, hpart⟩ := sendable_struct.1 hsend
    cases hbit : bs.get bit with
    | true =>
      -- the bit of the structure: all of it is sent and read
      obtain ⟨hm, hl⟩ := hwhole hbit
      have hany : bs.anyIn bit (bit + (struct n ms).totalBits) = true := by
        rw [anyIn_iff]
        exact ⟨bit, le_rfl, Nat.lt_add_of_pos_right (by rw [totalBits]; omega), hbit⟩
      rw [encodePvFieldWithBitset, if_pos hany, encodeMarked, if_pos hbit, decodeWith,
        if_pos hbit, overlay_of_bit hbit hshape]
      exact hfield _ v hm hl
    | false =>
      obtain ⟨fs, rfl, hfs⟩ := shaped_struct.1 hshape
      rw [encodePvFieldWithBitset, decodeWith, if_neg (by simp [hbit])]
      cases hany : bs.anyIn bit (bit + (struct n ms).totalBits) with
      | true =>
        have hms := ih n (bit + 1) [] fs hfs (hpart hbit)
        rw [if_pos rfl, if_pos rfl, encodeMarked, if_neg (by simp [hbit]), overlay, hbit]
        exact hms.map fun fs => struct ⟨n, fs⟩
      | false =>
        rw [overlay_none _ _ _ _ (fun j h₁ h₂ => get_of_anyIn_eq_false hany h₁ h₂)
          (shaped_default _)]
        exact Reads.pure _ s

lemma encodePvFieldWithBitset_congr {bs'} (h : ∀ i, bs'.get i = bs.get i) (d : FieldDesc)
    : ∀ bit v, encodePvFieldWithBitset conv order bs' v d bit =
      encodePvFieldWithBitset conv order bs v d bit := by
  have hany : ∀ start stop, bs'.anyIn start stop = bs.anyIn start stop := by
    intro start stop
    rw [Bool.eq_iff_iff, anyIn_iff, anyIn_iff]
    simp only [h]
  induction d using members_induction
    (Q := fun ms => ∀ v i bit, encodeMarkedMembers conv order bs' ms v i bit =
      encodeMarkedMembers conv order bs ms v i bit) with
  | leaf d hd =>
    intro bit v
    rw [encodePvFieldWithBitset_leaf hd, encodePvFieldWithBitset_leaf hd, h]
  | nil => rfl
  | cons name d ms hm hms v i bit =>
    rw [encodeMarkedMembers, encodeMarkedMembers, hms]
    exact congrArg (· ++ _) (hm bit _)
  | struct n ms ih =>
    intro bit v
    rw [encodePvFieldWithBitset, encodePvFieldWithBitset, hany, encodeMarked, encodeMarked, h, ih]

end

/-! ### Runs that leave the cache empty -/

section

variable {order : ByteOrder} {bs : BitSet}

lemma clean_decodeMembersWith {ms}
    (ih : ∀ m ∈ ms, ∀ bit, Clean Touched
      (decodeWith (decodePvFieldCached order) bs m.2 bit)
      fun v => labelsShort v = true → Carries bs.get m.2 bit false v) :
    ∀ bit, Clean Touched (decodeMembersWith (decodePvFieldCached order) bs ms bit)
      fun fs => (∀ f ∈ fs, labelsShort f.2 = true) → CarriesMembers bs.get ms bit false fs := by
  induction ms with
  | nil => exact fun _ => Clean.pure fun _ => trivial
  | cons m ms ihms =>
    obtain ⟨hm, hms⟩ := forall_mem_cons.1 ih
    intro bit
    refine (hm bit).bind fun v => (ihms hms _).map _ fun fs hfs hv hshort => ?_
    obtain ⟨hv', hfs'⟩ := forall_mem_cons.1 hshort
    exact ⟨hv hv', hfs hfs'⟩

/-- **What was read without a cache can be sent again**, as far as it was marked. -/
theorem clean_decodeWith (d : FieldDesc) : ∀ bit, Clean Touched
    (decodeWith (decodePvFieldCached order) bs d bit)
    fun v => labelsShort v = true → Carries bs.get d bit false v := by
  have hfield : ∀ d bit, Clean Touched (decodePvFieldCached order d)
      fun v => labelsShort v = true → Carries bs.get d bit false v := by
    intro d bit
    refine (clean_decodePvFieldAtDepth order (maxFieldDepth + 1) d).mono fun v hv hshort => ?_
    refine carries_of_matches d bit false v hv.matches_desc (withinLimits_iff.2 ⟨?_, ?_⟩)
    · exact hv.fits_of_short hshort
    · exact Nat.le_of_succ_le_succ hv.nesting_lt
  induction d using struct_induction with
  | leaf d hd =>
    intro bit
    rw [decodeWith_leaf hd]
    split_ifs with hbit
    · exact hfield d bit
    · refine Clean.pure fun _ => (carries_leaf hd).2 fun hfalse => absurd hfalse ?_
      simpa using hbit
  | struct n ms ih =>
    intro bit
    rw [decodeWith]
    split_ifs with hbit hany
    · exact hfield _ bit
    · refine (clean_decodeMembersWith ih (bit + 1)).map _ fun fs hfs hshort => ?_
      rw [Carries, Bool.eq_false_iff.2 hbit]
      exact hfs (all_struct.1 hshort).2
    · refine Clean.pure fun _ => carries_none _ _ _ fun j h₁ h₂ => ?_
      exact get_of_anyIn_eq_false (Bool.eq_false_iff.2 hany) h₁ h₂

lemma decodeWith_fresh {σ : Type} (t : σ) (d : FieldDesc) : ∀ bit i r v,
    decodeWith (decodePvFieldCached order) bs d bit i empty =
      (.ok (v, r), empty) →
    decodeWith (decodePvField order) bs d bit i t = (.ok (v, r), t) := by
  induction d using members_induction
    (Q := fun ms => ∀ bit i r fs,
      decodeMembersWith (decodePvFieldCached order) bs ms bit i empty =
        (.ok (fs, r), empty) →
      decodeMembersWith (decodePvField order) bs ms bit i t = (.ok (fs, r), t)) with
  | leaf d hd =>
    intro bit i r v h
    rw [decodeWith_leaf hd] at h ⊢
    split_ifs at h ⊢ with hbit
    · exact zoom_eq_ok h
    · obtain ⟨rfl, rfl, -⟩ := pure_eq_ok.1 h
      rfl
  | nil bit i r fs h =>
    obtain ⟨rfl, rfl, -⟩ := pure_eq_ok.1 h
    rfl
  | cons name d ms hm hms bit i r fs h =>
    obtain ⟨v, i₁, s₁, fs', h₁, h₂, rfl⟩ := decodeMembersWith_cons_eq_ok.1 h
    -- the cache was empty after the first member, since it is after the last
    have hs₁ : s₁ = empty := by
      have hclean : ∀ bit, Clean Touched
          (decodeMembersWith (decodePvFieldCached order) bs ms bit) _ :=
        clean_decodeMembersWith fun m _ => clean_decodeWith m.2
      exact not_touched.1 ((hclean _).unmarked h₂ (not_touched.2 rfl))
    subst hs₁
    exact decodeMembersWith_cons_eq_ok.2 ⟨v, i₁, t, fs', hm _ _ _ _ h₁, hms _ _ _ _ h₂, rfl⟩
  | struct n ms ih =>
    intro bit i r v h
    rcases decodeWith_struct_cases h with ⟨hbit, hrun⟩ | ⟨hbit, hany, fs, rfl, hrun⟩ |
      ⟨hbit, hany, rfl, rfl, -⟩
    · rw [decodeWith, if_pos hbit]
      exact zoom_eq_ok hrun
    · rw [decodeWith, if_neg (by simp [hbit]), if_pos hany, bind_of_ok (ih _ _ _ _ hrun)]
      rfl
    · rw [decodeWith, if_neg (by simp [hbit]), if_neg (by simp [hany])]
      rfl

lemma shaped_decodeWith (d : FieldDesc) : ∀ bit, Clean (fun _ => False)
    (decodeWith (decodePvFieldCached order) bs d bit) fun v => shaped d v = true := by
  induction d using members_induction
    (Q := fun ms => ∀ bit, Clean (fun _ => False)
      (decodeMembersWith (decodePvFieldCached order) bs ms bit)
      fun fs => shapedMembers ms fs = true) with
  | leaf d hd => exact fun _ => ⟨fun _ _ h => h.elim, fun _ _ _ _ _ _ _ _ => shaped_leaf hd _⟩
  | nil => exact Clean.pure rfl
  | cons name d ms hm hms bit =>
    refine (hm bit).bind fun v => (hms _).map _ fun fs hfs hv => ?_
    exact shapedMembers_cons.2 ⟨v, fs, rfl, hv, hfs⟩
  | struct n ms ih =>
    intro bit
    rw [decodeWith]
    split_ifs
    · exact shaped_decodePvFieldAtDepth order _ _
    · exact (ih (bit + 1)).map _ fun fs hfs => shaped_struct.2 ⟨fs, rfl, hfs⟩
    · exact Clean.pure (shaped_default _)

end

/-! ### Labels -/

lemma labelsShort_default (d : FieldDesc) : labelsShort (defaultValueFor d) = true := by
  induction d using struct_induction with
  | leaf d hd => cases d <;> first | rfl | simp [isStruct] at hd
  | struct i ms ih =>
    refine all_struct.2 ⟨rfl, fun f hf => ?_⟩
    rw [defaultMembers_eq, mem_map] at hf
    obtain ⟨m, hm, rfl⟩ := hf
    exact ih m hm

lemma labelsShort_overlay (p : ℕ → Bool) (d : FieldDesc) : ∀ bit whole x y,
    labelsShort x = true → labelsShort y = true →
      labelsShort (overlay p d bit whole x y) = true := by
  have hfields : ∀ v, labelsShort v = true → ∀ f ∈ fieldsOf v, labelsShort f.2 = true := by
    intro v hv
    cases v with
    | struct s => exact (all_struct.1 hv).2
    | _ => exact fun f hf => absurd hf not_mem_nil
  have hhead : ∀ fs : List (String × PvField), (∀ f ∈ fs, labelsShort f.2 = true) →
      labelsShort (headValue fs) = true := by
    intro fs hfs
    cases fs with
    | nil => rfl
    | cons f fs => exact hfs f (mem_cons_self ..)
  induction d using members_induction
    (Q := fun ms => ∀ bit whole xs ys, (∀ f ∈ xs, labelsShort f.2 = true) →
      (∀ f ∈ ys, labelsShort f.2 = true) →
      ∀ f ∈ overlayMembers p ms bit whole xs ys, labelsShort f.2 = true) with
  | leaf d hd =>
    intro bit whole x y hx hy
    rw [overlay_leaf hd]
    split_ifs
    · exact hx
    · exact hy
  | nil _ _ _ _ _ _ f hf => exact absurd hf not_mem_nil
  | cons name d ms hm hms bit whole xs ys hxs hys f hf =>
    rcases mem_cons.1 hf with rfl | hf
    · exact hm _ _ _ _ (hhead xs hxs) (hhead ys hys)
    · exact hms _ _ _ _ (fun f hf => hxs f (mem_of_mem_tail hf))
        (fun f hf => hys f (mem_of_mem_tail hf)) f hf
  | struct i ms ih =>
    intro bit whole x y hx hy
    exact all_struct.2 ⟨rfl, ih _ _ _ _ (hfields x hx) (hfields y hy)⟩

end Pva
