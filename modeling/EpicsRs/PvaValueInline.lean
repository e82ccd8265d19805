/-
**What is read without a cache can be sent again.**

A descriptor in a value that was decoded may have been put together from slots of the type cache,
and nest deeper than a decoder without the slots admits.  When the cache is empty before and after,
it was empty all the way through, and no marker was read: the value is then within the limits of the
wire, unless a label grew beyond 32 bits when it was made valid UTF-8.

Main result: `Pva.clean_decodePvFieldAtDepth`.
-/

import EpicsRs.PvaValueRoundTrip

set_option autoImplicit false

namespace Pva

open ByteReader List FieldDesc TypeCache PvField

/-! ### Scalars -/

section

variable {σ : Type} {I : σ → Prop} {order : ByteOrder}

lemma keeps_decodeScalar (st : ScalarType) :
    Keeps I (decodeScalar order st : Decoder σ _) fun x => st.elemFits x = true := by
  cases st using ScalarType.pod_cases with
  | boolean => exact keeps_getU8.bind fun _ _ => Keeps.pure rfl
  | string =>
    refine (keeps_decodeStringBytes order).bind fun bs hbs => Keeps.pure ?_
    cases bs with
    | none => exact decide_eq_true (Nat.two_pow_pos 32)
    | some b => exact decide_eq_true (hbs b rfl)
  | byte => exact (Keeps.bytes _ _).bind fun _ _ => Keeps.pure rfl
  | ubyte => exact (Keeps.bytes _ _).bind fun _ _ => Keeps.pure rfl
  | pod st w what hst =>
    rw [hst.decode]
    exact (Keeps.bytes _ _).bind fun _ _ => Keeps.pure (hst.fits _)

lemma keeps_decodeTypedScalarArray (st : ScalarType) (n : ℕ) :
    Keeps I (decodeTypedScalarArray st n order : Decoder σ _) fun arr =>
      arr.st = st ∧ arr.items.length = n ∧ ∀ x ∈ arr.items, arr.st.elemFits x = true := by
  suffices h : Keeps I (decodeTypedItems order n st : Decoder σ _) fun items =>
      items.length = n ∧ ∀ x ∈ items, st.elemFits x = true from
    h.bind fun items hitems => Keeps.pure ⟨rfl, hitems⟩
  cases st using ScalarType.pod_cases with
  | boolean =>
    refine (keeps_getBytes n).bind fun buf hbuf => Keeps.pure ⟨?_, fun _ _ => rfl⟩
    exact (length_map _).trans hbuf
  | byte =>
    refine (keeps_getBytes n).bind fun buf hbuf => Keeps.pure ⟨?_, fun _ _ => rfl⟩
    exact (length_map _).trans hbuf
  | ubyte => exact (keeps_getBytes n).mono fun buf hbuf => ⟨hbuf, fun _ _ => rfl⟩
  | string =>
    have hitem : Keeps I (decodeScalar order .string : Decoder σ _) _ := keeps_decodeScalar .string
    exact hitem.times n
  | pod st w what hst =>
    rw [hst.decodeItems, readPodArray_eq]
    exact (Keeps.bytes _ _).bind fun _ _ =>
      Keeps.pure ⟨w.length_getAll order n _, fun x _ => hst.fits x⟩

end

/-! ### Descriptors -/

def TypeCache.Touched (cache : TypeCache) : Prop := ∃ key slot, cache key = some slot

lemma TypeCache.not_touched {cache : TypeCache} : ¬ cache.Touched ↔ cache = empty := by
  constructor
  · intro h
    funext key
    cases hk : cache key with
    | none => rfl
    | some slot => exact absurd ⟨key, slot, hk⟩ h
  · rintro rfl ⟨key, slot, h⟩
    cases h

section

variable {order : ByteOrder} {policy : BoundedStringPolicy}
  {type : Decoder TypeCache (FieldDesc × TreeMetrics)} {n : ℕ}

lemma clean_decodeMembers
    (h : Clean Touched type fun dm => dm.1.wireDepth + 1 ≤ n) (k : ℕ) :
    ∀ m, Clean Touched (decodeMembers (decodeFieldDescWith order type) k m)
      fun fs => wireDepthMembers fs.1 ≤ n := by
  have hfield : Clean Touched (decodeFieldDescWith order type)
      fun f => f.1.2.wireDepth + 1 ≤ n :=
    (Clean.of_keeps fun _ => keeps_decodeLabel order).bind fun _ =>
      h.map _ fun _ hdm _ => hdm
  induction k with
  | zero => exact fun m => Clean.pure (Nat.zero_le _)
  | succ k ih =>
    intro m
    refine hfield.bind fun f => (Clean.of_keeps fun _ => keeps_checkFieldMetrics _).bind fun _ => ?_
    refine (ih _).map _ fun fs hfs _ hf => ?_
    exact max_le hf hfs

lemma clean_decodeBodyWith (k : Compound) (hk : k.isArray = false) (what : String)
    (h : Clean Touched type fun dm => dm.1.wireDepth + 1 ≤ n) :
    Clean Touched (decodeBodyWith k what order type) fun dm => dm.1.wireDepth ≤ n := by
  refine (Clean.of_keeps fun _ => keeps_decodeLabel order).bind fun i => ?_
  refine (Clean.of_keeps fun _ => keeps_decodeSizeNonnull order what).bind fun m => ?_
  refine (clean_decodeMembers h m.toNat ⟨0, 1⟩).map _ fun ms hms _ _ => ?_
  cases k with
  | struct => exact hms
  | union => exact hms
  | structArray => simp [Compound.isArray] at hk
  | unionArray => simp [Compound.isArray] at hk

lemma clean_decodeTag (tag : UInt8)
    (h : Clean Touched type fun dm => dm.1.wireDepth + 1 ≤ n) :
    Clean Touched (decodeTag order policy type tag) fun dm => dm.1.wireDepth ≤ n := by
  unfold decodeTag
  cases TypeTag.ofByte tag with
  | define =>
    refine (Clean.of_keeps fun _ => keeps_getU16 order).bind fun key => h.bind fun dm => ?_
    -- a definition binds its slot, so a cache that is still empty excludes it
    have hbind : Clean Touched
        (modify fun cache => cache.orInsert key (CachedType.newWithMetrics dm.1 dm.2) :
          Decoder TypeCache Unit) fun _ => False := by
      have htouched : ∀ cache : TypeCache,
          (cache.orInsert key (CachedType.newWithMetrics dm.1 dm.2)).Touched :=
        fun cache => ⟨key, _, (orInsert_self ..)⟩
      refine ⟨fun i s _ => ⟨htouched s, fun _ _ _ => trivial⟩, fun i r s s' a _ hr hs' => ?_⟩
      simp only [modify_apply, Prod.mk.injEq] at hr
      exact hs' (hr.2 ▸ htouched s)
    exact hbind.bind fun _ => Clean.pure fun hfalse => hfalse.elim
  | reference =>
    refine (Clean.of_keeps fun _ => keeps_getU16 order).bind fun key => ?_
    -- and a reference finds no slot in an empty cache
    have hget : Clean Touched (get : Decoder TypeCache TypeCache)
        fun cache => ¬ cache.Touched := by
      refine ⟨fun i s hs => ⟨hs, fun _ _ _ => trivial⟩, fun i r s s' a hs hr _ => ?_⟩
      simp only [get_apply, Prod.mk.injEq, Except.ok.injEq] at hr
      exact hr.1.1 ▸ hs
    refine hget.bind fun cache => ?_
    have hslot : Clean Touched
        (orFault (.cacheMiss key) (cache key) : Decoder TypeCache CachedType)
        fun slot => cache key = some slot := Clean.of_keeps fun _ => keeps_orFault _ fun _ hs => hs
    exact hslot.map _ fun slot hs hcache _ => absurd ⟨key, slot, hs⟩ hcache
  | struct => exact clean_decodeBodyWith .struct rfl _ h
  | union => exact clean_decodeBodyWith .union rfl _ h
  | structArray =>
    refine h.bind fun dm => ?_
    obtain ⟨d, m⟩ := dm
    cases d with
    | struct i ms => exact Clean.pure fun hdm => hdm
    | _ => exact Clean.fail _
  | unionArray =>
    refine h.bind fun dm => ?_
    obtain ⟨d, m⟩ := dm
    cases d with
    | union i ms => exact Clean.pure fun hdm => hdm
    | _ => exact Clean.fail _
  | variant => exact Clean.pure (Nat.zero_le _)
  | variantArray => exact Clean.pure (Nat.zero_le _)
  | boundedString =>
    cases policy with
    | interop =>
      exact (Clean.of_keeps fun _ => keeps_decodeSizeNonnull order _).bind
        fun _ => Clean.pure fun _ => Nat.zero_le _
    | strictPvxs => exact Clean.fail _
  | scalarArray =>
    refine Clean.map _ (Q := fun _ => True) ?_ fun _ _ => Nat.zero_le _
    exact Clean.of_keeps fun _ => keeps_orFault _ fun _ _ => trivial
  | scalar =>
    refine Clean.map _ (Q := fun _ => True) ?_ fun _ _ => Nat.zero_le _
    exact Clean.of_keeps fun _ => keeps_orFault _ fun _ _ => trivial

end

/-- **A descriptor without markers nests as its bytes do.** -/
theorem clean_decodeTypeDescCachedAtDepth (order : ByteOrder) (policy : BoundedStringPolicy) :
    ∀ room, Clean Touched (decodeTypeDescCachedAtDepth order policy room)
      fun dm => dm.1.wireDepth + 1 ≤ room
  | 0 => Clean.fail _
  | room + 1 => (Clean.of_keeps fun _ => keeps_getU8).bind fun tag =>
      (clean_decodeTag tag (clean_decodeTypeDescCachedAtDepth order policy room)).mono
        fun _ hdm _ => Nat.succ_le_succ hdm

lemma clean_decodeTypeDescCached (order : ByteOrder) :
    Clean Touched (decodeTypeDescCached order)
      fun d => d.labelsFit = true → d.admitted = true := by
  have hdepth : Clean Touched (decodeTypeDescCached order)
      fun d => d.wireDepth ≤ maxFieldDepth :=
    (clean_decodeTypeDescCachedAtDepth order .interop (maxFieldDepth + 1)).map Prod.fst
      fun _ hdm => Nat.le_of_succ_le_succ hdm
  have hbounded : ∀ cache : TypeCache, ¬ cache.Touched → cache.Bounded := by
    intro cache h
    rw [not_touched.1 h]
    exact bounded_empty
  refine (hdepth.and_keeps hbounded (keeps_decodeTypeDescCached order)).mono fun d hd hlabels => ?_
  simp [admitted, hd.1, hd.2.2, hlabels]

lemma clean_decodeTypeDescCachedOpt (order : ByteOrder) :
    Clean Touched (decodeTypeDescCachedOpt order)
      fun d => ∀ d', d = some d' → d'.labelsFit = true → d'.admitted = true := by
  have hdesc : Clean Touched (decodeTypeDescCached order >>= fun d => pure (some d))
      fun d => ∀ d', d = some d' → d'.labelsFit = true → d'.admitted = true := by
    refine (clean_decodeTypeDescCached order).map some fun d hd d' hd' => ?_
    rwa [← Option.some.inj hd']
  constructor
  · intro i s hs
    cases i with
    | nil => exact ⟨hs, fun _ _ _ => trivial⟩
    | cons b i =>
      by_cases hb : b = tagNull
      · rw [hb, decodeTypeDescCachedOpt_null]
        exact ⟨hs, fun _ _ _ => trivial⟩
      · rw [decodeTypeDescCachedOpt_cons hb]
        exact hdesc.1 (b :: i) s hs
  · intro i r s s' d hs hr hs'
    cases i with
    | nil => simp [decodeTypeDescCachedOpt, getU8, bind_apply] at hr
    | cons b i =>
      by_cases hb : b = tagNull
      · rw [hb, decodeTypeDescCachedOpt_null] at hr
        obtain ⟨⟨rfl, -⟩, -⟩ : (none = d ∧ i = r) ∧ s = s' := by simpa using hr
        exact fun d' hd' => by cases hd'
      · rw [decodeTypeDescCachedOpt_cons hb] at hr
        exact hdesc.2 (b :: i) r s s' d hs hr hs'

/-! ### Values -/

/-- No label in the descriptors at the top of a value reaches `2 ^ 32` bytes. -/
def PvField.topLabelsShort : PvField → Bool
  | .variant v => v.desc.all FieldDesc.labelsFit
  | .variantArray items => items.all fun item => item.all fun v => v.desc.all FieldDesc.labelsFit
  | _ => true

/-- No label in the descriptors of a value reaches `2 ^ 32` bytes. -/
def labelsShort (v : PvField) : Bool := v.all PvField.topLabelsShort

/-- The value matches its descriptor, its levels are within those that were left, and it fits when
its labels do. -/
structure Resendable (d : FieldDesc) (room : ℕ) (v : PvField) : Prop where
  matches_desc : matchesDesc v d = true
  nesting_lt : nesting v + 1 ≤ room
  fits_of_short : labelsShort v = true → fits v = true

lemma exists_partner {α β : Type} {R : α → β → Prop} {xs ys} (h : Forall₂ R xs ys)
    : ∀ y ∈ ys, ∃ x ∈ xs, R x y := by
  induction h with
  | nil => simp
  | @cons x y xs ys hxy _ ih =>
    refine forall_mem_cons.2 ⟨⟨x, mem_cons_self .., hxy⟩, fun y' hy' => ?_⟩
    obtain ⟨x', hx', hR⟩ := ih y' hy'
    exact ⟨x', mem_cons_of_mem _ hx', hR⟩

section

variable {room : ℕ} {i : String}

lemma resendable_struct {ms : List Member} {fs}
    (h : Forall₂ (fun m f => f.1 = m.1 ∧ Resendable m.2 room f.2) ms fs) :
    Resendable (.struct i ms) (room + 1) (.struct ⟨i, fs⟩) := by
  refine ⟨?_, ?_, fun hshort => ?_⟩
  · refine matchesDesc_struct.2 ⟨rfl, Forall₂.flip (h.imp fun m f hmf => ?_)⟩
    exact ⟨hmf.1, hmf.2.matches_desc⟩
  · refine Nat.succ_le_succ (nesting_struct_le.2 fun f hf => ?_)
    obtain ⟨m, -, -, hf'⟩ := exists_partner h f hf
    exact hf'.nesting_lt
  · refine all_struct.2 ⟨rfl, fun f hf => ?_⟩
    obtain ⟨m, -, -, hf'⟩ := exists_partner h f hf
    exact hf'.fits_of_short ((all_struct.1 hshort).2 f hf)

lemma resendable_structArray {ms : List Member} {items : List (Option PvStructure)}
    (hlen : items.length < 2 ^ 32)
    (h : ∀ s, some s ∈ items → Resendable (.struct i ms) room (.struct s)) :
    Resendable (.structArray i ms) (room + 1) (.structArray items) := by
  refine ⟨?_, ?_, fun hshort => ?_⟩
  · exact matchesElements_iff.2 fun s hs => (h s hs).matches_desc
  · exact Nat.succ_le_succ (nesting_structArray_le.2 fun s hs => (h s hs).nesting_lt)
  · refine all_structArray.2 ⟨decide_eq_true hlen, fun s hs => ?_⟩
    have hs' := (h s hs).fits_of_short
      (all_struct.2 ⟨rfl, (all_structArray.1 hshort).2 s hs⟩)
    exact (all_struct.1 hs').2

lemma resendable_union {variants} {u : UnionItem} {idx m}
    (hsel : selectVariant variants u.selector = some (idx, m)) (hname : u.variantName = m.1)
    (h : Resendable m.2 room u.value) :
    Resendable (.union i variants) (room + 1) (.union u) := by
  refine ⟨?_, ?_, fun hshort => ?_⟩
  · exact matchesDesc_union.2 (Or.inl ⟨idx, m, hsel, hname, h.matches_desc⟩)
  · exact Nat.succ_le_succ (nesting_union_le.2 (Or.inr h.nesting_lt))
  · exact all_union.2 ⟨rfl, h.fits_of_short (all_union.1 hshort).2⟩

lemma resendable_nullUnion (i : String) (variants : List Member) :
    Resendable (.union i variants) (room + 1) (.union nullUnion) :=
  ⟨matchesDesc_union.2 (Or.inr rfl), Nat.succ_le_succ (Nat.zero_le _), fun _ => rfl⟩

lemma resendable_unionArray {variants} {items : List (Option UnionItem)}
    (hlen : items.length < 2 ^ 32)
    (h : ∀ u, some u ∈ items → ∃ idx m, selectVariant variants u.selector = some (idx, m) ∧
      u.variantName = m.1 ∧ Resendable m.2 room u.value) :
    Resendable (.unionArray i variants) (room + 1) (.unionArray items) := by
  refine ⟨matchesUnions_iff.2 fun u hu => ?_, Nat.succ_le_succ (nesting_unionArray_le.2 fun u hu => ?_),
    fun hshort => all_unionArray.2 ⟨decide_eq_true hlen, fun u hu => ?_⟩⟩
  · obtain ⟨idx, m, hsel, hname, hv⟩ := h u hu
    exact ⟨idx, m, hsel, hname, hv.matches_desc⟩
  · obtain ⟨idx, m, -, -, hv⟩ := h u hu
    exact hv.nesting_lt
  · obtain ⟨idx, m, -, -, hv⟩ := h u hu
    exact hv.fits_of_short ((all_unionArray.1 hshort).2 u hu)

/-- A self-describing value, with a descriptor that is admitted when its labels fit. -/
def ResendableAny (room : ℕ) (v : VariantValue) : Prop :=
  ∃ d, v.desc = some d ∧ (d.labelsFit = true → d.admitted = true) ∧ Resendable d room v.value

lemma resendable_variant {v} (h : ResendableAny room v) :
    Resendable .variant (room + 1) (.variant v) := by
  obtain ⟨desc, v⟩ := v
  obtain ⟨d, rfl, hadm, hv⟩ := h
  refine ⟨hv.matches_desc, ?_, fun hshort => ?_⟩
  · exact Nat.succ_le_succ (nesting_variant_le.2 fun _ _ => hv.nesting_lt)
  · obtain ⟨htop, hshort⟩ := all_variant.1 hshort
    exact all_variant.2 ⟨hadm htop, hv.fits_of_short hshort⟩

lemma resendable_nullVariant : Resendable .variant (room + 1) (.variant ⟨none, .null⟩) :=
  ⟨rfl, Nat.succ_le_succ (Nat.zero_le _), fun _ => rfl⟩

lemma resendable_variantArray {items : List (Option VariantValue)} (hlen : items.length < 2 ^ 32)
    (h : ∀ v, some v ∈ items → ResendableAny room v) :
    Resendable .variantArray (room + 1) (.variantArray items) := by
  refine ⟨matchesVariants_iff.2 fun v hv => ?_,
    Nat.succ_le_succ (nesting_variantArray_le.2 fun v hv => ?_), fun hshort => ?_⟩
  · obtain ⟨d, hd, -, hv'⟩ := h v hv
    exact ⟨d, hd, hv'.matches_desc⟩
  · obtain ⟨d, -, -, hv'⟩ := h v hv
    exact hv'.nesting_lt
  · obtain ⟨htop, hshort⟩ := all_variantArray.1 hshort
    simp only [topLabelsShort, all_eq_true] at htop
    refine all_variantArray.2 ⟨?_, fun v hv => ?_⟩
    · simp only [topFits, Bool.and_eq_true, decide_eq_true_eq, all_eq_true]
      refine ⟨hlen, fun item hitem => ?_⟩
      cases item with
      | none => rfl
      | some v =>
        obtain ⟨d, hd, hadm, -⟩ := h v hitem
        have hlabels := htop _ hitem
        simp only [Option.all_some, hd] at hlabels ⊢
        exact hadm hlabels
    · obtain ⟨d, -, -, hv'⟩ := h v hv
      exact hv'.fits_of_short (hshort v hv)

end

section

variable {order : ByteOrder} {field : FieldDesc → Decoder TypeCache PvField} {room : ℕ}

lemma clean_decodePresence {α : Type} {what absent} {present : Decoder TypeCache α} {Q : α → Prop}
    (hpresent : Clean Touched present Q) (habsent : Q absent)
    : Clean Touched (decodePresence what absent present) Q := by
  refine (Clean.of_keeps fun _ => keeps_getU8).bind fun b => ?_
  split_ifs
  · exact Clean.pure fun _ => habsent
  · exact hpresent.mono fun _ ha _ => ha
  · exact Clean.fail _

lemma clean_counted {α : Type} {what} {p : Decoder TypeCache α} {Q : α → Prop} {R : PvField → Prop}
    (f : List α → PvField) (hp : Clean Touched p Q)
    (h : ∀ as, as.length < 2 ^ 32 → (∀ a ∈ as, Q a) → R (f as)) :
    Clean Touched (do
      let n ← decodeSizeNonnull order what
      let as ← times p n.toNat
      pure (f as)) R := by
  refine (Clean.of_keeps fun _ => keeps_decodeSizeNonnull order what).bind fun n => ?_
  refine (hp.times n.toNat).map f fun as has _ => h as ?_ has.2
  rw [has.1]
  exact n.toNat_lt

lemma clean_decodeSelected {what variants sel}
    (h : ∀ d, Clean Touched (field d) (Resendable d room)) :
    Clean Touched (decodeSelected what variants field sel) fun u =>
      ∃ idx m, selectVariant variants u.selector = some (idx, m) ∧ u.variantName = m.1 ∧
        Resendable m.2 room u.value := by
  have hsel : Clean Touched (orFault (.selector what sel) (selectVariant variants sel) :
      Decoder TypeCache (ℕ × Member)) fun m => selectVariant variants sel = some m :=
    Clean.of_keeps fun _ => keeps_orFault _ fun _ hm => hm
  refine hsel.bind fun m => (h m.2.2).map _ fun v hv hm => ?_
  exact ⟨m.1, m.2, hm, rfl, hv⟩

lemma clean_decodeAny (h : ∀ d, Clean Touched (field d) (Resendable d room)) :
    Clean Touched (decodeAny order field) fun v => ∀ v', v = some v' →
      ResendableAny room v' := by
  refine (clean_decodeTypeDescCachedOpt order).bind fun d => ?_
  cases d with
  | none => exact Clean.pure fun _ _ hv => by cases hv
  | some d =>
    refine (h d).map _ fun v hv hadm v' hv' => ?_
    obtain rfl := Option.some.inj hv'
    exact ⟨d, rfl, hadm d rfl, hv⟩

lemma eq_struct_of_matchesDesc {v i} {ms : List Member} (h : matchesDesc v (.struct i ms) = true)
    : ∃ s, v = .struct s := by
  cases v with
  | struct s => exact ⟨s, rfl⟩
  | _ => simp [matchesDesc] at h

lemma length_flatten_of_one {α : Type} {as : List (List α)} (h : ∀ a ∈ as, a.length = 1) :
    as.flatten.length = as.length := by
  induction as with
  | nil => rfl
  | cons a as ih =>
    obtain ⟨ha, has⟩ := forall_mem_cons.1 h
    rw [flatten_cons, length_append, ih has, ha, length_cons, Nat.add_comm]

lemma clean_decodeLevel (h : ∀ d, Clean Touched (field d) (Resendable d room))
    (d : FieldDesc) : Clean Touched (decodeLevel order field d) (Resendable d (room + 1)) := by
  cases d with
  | scalar st =>
    have hscalar : Clean Touched (decodeScalar order st : Decoder TypeCache _)
        fun x => st.elemFits x = true := Clean.of_keeps fun _ => keeps_decodeScalar st
    refine Clean.map PvField.scalar (hscalar.map (fun x => (⟨st, x⟩ : ScalarValue))
      (R := fun v => v.st = st ∧ v.st.elemFits v.val = true) fun x hx => ⟨rfl, hx⟩) ?_
    rintro v ⟨rfl, hfit⟩
    exact ⟨by simp [matchesDesc], Nat.succ_le_succ (Nat.zero_le _), fun _ => hfit⟩
  | scalarArray st =>
    refine (Clean.of_keeps fun _ => keeps_decodeSizeNonnull order _).bind fun n => ?_
    refine Clean.map scalarArrayTyped
      (Clean.of_keeps fun _ => keeps_decodeTypedScalarArray st n.toNat) ?_
    rintro arr ⟨rfl, hlen, hitems⟩ -
    refine ⟨by simp [matchesDesc], Nat.succ_le_succ (Nat.zero_le _), fun _ => ?_⟩
    simp only [fits, PvField.all, PvField.topFits, Bool.and_eq_true, decide_eq_true_eq,
      all_eq_true]
    exact ⟨by rw [hlen]; exact n.toNat_lt, hitems⟩
  | struct i ms =>
    have hmember : ∀ m : Member, Clean Touched (field m.2 >>= fun v => pure (m.1, v))
        fun f => f.1 = m.1 ∧ Resendable m.2 room f.2 :=
      fun m => (h m.2).map _ fun v hv => ⟨rfl, hv⟩
    exact (Clean.each hmember ms).map _ fun fs hfs => resendable_struct hfs
  | structArray i ms =>
    refine clean_counted (fun items => structArray items.flatten) (clean_decodePresence
      (Q := fun items => items.length = 1 ∧ ∀ s, some s ∈ items →
        Resendable (.struct i ms) room (.struct s)) ((h _).map _ fun v hv => ?_)
      ⟨rfl, by simp⟩) fun as hlen has => ?_
    · -- each turn of the loop pushes one element
      obtain ⟨s, rfl⟩ := eq_struct_of_matchesDesc hv.matches_desc
      refine ⟨rfl, fun s' hs' => ?_⟩
      obtain rfl : s' = s := by simpa [pushStructure] using hs'
      exact hv
    · refine resendable_structArray (by rw [length_flatten_of_one fun a ha => (has a ha).1]; exact hlen)
        fun s hs => ?_
      obtain ⟨a, ha, hs⟩ := mem_flatten.1 hs
      exact (has a ha).2 s hs
  | union i variants =>
    refine (Clean.of_keeps fun _ => keeps_decodeSize order).bind fun sel => ?_
    cases sel with
    | none => exact Clean.pure fun _ => resendable_nullUnion i variants
    | some sel =>
      refine (clean_decodeSelected h).map PvField.union fun u hu _ => ?_
      obtain ⟨idx, m, hsel, hname, hv⟩ := hu
      exact resendable_union hsel hname hv
  | unionArray i variants =>
    have hitem : Clean Touched (decodeUnionItem order variants field) fun item =>
        ∀ u, item = some u → ∃ idx m, selectVariant variants u.selector = some (idx, m) ∧
          u.variantName = m.1 ∧ Resendable m.2 room u.value := by
      refine (Clean.of_keeps fun _ => keeps_decodeSize order).bind fun sel => ?_
      cases sel with
      | none => exact Clean.pure fun _ _ hu => by cases hu
      | some sel =>
        refine (clean_decodeSelected h).map some fun u hu _ u' hu' => ?_
        rwa [← Option.some.inj hu']
    refine clean_counted unionArray (clean_decodePresence hitem (by simp))
      fun items hlen hitems => resendable_unionArray hlen fun u hu => hitems _ hu u rfl
  | variant =>
    refine (clean_decodeAny h).map _ fun any hany => ?_
    cases any with
    | none => exact resendable_nullVariant
    | some v => exact resendable_variant (hany v rfl)
  | variantArray =>
    refine clean_counted variantArray (clean_decodePresence (clean_decodeAny h) (by simp))
      fun items hlen hitems => resendable_variantArray hlen fun v hv => hitems _ hv v rfl

end

/-- **A value without markers can be sent again.** -/
theorem clean_decodePvFieldAtDepth (order : ByteOrder) :
    ∀ room d, Clean Touched (decodePvFieldAtDepth order room d) (Resendable d room)
  | 0, _ => Clean.fail _
  | room + 1, d => clean_decodeLevel (clean_decodePvFieldAtDepth order room) d

end Pva
