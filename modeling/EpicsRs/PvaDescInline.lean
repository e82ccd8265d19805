/-
**Which descriptors survive an inline round trip.**

A descriptor that was built from cached pieces is emitted again inline.  The decoder admits it by
the height of the resolved tree, but reads it inline under a limit on the nesting of its bytes, of
which an array of structures costs two levels.  The levels are those of `FieldDesc.wireDepth`, and a
label or a member count survives when its length is not cut to 32 bits.

Main result: `Pva.decodeTypeDesc_encodeTypeDesc_iff`.
-/

import EpicsRs.PvaDescBounds

set_option autoImplicit false

namespace Pva

open ByteReader List FieldDesc TypeCache TreeMetrics

/-! ### The tags of a compound -/

/-- The message of the null size in a body. -/
def Compound.countName : Compound → String
  | struct | structArray => "structure field count"
  | union | unionArray => "union variant count"

/-- The step that turns the element of an array into the array. -/
def Compound.lift : Compound → FieldDesc × TreeMetrics → Decoder TypeCache (FieldDesc × TreeMetrics)
  | struct | structArray => liftStructure
  | union | unionArray => liftUnion

lemma Compound.isArray_element (k : Compound) : k.element.isArray = false := by
  cases k <;> rfl

section

variable {order : ByteOrder} {policy : BoundedStringPolicy}
variable {k : Compound}

lemma decode_tags_element (hk : k.isArray = false) (room : ℕ) (r : List UInt8) (s : TypeCache) :
    decodeTypeDescCachedAtDepth order policy (room + 1) (k.tags ++ r) s =
      decodeBodyWith k k.countName order (decodeTypeDescCachedAtDepth order policy room) r s := by
  cases k <;> first | rfl | simp [Compound.isArray] at hk

lemma decode_tags_array (hk : k.isArray = true) (room : ℕ) (r : List UInt8) (s : TypeCache) :
    decodeTypeDescCachedAtDepth order policy (room + 1) (k.tags ++ r) s =
      (decodeTypeDescCachedAtDepth order policy room >>= k.lift) (k.element.tags ++ r) s := by
  cases k <;> first | rfl | simp [Compound.isArray] at hk

lemma lift_element (hk : k.isArray = true) (i : String) (ms : List Member) (m : TreeMetrics) :
    k.lift (k.element.desc i ms, m) = pure (k.desc i ms, m) := by
  cases k <;> first | rfl | simp [Compound.isArray] at hk

lemma decode_tags_array_eq_ok (hk : k.isArray = true) {room r r'} {s s' : TypeCache} {i ms m} :
    decodeTypeDescCachedAtDepth order policy (room + 1) (k.tags ++ r) s =
        (.ok ((k.desc i ms, m), r'), s') ↔
      decodeTypeDescCachedAtDepth order policy room (k.element.tags ++ r) s =
        (.ok ((k.element.desc i ms, m), r'), s') := by
  rw [decode_tags_array hk, bind_eq_ok]
  constructor
  · rintro ⟨⟨d, m'⟩, i₁, s₁, h₁, h₂⟩
    rw [h₁]
    cases k <;> simp only [Compound.isArray, Bool.false_eq_true] at hk <;>
      cases d <;> simp [Compound.lift, liftStructure, liftUnion, pure_apply, Compound.desc,
        Compound.element] at h₂ ⊢ <;>
      simpa [and_assoc] using h₂
  · intro h
    exact ⟨_, _, _, h, by rw [lift_element hk]; rfl⟩

lemma reads_leaf {d} (hd : d.cacheable = false) (room : ℕ) (s : TypeCache) :
    Reads (decodeTypeDescCachedAtDepth order policy (room + 1)) (encodeTypeDesc order d) s
      (d, of d) s := by
  intro r
  cases d with
  | scalar st => cases st <;> rfl
  | scalarArray st => cases st <;> rfl
  | variant => rfl
  | variantArray => rfl
  | _ => simp [cacheable] at hd

end

/-! ### Reading what was written -/

/-- The members `ms` are read off `c` one after another, each with its metrics, and the cache goes
from `s` to `s'`. -/
inductive MembersRead (order : ByteOrder) (type : Decoder TypeCache (FieldDesc × TreeMetrics)) :
    List UInt8 → TypeCache → List Member → TypeCache → Prop
  | nil (s : TypeCache) : MembersRead order type [] s [] s
  | cons {c cs : List UInt8} {s s₁ s' : TypeCache} {name : String} {d : FieldDesc}
      {ms : List Member} (fits : FieldDesc.labelFits name = true)
      (head : Reads type c s (d, TreeMetrics.of d) s₁) (tail : MembersRead order type cs s₁ ms s') :
      MembersRead order type (encodeString name order ++ c ++ cs) s ((name, d) :: ms) s'

section

variable {order : ByteOrder} {type : Decoder TypeCache (FieldDesc × TreeMetrics)}

lemma reads_checkFieldMetrics {σ : Type} {m} (hh : m.height ≤ maxFieldDepth)
    (hn : m.nodes ≤ maxFieldNodes) (s : σ) : Reads (checkFieldMetrics m) [] s () s := by
  intro r
  rw [checkFieldMetrics, if_neg (not_lt.2 hn), if_neg (not_lt.2 hh)]
  rfl

variable {ms : List Member}

/-- The loop over the members, by induction on how they are read.  The running metrics stay under
the final ones, so every check passes. -/
lemma MembersRead.reads {c} {s s' : TypeCache} (h : MembersRead order type c s ms s') :
    ∀ m : TreeMetrics, max m.height (heightMembers ms) ≤ maxFieldDepth →
      m.nodes + nodesMembers ms ≤ maxFieldNodes →
      Reads (decodeMembers (decodeFieldDescWith order type) ms.length m) c s
        (ms, ⟨max m.height (heightMembers ms), m.nodes + nodesMembers ms⟩)
        s' := by
  induction h with
  | nil s =>
    intro m hh hn
    have hm : (⟨max m.height 0, m.nodes + 0⟩ : TreeMetrics) = m := by simp
    simp only [heightMembers, nodesMembers, hm]
    exact Reads.pure _ s
  | @cons c cs s s₁ s' name d ms fits head tail ih =>
    intro m hh hn
    simp only [heightMembers, nodesMembers] at hh hn ⊢
    have hd : Measured (d, of d) := ⟨rfl, by simp only; omega, by simp only; omega⟩
    have hadd := addChild_eq (m := m) (by omega) hd
    have hfield : Reads (decodeFieldDescWith order type) (encodeString name order ++ c) s
        ((name, d), of d) s₁ :=
      (reads_decodeLabel (by simpa [labelFits] using fits) order s).bind
        (head.map fun dm => ((name, dm.1), dm.2))
    have hrest := ih (m.addChild (of d)) (by rw [hadd]; simp only; omega)
      (by rw [hadd]; simp only; omega)
    refine hfield.bind ?_
    refine (reads_checkFieldMetrics (by rw [hadd]; simp only; omega)
      (by rw [hadd]; simp only; omega) s₁).bind ?_
    have hres := hrest.map fun fs => ((name, d) :: fs.1, fs.2)
    rw [hadd] at hres ⊢
    simpa only [max_assoc, Nat.add_assoc] using hres

lemma MembersRead.reads_body {c} {s s' : TypeCache} (h : MembersRead order type c s ms s')
    (k : Compound) (what : String) {i} (hfit : labelFits i = true) (hlen : ms.length < 2 ^ 32)
    (hh : heightMembers ms ≤ maxFieldDepth) (hn : nodesMembers ms + 1 ≤ maxFieldNodes) :
    Reads (decodeBodyWith k what order type) (bodyHead order i ms.length ++ c) s
      (k.desc i ms, of (k.desc i ms)) s' := by
  have hcount : (UInt32.ofNat ms.length).toNat = ms.length := UInt32.toNat_ofNat_of_lt' hlen
  have hms := h.reads ⟨0, 1⟩ (by simpa using hh) (by simpa [Nat.add_comm] using hn)
  rw [bodyHead, append_assoc]
  refine (reads_decodeLabel (by simpa [labelFits] using hfit) order s).bind ?_
  refine (reads_decodeSizeNonnull _ order what s).bind ?_
  rw [hcount]
  have hres := hms.map fun fs => (k.desc i fs.1, fs.2)
  have hof : of (k.desc i ms) =
      ⟨max 0 (heightMembers ms), 1 + nodesMembers ms⟩ := by
    simp [of, Nat.add_comm]
  rw [hof]
  exact hres

lemma membersRead_inline {s : TypeCache} (hfit : labelsFitMembers ms = true)
    (h : ∀ m ∈ ms, Reads type (encodeTypeDesc order m.2) s (m.2, of m.2) s) :
    MembersRead order type (encodeFieldDescs order ms) s ms s := by
  induction ms with
  | nil => exact .nil s
  | cons m ms ih =>
    obtain ⟨name, d⟩ := m
    obtain ⟨hm, hms⟩ := forall_mem_cons.1 h
    obtain ⟨⟨hname, -⟩, hfits⟩ := forall_mem_cons.1 (labelsFitMembers_iff.1 hfit)
    exact .cons hname hm (ih (labelsFitMembers_iff.2 hfits) hms)

def Compound.levels (k : Compound) : ℕ := if k.isArray then 2 else 1

/-- The tags of a compound in front of a body that is read with `below` levels left. -/
lemma reads_tags {policy below c} {s s' : TypeCache} {i}
    (hbody : ∀ k : Compound, Reads
      (decodeBodyWith k k.countName order (decodeTypeDescCachedAtDepth order policy below)) c s
      (k.desc i ms, of (k.desc i ms)) s') (k : Compound) :
    Reads (decodeTypeDescCachedAtDepth order policy (below + k.levels)) (k.tags ++ c) s
      (k.desc i ms, of (k.desc i ms)) s' := by
  have helem : ∀ k : Compound, k.isArray = false →
      Reads (decodeTypeDescCachedAtDepth order policy (below + 1)) (k.tags ++ c) s
        (k.desc i ms, of (k.desc i ms)) s' := by
    intro k hk r
    rw [append_assoc, decode_tags_element hk]
    exact hbody k r
  cases hk : k.isArray with
  | false =>
    rw [Compound.levels, hk]
    exact helem k hk
  | true =>
    intro r
    have hof : of (k.desc i ms) = of (k.element.desc i ms) := by
      simp [of]
    rw [Compound.levels, hk, if_pos rfl, append_assoc, decode_tags_array_eq_ok hk, hof,
      ← append_assoc]
    exact helem k.element k.isArray_element r

end

variable (order : ByteOrder)

/-- **A descriptor within the limits is read back**: its bytes nest within the levels that are
left, nothing in it is cut, and the resolved tree is within the limits.  The cache is not
touched. -/
theorem reads_encodeTypeDesc (policy : BoundedStringPolicy) (s : TypeCache) (d : FieldDesc) :
    ∀ room, d.wireDepth < room → d.labelsFit = true →
      d.height ≤ maxFieldDepth → d.nodes ≤ maxFieldNodes →
      Reads (decodeTypeDescCachedAtDepth order policy room) (encodeTypeDesc order d) s
        (d, of d) s := by
  induction d using compound_induction with
  | leaf d hd =>
    intro room hroom _ _ _
    obtain ⟨room, rfl⟩ := Nat.exists_eq_add_one_of_ne_zero (Nat.ne_of_gt (Nat.zero_lt_of_lt hroom))
    exact reads_leaf hd room s
  | compound k i ms ih =>
    intro room hroom hfit hh hn
    obtain ⟨hi, hlen, hms⟩ := (labelsFit_desc k i ms).1 hfit
    rw [wireDepth_desc] at hroom
    rw [height_desc] at hh
    rw [nodes_desc] at hn
    rw [encodeTypeDesc_desc]
    obtain ⟨below, rfl, hbelow⟩ : ∃ below, room = below + k.levels ∧
        wireDepthMembers ms ≤ below := by
      refine ⟨room - k.levels, ?_, ?_⟩ <;> rw [Compound.levels] <;> split_ifs at * <;> omega
    refine reads_tags (fun k' => ?_) k
    refine (membersRead_inline hms fun m hm => ?_).reads_body k' _ hi hlen hh hn
    have hwire := wireDepthMembers_le_iff.1 hbelow m hm
    have hheight := heightMembers_le_iff.1 hh m hm
    have hnodes := nodes_le_nodesMembers hm
    exact ih m hm below (by omega) (labelsFitMembers_iff.1 hms m hm).2
      (by omega) (by omega)

/-! ### What was read back -/

section

variable {order : ByteOrder} {type : Decoder TypeCache (FieldDesc × TreeMetrics)}

lemma decodeLabel_encodeString {σ : Type} {name r r'} {s s' : σ}
    (h : decodeLabel order (encodeString name order ++ r) s = (.ok (name, r'), s')) :
    labelFits name = true ∧ r' = r ∧ s' = s := by
  have hlen := length_lt_of_decodeLabel h
  rw [reads_decodeLabel hlen order s r] at h
  simp only [Prod.mk.injEq, Except.ok.injEq, true_and] at h
  exact ⟨by simpa [labelFits] using hlen, h.1.symm, h.2.symm⟩

lemma decodeFieldDescWith_eq_ok {i r} {s s' : TypeCache} {name d m}
    (h : decodeFieldDescWith order type i s = (.ok (((name, d), m), r), s')) :
    ∃ i₁ s₁, decodeLabel order i s = (.ok (name, i₁), s₁) ∧
      type i₁ s₁ = (.ok ((d, m), r), s') := by
  unfold decodeFieldDescWith at h
  obtain ⟨name', i₁, s₁, hname, h⟩ := bind_eq_ok.1 h
  obtain ⟨dm, i₂, s₂, htype, h⟩ := bind_eq_ok.1 h
  obtain ⟨hres, rfl, rfl⟩ := pure_eq_ok.1 h
  obtain ⟨⟨rfl, rfl⟩, rfl⟩ : (name' = name ∧ dm.1 = d) ∧ dm.2 = m := by simpa using hres
  exact ⟨i₁, s₁, hname, htype⟩

variable {field : Decoder TypeCache (Member × TreeMetrics)}

lemma decodeMembers_succ_eq_ok {n m i r} {s s' : TypeCache} {fs}
    (h : decodeMembers field (n + 1) m i s = (.ok (fs, r), s')) :
    ∃ f i₁ s₁ fs', field i s = (.ok (f, i₁), s₁) ∧
      decodeMembers field n (m.addChild f.2) i₁ s₁ = (.ok (fs', r), s') ∧
      fs = (f.1 :: fs'.1, fs'.2) := by
  rw [decodeMembers] at h
  obtain ⟨f, i₁, s₁, hf, h⟩ := bind_eq_ok.1 h
  obtain ⟨_, i₂, s₂, hchk, h⟩ := bind_eq_ok.1 h
  obtain ⟨fs', i₃, s₃, hfs, h⟩ := bind_eq_ok.1 h
  obtain ⟨rfl, rfl, rfl⟩ := pure_eq_ok.1 h
  have hsame : i₁ = i₂ ∧ s₁ = s₂ := by
    unfold checkFieldMetrics at hchk
    split_ifs at hchk
    · simp at hchk
    · simp at hchk
    · exact (pure_eq_ok.1 hchk).2
  obtain ⟨rfl, rfl⟩ := hsame
  exact ⟨f, i₁, s₁, fs', hf, hfs, rfl⟩

lemma decodeMembers_length {n} :
    ∀ {m i r} {s s' : TypeCache} {fs},
      decodeMembers field n m i s = (.ok (fs, r), s') → fs.1.length = n := by
  induction n with
  | zero =>
    intro m i r s s' fs h
    obtain ⟨rfl, -, -⟩ := pure_eq_ok.1 h
    rfl
  | succ n ih =>
    intro m i r s s' fs h
    obtain ⟨f, i₁, s₁, fs', -, hfs, rfl⟩ := decodeMembers_succ_eq_ok h
    simp [ih hfs]

/-- The loop over the members, when it returns the members that were written: each of them was
read back by itself. -/
lemma of_decodeMembers {P : FieldDesc → Prop} {ms}
    (hP : ∀ m ∈ ms, ∀ r r' s s' mt, type (encodeTypeDesc order m.2 ++ r) s =
      (.ok ((m.2, mt), r'), s') → P m.2 ∧ r' = r) :
    ∀ {n} {m mt : TreeMetrics} {r r'} {s s' : TypeCache},
      decodeMembers (decodeFieldDescWith order type) n m (encodeFieldDescs order ms ++ r) s =
        (.ok ((ms, mt), r'), s') →
      (∀ m ∈ ms, labelFits m.1 = true ∧ P m.2) ∧ r' = r := by
  induction ms with
  | nil =>
    intro n m mt r r' s s' h
    have hn : n = 0 := (decodeMembers_length h).symm
    subst hn
    obtain ⟨-, hr, -⟩ := pure_eq_ok.1 h
    exact ⟨by simp, hr.symm⟩
  | cons mem ms ih =>
    obtain ⟨name, d⟩ := mem
    obtain ⟨hd, hms⟩ := forall_mem_cons.1 hP
    intro n m mt r r' s s' h
    have hn : n = ms.length + 1 := (decodeMembers_length h).symm
    subst hn
    obtain ⟨⟨⟨name', d'⟩, md⟩, i₁, s₁, ⟨ms', mt'⟩, hfield, hrest, hres⟩ :=
      decodeMembers_succ_eq_ok h
    simp only [Prod.mk.injEq, cons.injEq] at hres
    obtain ⟨⟨⟨rfl, rfl⟩, rfl⟩, rfl⟩ := hres
    -- the name, then the type
    obtain ⟨j₁, t₁, hname, htype⟩ := decodeFieldDescWith_eq_ok hfield
    rw [encodeFieldDescs, append_assoc, append_assoc] at hname
    obtain ⟨hfit, rfl, rfl⟩ := decodeLabel_encodeString hname
    obtain ⟨hPd, rfl⟩ := hd _ _ _ _ _ htype
    obtain ⟨hPms, hr⟩ := ih hms hrest
    exact ⟨forall_mem_cons.2 ⟨⟨hfit, hPd⟩, hPms⟩, hr⟩

lemma of_decodeBodyWith {P : FieldDesc → Prop} {ms k} {what i : String} {r r'} {s s' : TypeCache}
    {mt}
    (hP : ∀ m ∈ ms, ∀ r r' s s' mt, type (encodeTypeDesc order m.2 ++ r) s =
      (.ok ((m.2, mt), r'), s') → P m.2 ∧ r' = r)
    (h : decodeBodyWith k what order type (encodeStructureBody order i ms ++ r) s =
      (.ok ((k.desc i ms, mt), r'), s')) :
    labelFits i = true ∧ ms.length < 2 ^ 32 ∧
      (∀ m ∈ ms, labelFits m.1 = true ∧ P m.2) ∧ r' = r := by
  unfold decodeBodyWith at h
  obtain ⟨i', j₁, s₁, hi, h⟩ := bind_eq_ok.1 h
  obtain ⟨n, j₂, s₂, hn, h⟩ := bind_eq_ok.1 h
  obtain ⟨⟨ms', mt'⟩, j₃, s₃, hms, h⟩ := bind_eq_ok.1 h
  obtain ⟨hres, rfl, rfl⟩ := pure_eq_ok.1 h
  have hinj : i' = i ∧ ms' = ms := by
    cases k <;> simpa [Compound.desc] using (Prod.mk.inj hres).1
  obtain ⟨rfl, rfl⟩ := hinj
  rw [encodeStructureBody, bodyHead, append_assoc, append_assoc] at hi
  obtain ⟨hfit, rfl, rfl⟩ := decodeLabel_encodeString hi
  rw [reads_decodeSizeNonnull _ order what s₁ _] at hn
  simp only [Prod.mk.injEq, Except.ok.injEq] at hn
  obtain ⟨⟨rfl, rfl⟩, rfl⟩ := hn
  -- as many members were read as the count says, and the count is cut to 32 bits
  have hcount := decodeMembers_length hms
  have hlt := (UInt32.ofNat ms'.length).toNat_lt
  obtain ⟨hall, hr⟩ := of_decodeMembers hP hms
  exact ⟨hfit, by simp only at hcount; omega, hall, hr⟩

end

/-- **What is read back was within the limits**: the nesting of its bytes was within the levels
that were left, and nothing in it was cut. -/
theorem of_decode_encodeTypeDesc (policy : BoundedStringPolicy) (d : FieldDesc) :
    ∀ room r r' s s' m,
      decodeTypeDescCachedAtDepth order policy room (encodeTypeDesc order d ++ r) s =
        (.ok ((d, m), r'), s') →
      (d.wireDepth < room ∧ d.labelsFit = true) ∧ r' = r := by
  induction d using compound_induction with
  | leaf d hd =>
    intro room r r' s s' m h
    cases room with
    | zero => simp [decodeTypeDescCachedAtDepth] at h
    | succ room =>
      rw [reads_leaf hd room s r] at h
      simp only [Prod.mk.injEq, Except.ok.injEq, true_and] at h
      refine ⟨⟨?_, labelsFit_leaf hd⟩, h.1.2.symm⟩
      rw [wireDepth_leaf hd]
      exact Nat.succ_pos _
  | compound k i ms ih =>
    -- the innermost tag with its body, whatever stands in front of it
    have helem : ∀ (k' : Compound), k'.isArray = false → ∀ room r r' s s' m,
        decodeTypeDescCachedAtDepth order policy room
            (k'.tags ++ (encodeStructureBody order i ms ++ r)) s =
          (.ok ((k'.desc i ms, m), r'), s') →
        wireDepthMembers ms < room ∧ (k.desc i ms).labelsFit = true ∧ r' = r := by
      intro k' hk' room r r' s s' m h
      cases room with
      | zero => simp [decodeTypeDescCachedAtDepth] at h
      | succ room =>
        rw [decode_tags_element hk'] at h
        obtain ⟨hi, hlen, hall, hr⟩ := of_decodeBodyWith
          (P := fun d => d.wireDepth < room ∧ d.labelsFit = true)
          (fun m hm r r' s s' mt => ih m hm room r r' s s' mt) h
        refine ⟨Nat.lt_succ_of_le (wireDepthMembers_le_iff.2
          fun m hm => (hall m hm).2.1), ?_, hr⟩
        exact (labelsFit_desc k i ms).2 ⟨hi, hlen,
          labelsFitMembers_iff.2 fun m hm => ⟨(hall m hm).1, (hall m hm).2.2⟩⟩
    intro room r r' s s' m h
    rw [encodeTypeDesc_desc, append_assoc] at h
    rw [wireDepth_desc]
    cases hk : k.isArray with
    | false =>
      obtain ⟨hroom, hfit, hr⟩ := helem k hk room r r' s s' m h
      exact ⟨⟨by simpa using hroom, hfit⟩, hr⟩
    | true =>
      cases room with
      | zero => simp [decodeTypeDescCachedAtDepth] at h
      | succ room =>
        rw [decode_tags_array_eq_ok hk] at h
        obtain ⟨hroom, hfit, hr⟩ := helem k.element k.isArray_element room r r' s s' m h
        exact ⟨⟨by simpa using hroom, hfit⟩, hr⟩

/-! ### The inline round trip -/

lemma decodeTypeDesc_eq_ok {σ : Type} {order i r} {s s' : σ} {d} :
    decodeTypeDesc order i s = (.ok (d, r), s') ↔
      s' = s ∧ ∃ m c, decodeTypeDescCachedAtDepth order .interop (maxFieldDepth + 1) i
        empty = (.ok ((d, m), r), c) := by
  rw [decodeTypeDesc, zoom, Prod.mk.injEq]
  constructor
  · rintro ⟨h, rfl⟩
    have hok : decodeTypeDescCached order i empty =
        (.ok (d, r), (decodeTypeDescCached order i empty).2) := Prod.ext h rfl
    obtain ⟨⟨d', m⟩, i₁, s₁, h₁, h₂⟩ := bind_eq_ok.1 hok
    obtain ⟨rfl, rfl, -⟩ := pure_eq_ok.1 h₂
    exact ⟨rfl, m, s₁, h₁⟩
  · rintro ⟨rfl, m, c, h⟩
    refine ⟨?_, rfl⟩
    rw [decodeTypeDescCached, decodeTypeDescCachedWithPolicy, bind_of_ok h]
    rfl

/-- **The inline round trip, characterised.**  A descriptor of an admissible number of nodes comes
back from its inline encoding exactly when its bytes nest within `MAX_FIELD_DEPTH` and no label and
no member count in it is cut to 32 bits. -/
theorem decodeTypeDesc_encodeTypeDesc_iff {σ : Type} (d : FieldDesc)
    (hn : d.nodes ≤ maxFieldNodes) (s : σ) :
    decodeTypeDesc order (encodeTypeDesc order d) s = (.ok (d, []), s) ↔
      d.wireDepth ≤ maxFieldDepth ∧ d.labelsFit = true := by
  rw [decodeTypeDesc_eq_ok, ← append_nil (encodeTypeDesc order d)]
  constructor
  · rintro ⟨-, m, c, h⟩
    obtain ⟨⟨hwire, hfit⟩, -⟩ := of_decode_encodeTypeDesc order .interop d _ _ _ _ _ _ h
    exact ⟨Nat.lt_succ_iff.1 hwire, hfit⟩
  · rintro ⟨hwire, hfit⟩
    exact ⟨rfl, _, _, reads_encodeTypeDesc order .interop empty d _
      (Nat.lt_succ_iff.2 hwire) hfit (le_trans (height_le_wireDepth d) hwire) hn []⟩

/-- **Which of the descriptors that a connection accepted can be emitted inline again**: exactly
those whose bytes nest within `MAX_FIELD_DEPTH` — two levels for every array of structures or
unions — and whose labels are not cut. -/
theorem reencodable_iff (msgs : List (ByteOrder × List UInt8)) (d : FieldDesc) (r : List UInt8)
    (h : .ok (d, r) ∈ (calls decodeTypeDescCached msgs TypeCache.empty).1) (order : ByteOrder) :
    decodeTypeDesc order (encodeTypeDesc order d) () = (.ok (d, []), ()) ↔
      d.wireDepth ≤ maxFieldDepth ∧ d.labelsFit = true := by
  have hkept := Keeps.calls keeps_decodeTypeDescCached msgs empty
    bounded_empty
  exact decodeTypeDesc_encodeTypeDesc_iff order d (hkept.2 d r h).2 ()

/-- Arrays of structures inside each other, `n` of them above an empty one. -/
def arrayTower : ℕ → FieldDesc
  | 0 => .structArray "" []
  | n + 1 => .structArray "" [("", arrayTower n)]

/-- The messages that build the tower up: each defines a slot as an array of structures with one
member, and the member is a reference to the slot before. -/
def arrayTowerMessages : ℕ → List (ByteOrder × List UInt8)
  | 0 => [(.little, [0xFD, 0, 0, 0x88, 0x80, 0, 0])]
  | n + 1 => arrayTowerMessages n ++
      [(.little, [0xFD, UInt8.ofNat (n + 1), 0, 0x88, 0x80, 0, 1, 0, 0xFE, UInt8.ofNat n, 0])]

theorem reencodable_arrayTower_two :
    .ok (arrayTower 2, []) ∈
        (calls decodeTypeDescCached (arrayTowerMessages 2) TypeCache.empty).1 ∧
      decodeTypeDesc .big (encodeTypeDesc .big (arrayTower 2)) () = (.ok (arrayTower 2, []), ()) := by
  have hmem : .ok (arrayTower 2, []) ∈
      (calls decodeTypeDescCached (arrayTowerMessages 2) empty).1 := by
    decide +kernel
  exact ⟨hmem, (reencodable_iff _ _ _ hmem .big).2 ⟨by decide, by decide⟩⟩

/-- **An accepted descriptor that no peer accepts inline**: eleven messages, each referring to the
one before, build a tower that is resolved at height 10 and nests 21 levels of bytes. -/
theorem arrayTower_not_reencodable :
    .ok (arrayTower 10, []) ∈
        (calls decodeTypeDescCached (arrayTowerMessages 10) TypeCache.empty).1 ∧
      decodeTypeDesc .little (encodeTypeDesc .little (arrayTower 10)) () =
        (.error .descNesting, ()) := by
  constructor
  · decide +kernel
  · decide +kernel

end Pva
