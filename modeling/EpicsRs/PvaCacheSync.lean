/-
**The two type caches of a connection agree.**

The encoder gives a compound a slot before its members, the decoder binds the slot after them, keeps
the first definition, and may give up on the way.  What holds throughout is one inclusion: **what
the decoder has bound, the encoder has bound to the same descriptor**, in the table that it has
reached at the end of the message.

Main result: `Pva.session_coherent`.
-/

import EpicsRs.PvaDescInline

set_option autoImplicit false

namespace Pva

open ByteReader List FieldDesc TypeCache

/-! ### Compounds of a descriptor -/

namespace FieldDesc

mutual
/-- The compounds in a descriptor, itself included. -/
def compounds : FieldDesc → List FieldDesc
  | struct i ms => struct i ms :: compoundsMembers ms
  | structArray i ms => structArray i ms :: compoundsMembers ms
  | union i ms => union i ms :: compoundsMembers ms
  | unionArray i ms => unionArray i ms :: compoundsMembers ms
  | _ => []

def compoundsMembers : List Member → List FieldDesc
  | [] => []
  | (_, d) :: ms => compounds d ++ compoundsMembers ms
end

lemma compounds_desc (k : Compound) (i : String) (ms : List Member) :
    (k.desc i ms).compounds = k.desc i ms :: compoundsMembers ms := by
  cases k <;> rfl

end FieldDesc

/-! ### The encoder's table -/

namespace EncodeTypeCache

def keys (enc : EncodeTypeCache) : List FieldDesc := enc.map.map Prod.fst

lemma mem_keys {enc : EncodeTypeCache} {d slot} (h : (d, slot) ∈ enc.map)
    : d ∈ enc.keys := mem_map.2 ⟨_, h, rfl⟩

lemma not_mem_keys_of_lookup (enc : EncodeTypeCache) {d} (h : enc.map.lookup d = none)
    : d ∉ enc.keys := by
  intro hmem
  obtain ⟨e, he, rfl⟩ := mem_map.1 hmem
  simpa using lookup_eq_none_iff.1 h e he

def insert (enc : EncodeTypeCache) (d : FieldDesc) : EncodeTypeCache :=
  ⟨enc.next + 1, (d, enc.next) :: enc.map⟩

/-- Slots are handed out in order: the next one is the number of those that are taken, and no slot
and no descriptor occurs twice. -/
structure WF (enc : EncodeTypeCache) : Prop where
  next_eq : enc.next.toNat = enc.map.length
  slot_lt : ∀ e ∈ enc.map, e.2 < enc.next
  slot_inj : ∀ e ∈ enc.map, ∀ e' ∈ enc.map, e.2 = e'.2 → e = e'
  keys_nodup : enc.keys.Nodup

lemma wf_empty : EncodeTypeCache.empty.WF :=
  ⟨rfl, by simp [EncodeTypeCache.empty], by simp [EncodeTypeCache.empty],
    by simp [EncodeTypeCache.empty, keys]⟩

lemma toNat_succ {n : UInt16} (h : n ≠ 65535) : (n + 1).toNat = n.toNat + 1 := by
  have hlt := n.toNat_lt
  have hne : n.toNat ≠ 65535 := fun hc => h (UInt16.toNat_inj.1 (by simpa using hc))
  rw [UInt16.toNat_add]
  simp only [UInt16.toNat_one]
  omega

lemma WF.insert {enc : EncodeTypeCache} (h : enc.WF) {d : FieldDesc} (hd : d ∉ enc.keys)
    (hnext : enc.next ≠ 65535) : (enc.insert d).WF := by
  have hsucc := toNat_succ hnext
  refine ⟨?_, ?_, ?_, ?_⟩
  · simp [EncodeTypeCache.insert, hsucc, h.next_eq]
  · intro e he
    rw [UInt16.lt_iff_toNat_lt]
    simp only [EncodeTypeCache.insert, hsucc]
    rcases mem_cons.1 he with rfl | he
    · exact Nat.lt_succ_self _
    · exact Nat.lt_succ_of_lt (UInt16.lt_iff_toNat_lt.1 (h.slot_lt e he))
  · -- the new slot is above all the others
    intro e he e' he' heq
    rcases mem_cons.1 he with rfl | he <;> rcases mem_cons.1 he' with rfl | he'
    · rfl
    · exact absurd heq.symm (UInt16.ne_of_lt (h.slot_lt e' he'))
    · exact absurd heq (UInt16.ne_of_lt (h.slot_lt e he))
    · exact h.slot_inj e he e' he' heq
  · exact nodup_cons.2 ⟨hd, h.keys_nodup⟩

end EncodeTypeCache

/-! ### What the encoder does -/

section

variable {order : ByteOrder} {enc : EncodeTypeCache} {ms : List Member}
variable {enc' : EncodeTypeCache}

lemma encode_compound_cases {k : Compound} {i out}
    (h : encodeTypeDescCached order (k.desc i ms) enc = some (out, enc')) :
    (∃ slot, (k.desc i ms, slot) ∈ enc.map ∧ out = [0xFE] ++ putU16 slot order ∧ enc' = enc) ∨
    (k.desc i ms ∉ enc.keys ∧ enc.next ≠ 65535 ∧
      ∃ cs, encodeFieldDescsCached order ms (enc.insert (k.desc i ms)) = some (cs, enc') ∧
        out = [0xFD] ++ (putU16 enc.next order ++
          (k.tags ++ (bodyHead order i ms.length ++ cs)))) := by
  rw [encodeTypeDescCached, withSlot, if_pos (cacheable_desc k i ms)] at h
  cases hl : enc.map.lookup (k.desc i ms) with
  | some slot =>
    rw [hl] at h
    obtain ⟨l₁, l₂, hmap, -⟩ := lookup_eq_some_iff.1 hl
    simp only [Option.some.injEq, Prod.mk.injEq] at h
    exact .inl ⟨slot, by simp [hmap], h.1.symm, h.2.symm⟩
  | none =>
    rw [hl] at h
    have hnew := enc.not_mem_keys_of_lookup hl
    by_cases hnext : enc.next = 65535
    · -- the counter is at its end, and the encoder gives up
      simp [checkedSucc, hnext] at h
    · refine .inr ⟨hnew, hnext, ?_⟩
      simp only [checkedSucc, hnext, if_false, Option.bind_eq_bind, Option.bind_some,
        encodeTypeDescInlineCached_desc] at h
      cases hcs : encodeFieldDescsCached order ms (enc.insert (k.desc i ms)) with
      | none =>
        rw [EncodeTypeCache.insert] at hcs
        simp [hcs] at h
      | some res =>
        obtain ⟨cs, enc₁⟩ := res
        have hcs' := hcs
        rw [EncodeTypeCache.insert] at hcs'
        rw [hcs'] at h
        simp only [Option.map_some, Option.bind_some, Option.pure_def, Option.some.injEq,
          Prod.mk.injEq] at h
        obtain ⟨rfl, rfl⟩ := h
        exact ⟨cs, rfl, by simp⟩

lemma encode_leaf {d} (hd : d.cacheable = false) (enc : EncodeTypeCache) :
    encodeTypeDescCached order d enc = some (encodeTypeDesc order d, enc) := by
  rw [encodeTypeDescCached, withSlot, hd]
  exact encodeTypeDescInlineCached_leaf order hd enc

lemma encode_members_cons {name d cs}
    (h : encodeFieldDescsCached order ((name, d) :: ms) enc = some (cs, enc')) :
    ∃ out enc₁ outs, encodeTypeDescCached order d enc = some (out, enc₁) ∧
      encodeFieldDescsCached order ms enc₁ = some (outs, enc') ∧
      cs = encodeString name order ++ out ++ outs := by
  rw [encodeFieldDescsCached] at h
  cases hd : withSlot order d (encodeTypeDescInlineCached order d) enc with
  | none => simp [hd] at h
  | some res =>
    obtain ⟨out, enc₁⟩ := res
    cases hms : encodeFieldDescsCached order ms enc₁ with
    | none => simp [hd, hms] at h
    | some res =>
      obtain ⟨outs, enc₂⟩ := res
      simp only [hd, hms, Option.bind_eq_bind, Option.bind_some, Option.pure_def,
        Option.some.injEq, Prod.mk.injEq] at h
      obtain ⟨rfl, rfl⟩ := h
      exact ⟨out, enc₁, outs, hd, hms, rfl⟩

/-- What a message does to the encoder's table: nothing is taken out, and what is put in are
compounds of what was sent. -/
structure Grows (enc enc' : EncodeTypeCache) (sent : List FieldDesc) : Prop where
  wf : enc'.WF
  sub : ∀ e ∈ enc.map, e ∈ enc'.map
  new : ∀ e ∈ enc'.map, e ∈ enc.map ∨ e.1 ∈ sent

lemma grows_members
    (ih : ∀ m ∈ ms, ∀ enc out enc', encodeTypeDescCached order m.2 enc = some (out, enc') →
      enc.WF → Grows enc enc' m.2.compounds) :
    ∀ enc cs enc', encodeFieldDescsCached order ms enc = some (cs, enc') → enc.WF →
      Grows enc enc' (compoundsMembers ms) := by
  induction ms with
  | nil =>
    intro enc cs enc' h hwf
    obtain ⟨-, rfl⟩ := h
    exact ⟨hwf, fun _ he => he, fun _ he => .inl he⟩
  | cons m ms ihms =>
    obtain ⟨hd, hms⟩ := forall_mem_cons.1 ih
    intro enc cs enc' h hwf
    obtain ⟨out, enc₁, outs, h₁, h₂, -⟩ := encode_members_cons h
    have g₁ := hd _ _ _ h₁ hwf
    have g₂ := ihms hms _ _ _ h₂ g₁.wf
    refine ⟨g₂.wf, fun e he => g₂.sub e (g₁.sub e he), fun e he => ?_⟩
    rcases g₂.new e he with he | he
    · rcases g₁.new e he with he | he
      · exact .inl he
      · exact .inr (mem_append_left _ he)
    · exact .inr (mem_append_right _ he)

lemma grows_encodeTypeDescCached (d : FieldDesc) :
    ∀ enc out enc', encodeTypeDescCached order d enc = some (out, enc') → enc.WF →
      Grows enc enc' d.compounds := by
  induction d using compound_induction with
  | leaf d hd =>
    intro enc out enc' h hwf
    rw [encode_leaf hd, Option.some.injEq, Prod.mk.injEq] at h
    obtain ⟨-, rfl⟩ := h
    exact ⟨hwf, fun _ he => he, fun _ he => .inl he⟩
  | compound k i ms ih =>
    intro enc out enc' h hwf
    rcases encode_compound_cases h with ⟨slot, -, -, rfl⟩ | ⟨hnew, hnext, cs, hcs, -⟩
    · exact ⟨hwf, fun _ he => he, fun _ he => .inl he⟩
    · have g := grows_members ih _ _ _ hcs (hwf.insert hnew hnext)
      refine ⟨g.wf, fun e he => g.sub e (mem_cons_of_mem _ he), fun e he => ?_⟩
      rw [compounds_desc]
      rcases g.new e he with he | he
      · rcases mem_cons.1 he with rfl | he
        · exact .inr (mem_cons_self ..)
        · exact .inl he
      · exact .inr (mem_cons_of_mem _ he)

/-! ### The slots suffice -/

variable {U : Finset FieldDesc}

lemma Grows.keys_mem {sent} (h : Grows enc enc' sent) (henc : ∀ d ∈ enc.keys, d ∈ U)
    (hsent : ∀ d ∈ sent, d ∈ U) : ∀ d ∈ enc'.keys, d ∈ U := by
  intro d hd
  obtain ⟨e, he, rfl⟩ := mem_map.1 hd
  rcases h.new e he with he | he
  · exact henc _ (mem_map_of_mem he)
  · exact hsent _ he

lemma next_ne_of_card (hwf : enc.WF) (hcard : U.card < 65536) (henc : ∀ d ∈ enc.keys, d ∈ U) {d}
    (hd : d ∈ U) (hnew : d ∉ enc.keys) :
    enc.next ≠ 65535 := by
  intro hnext
  have hsub : (d :: enc.keys).toFinset ⊆ U := by
    intro x hx
    rcases mem_cons.1 (mem_toFinset.1 hx) with rfl | hx
    · exact hd
    · exact henc x hx
  have hle := Finset.card_le_card hsub
  rw [toFinset_card_of_nodup (nodup_cons.2 ⟨hnew, hwf.keys_nodup⟩)] at hle
  have hlen := hwf.next_eq
  rw [hnext] at hlen
  simp only [length_cons, EncodeTypeCache.keys, length_map] at hle
  have : (65535 : UInt16).toNat = 65535 := rfl
  omega

/-- **The encoder does not panic** while the distinct compounds that are sent number fewer than
65536. -/
theorem exists_encodeTypeDescCached (hcard : U.card < 65536) (d : FieldDesc) :
    ∀ enc : EncodeTypeCache, enc.WF → (∀ c ∈ enc.keys, c ∈ U) →
      (∀ c ∈ d.compounds, c ∈ U) → ∃ out, encodeTypeDescCached order d enc = some out := by
  induction d using compound_members_induction
    (Q := fun ms => ∀ enc : EncodeTypeCache, enc.WF → (∀ c ∈ enc.keys, c ∈ U) →
      (∀ c ∈ compoundsMembers ms, c ∈ U) →
      ∃ out, encodeFieldDescsCached order ms enc = some out) with
  | leaf d hd => exact fun enc _ _ _ => ⟨_, encode_leaf hd enc⟩
  | nil => exact ⟨_, rfl⟩
  | cons name d ms hd hms enc hwf henc hU =>
    have hUd := fun c hc => hU c (mem_append_left _ hc)
    obtain ⟨⟨out, enc₁⟩, h₁⟩ := hd enc hwf henc hUd
    have g := grows_encodeTypeDescCached d _ _ _ h₁ hwf
    obtain ⟨outs, h₂⟩ := hms enc₁ g.wf (g.keys_mem henc hUd)
      fun c hc => hU c (mem_append_right _ hc)
    have h₁' : withSlot order d (encodeTypeDescInlineCached order d) enc = some (out, enc₁) := h₁
    rw [encodeFieldDescsCached, h₁']
    simp only [Option.bind_eq_bind, Option.bind_some, h₂]
    exact ⟨_, rfl⟩
  | compound k i ms ih =>
    intro enc hwf henc hU
    rw [compounds_desc] at hU
    obtain ⟨hself, hms⟩ := forall_mem_cons.1 hU
    rw [encodeTypeDescCached, withSlot, if_pos (cacheable_desc k i ms)]
    cases hl : enc.map.lookup (k.desc i ms) with
    | some slot => exact ⟨_, rfl⟩
    | none =>
      have hnew := enc.not_mem_keys_of_lookup hl
      have hnext := next_ne_of_card hwf hcard henc hself hnew
      obtain ⟨out, hout⟩ := ih (enc.insert (k.desc i ms)) (hwf.insert hnew hnext)
        (forall_mem_cons.2 ⟨hself, henc⟩) hms
      rw [EncodeTypeCache.insert] at hout
      simp only [checkedSucc, hnext, if_false, Option.bind_eq_bind, Option.bind_some,
        encodeTypeDescInlineCached_desc, hout]
      exact ⟨_, rfl⟩

end

/-! ### What the decoder makes of it -/

/-- What the decoder has bound, the table binds to the same descriptor. -/
def Agrees (map : List (FieldDesc × UInt16)) (cache : TypeCache) : Prop :=
  ∀ slot c, cache slot = some c → (c.desc, slot) ∈ map

lemma agrees_empty (map : List (FieldDesc × UInt16)) : Agrees map empty := by
  intro slot c h
  simp at h

lemma Agrees.mono {map map'} {cache : TypeCache} (h : Agrees map cache) (hsub : ∀ e ∈ map, e ∈ map')
    : Agrees map' cache :=
  fun slot c hc => hsub _ (h slot c hc)

section

variable {order : ByteOrder} {map : List (FieldDesc × UInt16)}
  {type : Decoder TypeCache (FieldDesc × TreeMetrics)}

lemma delivers_checkFieldMetrics {I : TypeCache → Prop} (m : TreeMetrics) :
    Delivers I (checkFieldMetrics m) [] fun _ => True := by
  unfold checkFieldMetrics
  split_ifs
  · exact Delivers.fail _ _
  · exact Delivers.fail _ _
  · exact Delivers.pure trivial

/-- The loop over the members of a message, by induction on them: the table has reached `enc` at
the first and `enc'` at the end. -/
lemma delivers_decodeMembers {ms} (hfit : ∀ m ∈ ms, labelFits m.1 = true)
    (ih : ∀ m ∈ ms, ∀ enc out enc', encodeTypeDescCached order m.2 enc = some (out, enc') →
      enc.WF → (∀ e ∈ enc'.map, e ∈ map) → Delivers (Agrees map) type out fun dm => dm.1 = m.2) :
    ∀ enc cs enc', encodeFieldDescsCached order ms enc = some (cs, enc') → enc.WF →
      (∀ e ∈ enc'.map, e ∈ map) → ∀ m, Delivers (Agrees map)
    (decodeMembers (decodeFieldDescWith order type) ms.length m) cs fun fs => fs.1 = ms := by
  induction ms with
  | nil =>
    intro enc cs enc' h _ _ m
    obtain ⟨rfl, -⟩ := h
    exact Delivers.pure rfl
  | cons mem ms ihms =>
    obtain ⟨name, d⟩ := mem
    obtain ⟨hname, hfits⟩ := forall_mem_cons.1 hfit
    obtain ⟨hd, hms⟩ := forall_mem_cons.1 ih
    intro enc cs enc' h hwf hsub m
    obtain ⟨out, enc₁, outs, h₁, h₂, rfl⟩ := encode_members_cons h
    have g₁ := grows_encodeTypeDescCached d _ _ _ h₁ hwf
    have g₂ := grows_members (fun m _ => grows_encodeTypeDescCached m.2) _ _ _ h₂ g₁.wf
    -- the table only grows, so the slots of this member are among the final ones
    have hhead := hd _ _ _ h₁ hwf fun e he => hsub e (g₂.sub e he)
    have hfield : Delivers (Agrees map) (decodeFieldDescWith order type)
        (encodeString name order ++ out) fun f => f.1 = (name, d) := by
      refine (Delivers.of_reads (Q := fun n => n = name) (fun s => reads_decodeLabel
        (by simpa [labelFits] using hname) order s) rfl).bind ?_
      rintro _ rfl
      exact hhead.map _ fun dm hdm => by rw [hdm]
    refine hfield.bind fun f hf => ?_
    refine (delivers_checkFieldMetrics _).bind_nil fun _ _ => ?_
    exact (ihms hfits hms _ _ _ h₂ g₁.wf hsub _).map _ fun fs hfs => by simp [hf, hfs]

lemma delivers_tags {I : TypeCache → Prop} {policy c i ms}
    (hbody : ∀ (k : Compound) below, Delivers I
      (decodeBodyWith k k.countName order (decodeTypeDescCachedAtDepth order policy below)) c
      fun dm => dm.1 = k.desc i ms) (k : Compound) :
    ∀ room, Delivers I (decodeTypeDescCachedAtDepth order policy room) (k.tags ++ c)
      fun dm => dm.1 = k.desc i ms := by
  have helem : ∀ k : Compound, k.isArray = false → ∀ room, Delivers I
      (decodeTypeDescCachedAtDepth order policy room) (k.tags ++ c)
      fun dm => dm.1 = k.desc i ms := by
    intro k hk room
    cases room with
    | zero => exact Delivers.fail _ _
    | succ room =>
      refine Delivers.congr (fun r s => ?_) (hbody k room)
      rw [append_assoc, decode_tags_element hk]
  intro room
  cases hk : k.isArray with
  | false => exact helem k hk room
  | true =>
    cases room with
    | zero => exact Delivers.fail _ _
    | succ room =>
      -- the tag of the array, and the element one level below it
      have hlift : Delivers I (decodeTypeDescCachedAtDepth order policy room >>= k.lift)
          (k.element.tags ++ c ++ []) fun dm => dm.1 = k.desc i ms := by
        refine (helem k.element k.isArray_element room).bind ?_
        rintro ⟨_, m⟩ rfl
        rw [lift_element hk]
        exact Delivers.pure rfl
      refine Delivers.congr (fun r s => ?_) hlift
      rw [append_nil, append_assoc, append_assoc, decode_tags_array hk]

variable (policy : BoundedStringPolicy)

lemma delivers_reference (hinj : ∀ e ∈ map, ∀ e' ∈ map, e.2 = e'.2 → e = e') {d slot} (hslot : (d, slot) ∈ map) (room : ℕ) :
    Delivers (Agrees map) (decodeTypeDescCachedAtDepth order policy room)
    ([0xFE] ++ putU16 slot order) fun dm => dm.1 = d := by
  cases room with
  | zero => exact Delivers.fail _ _
  | succ room =>
    refine (Delivers.of_reads (Q := fun b => b = 0xFE) (fun s => reads_getU8 0xFE s) rfl).bind ?_
    rintro _ rfl
    intro r s hs
    have hread : decodeTag order policy (decodeTypeDescCachedAtDepth order policy room) 0xFE
        (putU16 slot order ++ r) s =
        (orFault (.cacheMiss slot) (s slot) >>= fun c =>
          pure (c.desc, (⟨c.height, c.nodes⟩ : TreeMetrics))) r s :=
      bind_of_ok (reads_getU16 slot order s r)
    rw [hread]
    cases hc : s slot with
    | none => exact ⟨hs, fun _ _ he => by simp [orFault, bind_apply] at he⟩
    | some c =>
      refine ⟨hs, fun dm r' he => ?_⟩
      obtain ⟨rfl, rfl⟩ : (c.desc, (⟨c.height, c.nodes⟩ : TreeMetrics)) = dm ∧ r = r' := by
        simpa [orFault, pure_apply] using he
      exact ⟨congrArg Prod.fst (hinj _ (hs slot c hc) _ hslot rfl), rfl⟩

lemma delivers_definition {d slot c} (hslot : (d, slot) ∈ map)
    (hinline : ∀ room, Delivers (Agrees map) (decodeTypeDescCachedAtDepth order policy room) c fun dm => dm.1 = d)
    (room : ℕ) : Delivers (Agrees map) (decodeTypeDescCachedAtDepth order policy room)
    ([0xFD] ++ (putU16 slot order ++ c)) fun dm => dm.1 = d := by
  cases room with
  | zero => exact Delivers.fail _ _
  | succ room =>
    refine (Delivers.of_reads (Q := fun b => b = 0xFD) (fun s => reads_getU8 0xFD s) rfl).bind ?_
    rintro _ rfl
    refine (Delivers.of_reads (Q := fun n => n = slot)
      (fun s => reads_getU16 slot order s) rfl).bind ?_
    rintro _ rfl
    rw [← append_nil c]
    refine (hinline room).bind fun dm hdm => ?_
    refine (Delivers.modify fun s hs => ?_).bind_nil fun _ _ => Delivers.pure hdm
    intro key c hc
    rcases orInsert_cases hc with hc | ⟨rfl, rfl⟩
    · exact hs key c hc
    · exact hdm ▸ hslot

/-- **What is decoded from a message is what was sent**, at any depth, when the table that the
decoder's is compared with contains what the encoder's has become. -/
theorem delivers_encodeTypeDescCached (hinj : ∀ e ∈ map, ∀ e' ∈ map, e.2 = e'.2 → e = e')
    (d : FieldDesc) : d.labelsFit = true → ∀ enc out enc',
      encodeTypeDescCached order d enc = some (out, enc') → enc.WF →
      (∀ e ∈ enc'.map, e ∈ map) → ∀ room, Delivers (Agrees map)
        (decodeTypeDescCachedAtDepth order policy room) out fun dm => dm.1 = d := by
  induction d using compound_induction with
  | leaf d hd =>
    intro _ enc out enc' h _ _ room
    rw [encode_leaf hd, Option.some.injEq, Prod.mk.injEq] at h
    obtain ⟨rfl, -⟩ := h
    cases room with
    | zero => exact Delivers.fail _ _
    | succ room => exact Delivers.of_reads (fun s => reads_leaf hd room s) rfl
  | compound k i ms ih =>
    intro hfit enc out enc' h hwf hsub room
    obtain ⟨hi, hlen, hms⟩ := (labelsFit_desc k i ms).1 hfit
    have hmem := labelsFitMembers_iff.1 hms
    rcases encode_compound_cases h with ⟨slot, hslot, rfl, rfl⟩ | ⟨hnew, hnext, cs, hcs, rfl⟩
    · exact delivers_reference policy hinj (hsub _ hslot) room
    · have hwf' := hwf.insert hnew hnext
      have g := grows_members (fun m _ => grows_encodeTypeDescCached m.2) _ _ _ hcs hwf'
      have hself : (k.desc i ms, enc.next) ∈ map := hsub _ (g.sub _ (mem_cons_self ..))
      refine delivers_definition policy hself (delivers_tags (fun k' below => ?_) k) room
      -- the body: the id, the count, and the members one level down
      have hcount : (UInt32.ofNat ms.length).toNat = ms.length := UInt32.toNat_ofNat_of_lt' hlen
      rw [bodyHead, append_assoc]
      refine (Delivers.of_reads (Q := fun n => n = i) (fun s => reads_decodeLabel
        (by simpa [labelFits] using hi) order s) rfl).bind ?_
      rintro _ rfl
      refine (Delivers.of_reads (Q := fun n => n = UInt32.ofNat ms.length)
        (fun s => reads_decodeSizeNonnull _ order _ s) rfl).bind ?_
      rintro _ rfl
      rw [hcount]
      refine (delivers_decodeMembers (fun m hm => (hmem m hm).1) (fun m hm enc out enc' he hw hs
        => ih m hm (hmem m hm).2 enc out enc' he hw hs below) _ _ _ hcs hwf' hsub _).map _
        fun fs hfs => ?_
      rw [hfs]

end

/-! ### Whole sessions -/

/-- A message: a descriptor, the byte order of its frame, and what follows it in the frame. -/
structure Message where
  order : ByteOrder
  desc : FieldDesc
  suffix : List UInt8

structure Caches where
  enc : EncodeTypeCache
  dec : TypeCache

def Caches.fresh : Caches := ⟨EncodeTypeCache.empty, TypeCache.empty⟩

/-- A message is encoded on one side and decoded on the other; `none` is a panic of the encoder. -/
def exchange (msg : Message) (caches : Caches) :
    Option (Except DecodeError (FieldDesc × List UInt8) × Caches) := do
  let out ← encodeTypeDescCached msg.order msg.desc caches.enc
  let res := decodeTypeDescCached msg.order (out.1 ++ msg.suffix) caches.dec
  pure (res.1, ⟨out.2, res.2⟩)

/-- A sequence of messages; every outcome is recorded, and a failed message does not end it. -/
def session : List Message → Caches →
    Option (List (Except DecodeError (FieldDesc × List UInt8)) × Caches)
  | [], caches => some ([], caches)
  | msg :: msgs, caches => do
      let first ← exchange msg caches
      let rest ← session msgs first.2
      pure (first.1 :: rest.1, rest.2)

def sentCompounds (msgs : List Message) : Finset FieldDesc :=
  (msgs.flatMap fun msg => msg.desc.compounds).toFinset

/-- The caches agree: the encoder's table is in order, and what the decoder has bound is in it. -/
structure Caches.Coherent (caches : Caches) (U : Finset FieldDesc) : Prop where
  wf : caches.enc.WF
  agrees : Agrees caches.enc.map caches.dec
  keys : ∀ d ∈ caches.enc.keys, d ∈ U

lemma Caches.coherent_fresh (U : Finset FieldDesc) : Caches.fresh.Coherent U where
  wf := EncodeTypeCache.wf_empty
  agrees := agrees_empty _
  keys := by simp [Caches.fresh, EncodeTypeCache.empty, EncodeTypeCache.keys]

/-- One message, from caches that agree: the encoder does not panic, the caches agree afterwards,
and what arrives, if anything does, is what was sent. -/
lemma exchange_coherent {caches U} (hcard : U.card < 65536) (h : caches.Coherent U) (msg : Message)
    (hU : ∀ d ∈ msg.desc.compounds, d ∈ U) (hfit : msg.desc.labelsFit = true) :
    ∃ outcome caches', exchange msg caches = some (outcome, caches') ∧ caches'.Coherent U ∧
      ∀ d r, outcome = .ok (d, r) → d = msg.desc ∧ r = msg.suffix := by
  obtain ⟨⟨out, enc'⟩, hout⟩ :
      ∃ out, encodeTypeDescCached msg.order msg.desc caches.enc = some out :=
    exists_encodeTypeDescCached hcard msg.desc caches.enc h.wf h.keys hU
  have g := grows_encodeTypeDescCached msg.desc _ _ _ hout h.wf
  have hdel : Delivers (Agrees enc'.map) (decodeTypeDescCached msg.order) out
      fun d => d = msg.desc :=
    (delivers_encodeTypeDescCached .interop g.wf.slot_inj msg.desc hfit _ _ _ hout h.wf
      (fun _ he => he) (maxFieldDepth + 1)).map _ fun _ hdm => hdm
  have hrun := hdel msg.suffix caches.dec (h.agrees.mono g.sub)
  refine ⟨(decodeTypeDescCached msg.order (out ++ msg.suffix) caches.dec).1,
    ⟨enc', (decodeTypeDescCached msg.order (out ++ msg.suffix) caches.dec).2⟩, ?_, ?_, hrun.2⟩
  · rw [exchange, hout]
    rfl
  · exact ⟨g.wf, hrun.1, g.keys_mem h.keys hU⟩

lemma session_invariant {U} (hcard : U.card < 65536) (msgs : List Message) :
    (∀ msg ∈ msgs, (∀ d ∈ msg.desc.compounds, d ∈ U) ∧ msg.desc.labelsFit = true) →
    ∀ caches : Caches, caches.Coherent U →
      ∃ outcomes caches', session msgs caches = some (outcomes, caches') ∧ caches'.Coherent U := by
  induction msgs with
  | nil => exact fun _ caches h => ⟨[], caches, rfl, h⟩
  | cons msg msgs ih =>
    intro hmsgs caches h
    obtain ⟨⟨hU, hfit⟩, hrest⟩ := forall_mem_cons.1 hmsgs
    obtain ⟨outcome, caches₁, h₁, hcoh, -⟩ := exchange_coherent hcard h msg hU hfit
    obtain ⟨outcomes, caches₂, h₂, hcoh₂⟩ := ih hrest caches₁ hcoh
    refine ⟨outcome :: outcomes, caches₂, ?_, hcoh₂⟩
    rw [session, h₁]
    simp [h₂]

/-- **Type-cache coherence.**  After any messages, with whatever failed among them, the next message
is encoded without a panic; if it is decoded, it is decoded to the descriptor that was sent and to
the end of its bytes; and after it, what the decoder has bound to a slot is what the encoder has
bound to it.  The compounds that are sent number fewer than 65536, and no label or member count is
cut to 32 bits. -/
theorem session_coherent (msgs : List Message) (msg : Message)
    (hcard : (sentCompounds (msgs ++ [msg])).card < 65536)
    (hfit : ∀ m ∈ msgs ++ [msg], m.desc.labelsFit = true) :
    ∃ outcomes caches outcome caches',
      session msgs Caches.fresh = some (outcomes, caches) ∧
      exchange msg caches = some (outcome, caches') ∧
      (∀ d r, outcome = .ok (d, r) → d = msg.desc ∧ r = msg.suffix) ∧
      (∀ slot c, caches'.dec slot = some c → (c.desc, slot) ∈ caches'.enc.map) ∧
      ∀ slot d c, (d, slot) ∈ caches'.enc.map → caches'.dec slot = some c → c.desc = d := by
  have hU : ∀ m ∈ msgs ++ [msg], ∀ d ∈ m.desc.compounds, d ∈ sentCompounds (msgs ++ [msg]) := by
    intro m hm d hd
    exact mem_toFinset.2 (mem_flatMap.2 ⟨m, hm, hd⟩)
  obtain ⟨outcomes, caches, hs, hcoh⟩ := session_invariant hcard msgs
    (fun m hm => ⟨hU m (mem_append_left _ hm), hfit m (mem_append_left _ hm)⟩)
    Caches.fresh (Caches.coherent_fresh _)
  have hlast : msg ∈ msgs ++ [msg] := by simp
  obtain ⟨outcome, caches', hx, hcoh', hsent⟩ :=
    exchange_coherent hcard hcoh msg (hU msg hlast) (hfit msg hlast)
  refine ⟨outcomes, caches, outcome, caches', hs, hx, hsent, hcoh'.agrees, ?_⟩
  intro slot d c hd hc
  exact congrArg Prod.fst (hcoh'.wf.slot_inj _ (hcoh'.agrees slot c hc) _ hd rfl)

/-- A structure and an array of it, sent twice: the second time both are references. -/
theorem session_coherent_twins :
    ∃ outcomes caches outcome caches',
      session [⟨.big, .struct "a" [("b", .structArray "c" [])], [1, 2]⟩] Caches.fresh =
        some (outcomes, caches) ∧
      exchange ⟨.little, .struct "a" [("b", .structArray "c" [])], [3]⟩ caches =
        some (outcome, caches') ∧
      (∀ d r, outcome = .ok (d, r) →
        d = .struct "a" [("b", .structArray "c" [])] ∧ r = [3]) ∧
      (∀ slot c, caches'.dec slot = some c → (c.desc, slot) ∈ caches'.enc.map) ∧
      ∀ slot d c, (d, slot) ∈ caches'.enc.map → caches'.dec slot = some c → c.desc = d :=
  session_coherent [⟨.big, .struct "a" [("b", .structArray "c" [])], [1, 2]⟩]
    ⟨.little, .struct "a" [("b", .structArray "c" [])], [3]⟩ (by decide) (by decide)

/-! ### A label that is too long -/

/-- A name of `n` quotation marks; the byte of a quotation mark is the tag of an `int`. -/
def quotes (n : ℕ) : String := String.ofList (List.replicate n '"')

lemma asBytes_quotes (n : ℕ) : asBytes (quotes n) = replicate n 0x22 := by
  have hchar : String.utf8EncodeChar '"' = [0x22] := rfl
  rw [asBytes, quotes, String.toList_ofList]
  induction n with
  | zero => rfl
  | succ n ih => rw [replicate_succ, flatMap_cons, ih, hchar, replicate_succ]; rfl

def quotedStruct (n : ℕ) : FieldDesc := .struct "" [(quotes n, .scalar .int)]

/-- When the length of the name is cut to nothing, the name is read as empty, its first byte as
the type of the member, and the rest of it is left over. -/
lemma exchange_quotedStruct (k : ℕ) (h : UInt32.ofNat (k + 1) = 0) :
    exchange ⟨.little, quotedStruct (k + 1), []⟩ Caches.fresh =
      some (.ok (.struct "" [("", .scalar .int)], replicate k 0x22 ++ [0x22]),
        ⟨⟨1, [(quotedStruct (k + 1), 0)]⟩,
          empty.orInsert 0 ⟨.struct "" [("", .scalar .int)], 1, 2⟩⟩) := by
  have hname : encodeString (quotes (k + 1)) .little = 0 :: 0x22 :: replicate k 0x22 := by
    rw [encodeString, encodeStringBytes, asBytes_quotes, length_replicate, h,
      replicate_succ]
    rfl
  have henc : encodeTypeDescCached .little (quotedStruct (k + 1)) EncodeTypeCache.empty =
      some ([0xFD, 0, 0, 0x80, 0, 1] ++ (encodeString (quotes (k + 1)) .little ++ [0x22] ++ []),
        ⟨1, [(quotedStruct (k + 1), 0)]⟩) := rfl
  rw [exchange, Caches.fresh, henc, hname]
  generalize replicate k (0x22 : UInt8) = tail
  simp only [Option.bind_eq_bind, Option.bind_some, Option.pure_def, append_nil,
    cons_append, nil_append]
  rfl

/-- **A label of `2 ^ 32` bytes is not coherent**: the decode succeeds, and what arrives is another
descriptor. -/
theorem quotedStruct_misread :
    (sentCompounds [⟨.little, quotedStruct (2 ^ 32), []⟩]).card < 65536 ∧
      ∃ d r caches, exchange ⟨.little, quotedStruct (2 ^ 32), []⟩ Caches.fresh =
        some (.ok (d, r), caches) ∧ d ≠ quotedStruct (2 ^ 32) := by
  obtain ⟨k, hk⟩ : ∃ k, 2 ^ 32 = k + 1 := ⟨2 ^ 32 - 1, by norm_num⟩
  rw [hk]
  have hzero : UInt32.ofNat (k + 1) = 0 := by
    rw [← hk]
    rfl
  refine ⟨?_, _, _, _, exchange_quotedStruct k hzero, ?_⟩
  · refine lt_of_le_of_lt (toFinset_card_le _) ?_
    simp [quotedStruct, compounds, compoundsMembers]
  · intro heq
    simp only [quotedStruct, struct.injEq, cons.injEq, Prod.mk.injEq] at heq
    have hlen := congrArg (fun s => (asBytes s).length) heq.2.1.1
    simp only [asBytes_quotes, length_replicate] at hlen
    exact absurd hlen (by simp [asBytes])

end Pva
