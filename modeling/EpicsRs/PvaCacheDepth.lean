/-
**Markers cost levels.**

A definition `0xFD` is one more level of the decoder's recursion, and the encoder with markers puts
one in front of every compound that it sends first.  A descriptor that survives the inline round
trip survives the one with markers exactly when its markers nest within `MAX_FIELD_DEPTH`.  A
definition that is still open is not referred to: the compounds around a descriptor have more nodes
than it has.

Main result: `Pva.cached_round_trip_iff`.
-/

import EpicsRs.PvaCacheSync

set_option autoImplicit false

namespace Pva

open ByteReader List FieldDesc TypeCache TreeMetrics

/-! ### Counting levels -/

/-- A compound that was sent before is a reference, at its own level; a new one has a definition
in front, and what `inline` counts stands one level down. -/
def sighted (d : FieldDesc) (inline : List FieldDesc → ℕ × List FieldDesc)
    (seen : List FieldDesc) : ℕ × List FieldDesc :=
  if d.cacheable then
    if d ∈ seen then (0, seen)
    else ((inline (d :: seen)).1 + 1, (inline (d :: seen)).2)
  else inline seen

mutual
/-- The levels below the tag of a descriptor that is sent inline, and what has been sent then. -/
def inlineDepth : FieldDesc → List FieldDesc → ℕ × List FieldDesc
  | .struct _ ms, seen | .union _ ms, seen => membersDepth ms seen
  | .structArray _ ms, seen | .unionArray _ ms, seen =>
      ((membersDepth ms seen).1 + 1, (membersDepth ms seen).2)
  | _, seen => (0, seen)

/-- The levels that the members of a body cost. -/
def membersDepth : List Member → List FieldDesc → ℕ × List FieldDesc
  | [], seen => (0, seen)
  | (_, d) :: ms, seen =>
      (max ((sighted d (inlineDepth d) seen).1 + 1)
        (membersDepth ms (sighted d (inlineDepth d) seen).2).1,
        (membersDepth ms (sighted d (inlineDepth d) seen).2).2)
end

/-- The levels of recursion below its own that a descriptor with markers costs, when the compounds
`seen` have been sent before; and what has been sent afterwards. -/
def sightDepth (d : FieldDesc) (seen : List FieldDesc) : ℕ × List FieldDesc :=
  sighted d (inlineDepth d) seen

lemma Compound.levels_pos (k : Compound) : 1 ≤ k.levels := by
  cases k <;> decide

lemma inlineDepth_desc (k : Compound) (i : String) (ms : List Member) (seen : List FieldDesc) :
    inlineDepth (k.desc i ms) seen =
      ((membersDepth ms seen).1 + k.levels - 1, (membersDepth ms seen).2) := by
  cases k <;> rfl

lemma sightDepth_leaf {d} (hd : d.cacheable = false) (seen : List FieldDesc) :
    sightDepth d seen = (0, seen) := by
  cases d <;> first | rfl | simp [cacheable] at hd

lemma sightDepth_seen {d} (hd : d.cacheable = true) {seen} (h : d ∈ seen)
    : sightDepth d seen = (0, seen) := by
  rw [sightDepth, sighted, if_pos hd, if_pos h]

lemma sightDepth_new {k : Compound} {i ms seen} (h : k.desc i ms ∉ seen) :
    sightDepth (k.desc i ms) seen =
      ((membersDepth ms (k.desc i ms :: seen)).1 + k.levels,
        (membersDepth ms (k.desc i ms :: seen)).2) := by
  rw [sightDepth, sighted, if_pos (cacheable_desc k i ms), if_neg h, inlineDepth_desc,
    Nat.sub_add_cancel]
  exact Nat.le_add_left_of_le k.levels_pos

lemma membersDepth_cons (name : String) (d : FieldDesc) (ms : List Member)
    (seen : List FieldDesc) :
    membersDepth ((name, d) :: ms) seen =
      (max ((sightDepth d seen).1 + 1) (membersDepth ms (sightDepth d seen).2).1,
        (membersDepth ms (sightDepth d seen).2).2) := rfl

lemma sightDepth_keys {order} (d : FieldDesc) :
    ∀ enc out enc', encodeTypeDescCached order d enc = some (out, enc') →
      (sightDepth d enc.keys).2 = enc'.keys := by
  induction d using compound_members_induction
    (Q := fun ms => ∀ enc cs enc', encodeFieldDescsCached order ms enc = some (cs, enc') →
      (membersDepth ms enc.keys).2 = enc'.keys) with
  | leaf d hd =>
    intro enc out enc' h
    rw [encode_leaf hd, Option.some.injEq, Prod.mk.injEq] at h
    rw [sightDepth_leaf hd, h.2]
  | nil enc cs enc' h =>
    simp only [encodeFieldDescsCached, Option.some.injEq, Prod.mk.injEq] at h
    rw [membersDepth, h.2]
  | cons name d ms hd hms enc cs enc' h =>
    obtain ⟨out, enc₁, outs, h₁, h₂, -⟩ := encode_members_cons h
    rw [membersDepth_cons, hd _ _ _ h₁]
    exact hms _ _ _ h₂
  | compound k i ms ih =>
    intro enc out enc' h
    rcases encode_compound_cases h with ⟨slot, hslot, -, rfl⟩ | ⟨hnew, -, cs, hcs, -⟩
    · rw [sightDepth_seen (cacheable_desc k i ms) (EncodeTypeCache.mem_keys hslot)]
    · rw [sightDepth_new hnew]
      exact ih _ _ _ hcs

/-! ### Tables that lag behind -/

def CachedType.of (d : FieldDesc) : CachedType := CachedType.newWithMetrics d (TreeMetrics.of d)

/-- What the decoder has bound, the encoder has bound, with the metrics of the descriptor; and what
the encoder has bound, the decoder has bound, but for the definitions that are open. -/
structure Synced (opened : List FieldDesc) (enc : EncodeTypeCache) (cache : TypeCache) : Prop where
  bound : ∀ slot c, cache slot = some c → (c.desc, slot) ∈ enc.map ∧ c = CachedType.of c.desc
  closed : ∀ e ∈ enc.map, e.1 ∉ opened → cache e.2 = some (CachedType.of e.1)

lemma synced_empty : Synced [] EncodeTypeCache.empty empty :=
  ⟨by simp, by simp [EncodeTypeCache.empty]⟩

lemma Synced.open {opened} {enc : EncodeTypeCache} {cache : TypeCache} (h : Synced opened enc cache)
    (d : FieldDesc) : Synced (d :: opened) (enc.insert d) cache := by
  refine ⟨fun slot c hc => ?_, fun e he hopen => ?_⟩
  · obtain ⟨hmem, heq⟩ := h.bound slot c hc
    exact ⟨mem_cons_of_mem _ hmem, heq⟩
  · rcases mem_cons.1 he with rfl | he
    · exact absurd (mem_cons_self ..) hopen
    · exact h.closed e he fun hc => hopen (mem_cons_of_mem _ hc)

lemma Synced.close {opened} {enc : EncodeTypeCache} {cache : TypeCache} {d slot}
    (h : Synced (d :: opened) enc cache) (hwf : enc.WF) (hslot : (d, slot) ∈ enc.map) :
    Synced opened enc (cache.orInsert slot (CachedType.of d)) := by
  refine ⟨fun key c hc => ?_, fun e he hopen => ?_⟩
  · rcases orInsert_cases hc with hc | ⟨rfl, rfl⟩
    · exact h.bound key c hc
    · exact ⟨hslot, rfl⟩
  · by_cases heq : e.2 = slot
    · -- the slot itself, which holds nothing or already this descriptor
      obtain rfl : e = (d, slot) := hwf.slot_inj e he _ hslot heq
      rw [orInsert_self]
      cases hc : cache slot with
      | none => rfl
      | some c =>
        obtain ⟨hmem, hcof⟩ := h.bound slot c hc
        have hd : c.desc = d := congrArg Prod.fst (hwf.slot_inj _ hmem _ hslot rfl)
        rw [hcof, hd]
        rfl
    · rw [orInsert_of_ne heq]
      refine h.closed e he fun hc => ?_
      rcases mem_cons.1 hc with rfl | hc
      · -- a descriptor has one slot only
        have := inj_on_of_nodup_map hwf.keys_nodup he hslot rfl
        exact heq (congrArg Prod.snd this)
      · exact hopen hc

/-! ### One level of markers -/

section

variable {order : ByteOrder} {policy : BoundedStringPolicy}

lemma refuses_zero (c : List UInt8) (s : TypeCache) :
    Refuses (decodeTypeDescCachedAtDepth order policy 0) c s := Refuses.fail _ _ _

variable {s : TypeCache}

lemma reads_reference {slot d} (h : s slot = some (CachedType.of d)) (room : ℕ) :
    Reads (decodeTypeDescCachedAtDepth order policy (room + 1)) ([0xFE] ++ putU16 slot order) s
      (d, of d) s := by
  refine (reads_getU8 0xFE s).bind ?_
  intro r
  have hread : decodeTag order policy (decodeTypeDescCachedAtDepth order policy room) 0xFE
      (putU16 slot order ++ r) s =
      (orFault (.cacheMiss slot) (s slot) >>= fun c =>
        pure (c.desc, (⟨c.height, c.nodes⟩ : TreeMetrics))) r s :=
    bind_of_ok (reads_getU16 slot order s r)
  rw [hread, h]
  rfl

variable {c : List UInt8}

lemma reads_definition {slot} {s' : TypeCache} {d room}
    (h : Reads (decodeTypeDescCachedAtDepth order policy room) c s
      (d, of d) s') :
    Reads (decodeTypeDescCachedAtDepth order policy (room + 1)) ([0xFD] ++ (putU16 slot order ++ c))
    s (d, of d) (s'.orInsert slot (CachedType.of d)):= by
  refine (reads_getU8 0xFD s).bind ?_
  refine (reads_getU16 slot order s).bind ?_
  intro r
  exact bind_of_ok (h r)

lemma refuses_definition {slot room}
    (h : Refuses (decodeTypeDescCachedAtDepth order policy room) c s) :
    Refuses (decodeTypeDescCachedAtDepth order policy (room + 1))
    ([0xFD] ++ (putU16 slot order ++ c)) s := by
  refine (reads_getU8 0xFD s).bind_refuses ?_
  refine (reads_getU16 slot order s).bind_refuses ?_
  have hb := h.bind (fun dm => (modify fun cache =>
    cache.orInsert slot (CachedType.newWithMetrics dm.1 dm.2)) >>= fun _ => pure dm) []
  rwa [append_nil] at hb

/-- The tags of a compound in front of a body that is refused with fewer than `depth` levels
left. -/
lemma refuses_tags {depth}
    (hbody : ∀ (k : Compound) below, below < depth → Refuses
      (decodeBodyWith k k.countName order (decodeTypeDescCachedAtDepth order policy below)) c s)
    (k : Compound) {room} (hroom : room < depth + k.levels) :
    Refuses (decodeTypeDescCachedAtDepth order policy room) (k.tags ++ c) s := by
  have helem : ∀ k : Compound, k.isArray = false → ∀ room, room ≤ depth →
      Refuses (decodeTypeDescCachedAtDepth order policy room) (k.tags ++ c) s := by
    intro k hk room hroom
    cases room with
    | zero => exact refuses_zero _ s
    | succ room =>
      intro r
      rw [append_assoc, decode_tags_element hk]
      exact hbody k room hroom r
  cases hk : k.isArray with
  | false => exact helem k hk room (by simpa [Compound.levels, hk, Nat.lt_succ_iff] using hroom)
  | true =>
    cases room with
    | zero => exact refuses_zero _ s
    | succ room =>
      intro r
      have hle : room ≤ depth := by
        simp only [Compound.levels, hk, if_true] at hroom
        omega
      rw [append_assoc, decode_tags_array hk, ← append_assoc]
      have h := (helem k.element k.isArray_element room hle).bind k.lift [] r
      rwa [append_nil] at h

/-! ### The count decides -/

/-- What the count says of a descriptor: whatever has been sent before, it is read with more levels
left than it costs, and refused with fewer. -/
def Sighted (order : ByteOrder) (policy : BoundedStringPolicy) (d : FieldDesc) : Prop :=
  ∀ opened enc out enc' cache, encodeTypeDescCached order d enc = some (out, enc') → enc.WF →
    Synced opened enc cache → (∀ a ∈ opened, d.nodes < a.nodes) → ∀ room,
      ((sightDepth d enc.keys).1 < room → ∃ cache',
        Reads (decodeTypeDescCachedAtDepth order policy room) out cache (d, TreeMetrics.of d)
          cache' ∧ Synced opened enc' cache') ∧
      (room ≤ (sightDepth d enc.keys).1 →
        Refuses (decodeTypeDescCachedAtDepth order policy room) out cache)

variable {type : Decoder TypeCache (FieldDesc × TreeMetrics)}

/-- A body with a member that is refused is refused: the members before it are read, and whether
their metrics pass the check does not matter. -/
lemma refuses_decodeMembers_tail {name d cs} {s₁ : TypeCache} {n} (hfit : labelFits name = true)
    (h : Reads type c s (d, of d) s₁)
    (hrest : ∀ m, Refuses (decodeMembers (decodeFieldDescWith order type) n m) cs s₁)
    (m : TreeMetrics) :
    Refuses (decodeMembers (decodeFieldDescWith order type) (n + 1) m)
    (encodeString name order ++ c ++ cs) s := by
  have hfield : Reads (decodeFieldDescWith order type) (encodeString name order ++ c) s
      ((name, d), of d) s₁ :=
    (reads_decodeLabel (by simpa [labelFits] using hfit) order s).bind
      (h.map fun dm => ((name, dm.1), dm.2))
  refine hfield.bind_refuses ?_
  intro r
  rw [bind_apply]
  unfold checkFieldMetrics
  split_ifs
  · exact ⟨_, rfl⟩
  · exact ⟨_, rfl⟩
  · have hb := (hrest (m.addChild (of d))).bind
      (fun fs => pure ((name, d) :: fs.1, fs.2)) [] r
    rwa [append_nil] at hb

lemma refuses_decodeMembers_head {name} (hfit : labelFits name = true) (h : Refuses type c s)
    (cs : List UInt8) (n : ℕ) (m : TreeMetrics) :
    Refuses (decodeMembers (decodeFieldDescWith order type) (n + 1) m)
    (encodeString name order ++ c ++ cs) s := by
  have hfield : Refuses (decodeFieldDescWith order type) (encodeString name order ++ c) s := by
    refine (reads_decodeLabel (by simpa [labelFits] using hfit) order s).bind_refuses ?_
    have hb := h.bind (fun dm => pure ((name, dm.1), dm.2)) []
    rwa [append_nil] at hb
  exact hfield.bind _ cs

lemma refuses_decodeBodyWith {i n cs} (hfit : labelFits i = true) (hlen : n < 2 ^ 32)
    (h : ∀ m, Refuses (decodeMembers (decodeFieldDescWith order type) n m) cs s) (k : Compound)
    (what : String) :
    Refuses (decodeBodyWith k what order type) (bodyHead order i n ++ cs) s := by
  have hcount : (UInt32.ofNat n).toNat = n := UInt32.toNat_ofNat_of_lt' hlen
  rw [bodyHead, append_assoc]
  refine (reads_decodeLabel (by simpa [labelFits] using hfit) order s).bind_refuses ?_
  refine (reads_decodeSizeNonnull _ order what s).bind_refuses ?_
  have hb := (h ⟨0, 1⟩).bind (fun ms => pure (k.desc i ms.1, ms.2)) []
  rw [append_nil] at hb
  rw [hcount]
  exact hb

lemma sighted_members {opened ms} (hfit : ∀ m ∈ ms, labelFits m.1 = true)
    (ih : ∀ m ∈ ms, Sighted order policy m.2)
    (hopen : ∀ a ∈ opened, ∀ m ∈ ms, m.2.nodes < a.nodes) :
    ∀ enc cs enc' cache, encodeFieldDescsCached order ms enc = some (cs, enc') → enc.WF →
      Synced opened enc cache → ∀ below,
        ((membersDepth ms enc.keys).1 ≤ below → ∃ cache',
          MembersRead order (decodeTypeDescCachedAtDepth order policy below) cs cache ms cache' ∧
            Synced opened enc' cache') ∧
        (below < (membersDepth ms enc.keys).1 → ∀ m, Refuses (decodeMembers (decodeFieldDescWith
          order (decodeTypeDescCachedAtDepth order policy below)) ms.length m) cs cache) := by
  induction ms with
  | nil =>
    intro enc cs enc' cache h hwf hsync below
    obtain ⟨rfl, rfl⟩ := h
    exact ⟨fun _ => ⟨cache, .nil cache, hsync⟩, fun hlt => absurd hlt (Nat.not_lt_zero _)⟩
  | cons mem ms ihms =>
    obtain ⟨name, d⟩ := mem
    obtain ⟨hname, hfits⟩ := forall_mem_cons.1 hfit
    obtain ⟨hd, hms⟩ := forall_mem_cons.1 ih
    intro enc cs enc' cache h hwf hsync below
    obtain ⟨out, enc₁, outs, h₁, h₂, rfl⟩ := encode_members_cons h
    have g₁ := grows_encodeTypeDescCached d _ _ _ h₁ hwf
    -- what is open around the members is larger than each of them
    have hopen₁ : ∀ a ∈ opened, d.nodes < a.nodes :=
      fun a ha => hopen a ha _ (mem_cons_self ..)
    have hopen₂ : ∀ a ∈ opened, ∀ m ∈ ms, m.2.nodes < a.nodes :=
      fun a ha m hm => hopen a ha m (mem_cons_of_mem _ hm)
    obtain ⟨hread, hrefuse⟩ := hd opened enc out enc₁ cache h₁ hwf hsync hopen₁ below
    rw [membersDepth_cons, sightDepth_keys d _ _ _ h₁]
    have hrest := fun cache₁ hsync₁ => ihms hfits hms hopen₂ enc₁ outs enc' cache₁ h₂ g₁.wf hsync₁
      below
    refine ⟨fun hle => ?_, fun hlt m => ?_⟩
    · obtain ⟨hle₁, hle₂⟩ := max_le_iff.1 hle
      obtain ⟨cache₁, hread₁, hsync₁⟩ := hread hle₁
      obtain ⟨cache₂, hreads, hsync₂⟩ := (hrest cache₁ hsync₁).1 hle₂
      exact ⟨cache₂, .cons hname hread₁ hreads, hsync₂⟩
    · by_cases hd₁ : (sightDepth d enc.keys).1 < below
      · -- the first member is read, so the refusal is further on
        obtain ⟨cache₁, hread₁, hsync₁⟩ := hread hd₁
        have hlt₂ : below < (membersDepth ms enc₁.keys).1 := by
          rcases lt_max_iff.1 hlt with h | h
          · omega
          · exact h
        exact refuses_decodeMembers_tail hname hread₁ ((hrest cache₁ hsync₁).2 hlt₂) m
      · exact refuses_decodeMembers_head hname (hrefuse (not_lt.1 hd₁)) outs _ m

/-- **The count decides**, for every descriptor whose resolved tree is within the limits and whose
labels are not cut. -/
theorem sighted_encodeTypeDescCached (d : FieldDesc) :
    d.labelsFit = true → d.height ≤ maxFieldDepth → d.nodes ≤ maxFieldNodes →
      Sighted order policy d := by
  induction d using compound_induction with
  | leaf d hd =>
    intro _ _ _ opened enc out enc' cache h _ hsync _ room
    rw [encode_leaf hd, Option.some.injEq, Prod.mk.injEq] at h
    obtain ⟨rfl, rfl⟩ := h
    rw [sightDepth_leaf hd]
    refine ⟨fun hroom => ?_, fun hroom => ?_⟩
    · obtain ⟨room, rfl⟩ := Nat.exists_eq_add_one_of_ne_zero (Nat.ne_zero_of_lt hroom)
      exact ⟨cache, reads_leaf hd room cache, hsync⟩
    · obtain rfl : room = 0 := Nat.le_zero.1 hroom
      exact refuses_zero _ cache
  | compound k i ms ih =>
    intro hfit hh hn opened enc out enc' cache h hwf hsync hopen room
    obtain ⟨hi, hlen, hms⟩ := (labelsFit_desc k i ms).1 hfit
    rw [height_desc] at hh
    rw [nodes_desc] at hn
    rcases encode_compound_cases h with ⟨slot, hslot, rfl, rfl⟩ | ⟨hnew, hnext, cs, hcs, rfl⟩
    · -- a reference: its definition is closed, because what is open is larger
      rw [sightDepth_seen (cacheable_desc k i ms) (EncodeTypeCache.mem_keys hslot)]
      have hclosed := hsync.closed _ hslot fun hc => lt_irrefl _ (hopen _ hc)
      refine ⟨fun hroom => ?_, fun hroom => ?_⟩
      · obtain ⟨room, rfl⟩ := Nat.exists_eq_add_one_of_ne_zero (Nat.ne_zero_of_lt hroom)
        exact ⟨cache, reads_reference hclosed room, hsync⟩
      · obtain rfl : room = 0 := Nat.le_zero.1 hroom
        exact refuses_zero _ cache
    · have hwf' := hwf.insert hnew hnext
      have g := grows_members (fun m _ => grows_encodeTypeDescCached m.2) _ _ _ hcs hwf'
      have hself : (k.desc i ms, enc.next) ∈ enc'.map := g.sub _ (mem_cons_self ..)
      have hfits := labelsFitMembers_iff.1 hms
      -- every member has fewer nodes than this descriptor and than what encloses it
      have hsmall : ∀ m ∈ ms, m.2.nodes < (k.desc i ms).nodes := fun m hm => by
        have := nodes_le_nodesMembers hm
        rw [nodes_desc]
        omega
      have hopen' : ∀ a ∈ k.desc i ms :: opened, ∀ m ∈ ms, m.2.nodes < a.nodes := by
        intro a ha m hm
        rcases mem_cons.1 ha with rfl | ha
        · exact hsmall m hm
        · exact lt_trans (hsmall m hm) (hopen a ha)
      have hsighted : ∀ m ∈ ms, Sighted order policy m.2 := fun m hm => ih m hm (hfits m hm).2
        (by have := heightMembers_le_iff.1 hh m hm; omega)
        (by have := nodes_le_nodesMembers hm; omega)
      have hmembers := sighted_members (fun m hm => (hfits m hm).1) hsighted hopen' _ _ _ cache
        hcs hwf' (hsync.open _)
      rw [sightDepth_new hnew]
      cases room with
      | zero => exact ⟨fun hroom => absurd hroom (Nat.not_lt_zero _), fun _ => refuses_zero _ cache⟩
      | succ room =>
      refine ⟨fun hroom => ?_, fun hroom => refuses_definition ?_⟩
      · -- the tags of the compound take their levels, the members have the others
        obtain ⟨below, rfl, hbelow⟩ : ∃ below, room = below + k.levels ∧
            (membersDepth ms (enc.insert (k.desc i ms)).keys).1 ≤ below :=
          ⟨room - k.levels, (Nat.sub_add_cancel (by omega)).symm, Nat.le_sub_of_add_le
            (Nat.lt_succ_iff.1 hroom)⟩
        obtain ⟨cache', hread, hsync'⟩ := (hmembers below).1 hbelow
        exact ⟨_, reads_definition (reads_tags
          (fun k' => hread.reads_body k' _ hi hlen hh hn) k), hsync'.close g.wf hself⟩
      · exact refuses_tags (fun k' below hlt =>
          refuses_decodeBodyWith hi hlen ((hmembers below).2 hlt) k' _) k hroom

end

/-! ### The round trip with markers -/

lemma FieldDesc.length_compounds_le (d : FieldDesc) : d.compounds.length ≤ d.nodes := by
  induction d using compound_members_induction
    (Q := fun ms => (compoundsMembers ms).length ≤ nodesMembers ms) with
  | leaf d hd => cases d <;> simp_all [compounds, cacheable]
  | nil => exact le_rfl
  | cons name d ms hd hms =>
    rw [compoundsMembers, length_append]
    exact Nat.add_le_add hd hms
  | compound k i ms ih =>
    rw [compounds_desc, nodes_desc, length_cons]
    exact Nat.succ_le_succ ih

/-- **The round trip with markers, characterised.**  A descriptor that comes back from its inline
encoding is sent with markers on a fresh connection without a panic, and it comes back exactly when
its markers nest within `MAX_FIELD_DEPTH`. -/
theorem cached_round_trip_iff (order order' : ByteOrder) (d : FieldDesc)
    (h : decodeTypeDesc order (encodeTypeDesc order d) () = (.ok (d, []), ())) :
    ∃ out enc, encodeTypeDescCached order' d EncodeTypeCache.empty = some (out, enc) ∧
      ((decodeTypeDescCached order' out TypeCache.empty).1 = .ok (d, []) ↔
        (sightDepth d []).1 ≤ maxFieldDepth) := by
  -- what comes back is within the limits
  obtain ⟨-, m, c, hdec⟩ := decodeTypeDesc_eq_ok.1 h
  have hkeep := keeps_decodeTypeDescCachedAtDepth order .interop (maxFieldDepth + 1)
    (encodeTypeDesc order d) empty bounded_empty
  rw [hdec] at hkeep
  have hmeas := hkeep.2 _ _ rfl
  obtain ⟨-, hfit⟩ := (decodeTypeDesc_encodeTypeDesc_iff order d hmeas.nodes_le ()).1 h
  obtain ⟨⟨out, enc⟩, hout⟩ :
      ∃ out, encodeTypeDescCached order' d EncodeTypeCache.empty = some out :=
    exists_encodeTypeDescCached (U := d.compounds.toFinset)
      (lt_of_le_of_lt (toFinset_card_le _) (lt_of_le_of_lt (length_compounds_le d)
        (Nat.lt_succ_iff.2 hmeas.nodes_le)))
      d EncodeTypeCache.empty EncodeTypeCache.wf_empty
      (by simp [EncodeTypeCache.empty, EncodeTypeCache.keys])
      fun c hc => mem_toFinset.2 hc
  have hsighted : Sighted order' .interop d :=
    sighted_encodeTypeDescCached d hfit hmeas.height_le hmeas.nodes_le
  obtain ⟨hread, hrefuse⟩ := hsighted [] _ _ _ empty hout EncodeTypeCache.wf_empty
    synced_empty (by simp) (maxFieldDepth + 1)
  refine ⟨out, enc, hout, ?_⟩
  rw [← append_nil out]
  constructor
  · intro hok
    by_contra hdeep
    have hno := (hrefuse (not_le.1 hdeep)).bind (fun dm => pure dm.1) []
    rw [append_nil] at hno
    exact hno.not_ok hok
  · intro hle
    obtain ⟨cache', hr, -⟩ := hread (Nat.lt_succ_iff.2 hle)
    have hm := hr.map (fun dm => dm.1) []
    exact congrArg Prod.fst hm

/-- Structures inside each other, `n` of them around an empty one. -/
def structTower : ℕ → FieldDesc
  | 0 => .struct "" []
  | n + 1 => .struct "" [("", structTower n)]

theorem cached_round_trip_structTower_nine :
    decodeTypeDesc .big (encodeTypeDesc .big (structTower 9)) () = (.ok (structTower 9, []), ()) ∧
      ∃ out enc, encodeTypeDescCached .little (structTower 9) EncodeTypeCache.empty =
          some (out, enc) ∧
        ((decodeTypeDescCached .little out TypeCache.empty).1 = .ok (structTower 9, []) ↔
          (sightDepth (structTower 9) []).1 ≤ maxFieldDepth) := by
  have h : decodeTypeDesc .big (encodeTypeDesc .big (structTower 9)) () =
      (.ok (structTower 9, []), ()) := by decide +kernel
  exact ⟨h, cached_round_trip_iff .big .little (structTower 9) h⟩

/-- **A descriptor that is admitted inline and refused with markers**: eleven structures inside
each other nest 10 levels inline, and 21 with a definition in front of each. -/
theorem structTower_refused :
    decodeTypeDesc .little (encodeTypeDesc .little (structTower 10)) () =
        (.ok (structTower 10, []), ()) ∧
      (encodeTypeDescCached .little (structTower 10) EncodeTypeCache.empty).map
          (fun out => (decodeTypeDescCached .little out.1 TypeCache.empty).1) =
        some (.error .descNesting) := by
  constructor
  · decide +kernel
  · decide +kernel

end Pva
