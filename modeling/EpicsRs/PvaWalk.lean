/-
**The walk over a value.**

The task that reads a connection resolves the markers in a frame: it walks over the bytes of a value
without building the value, decodes every descriptor with the cache of the connection, and writes it
inline in its place.  The walk has to agree with the decoder on where everything is; it counts its
depth from the root of the value, and the decoder of a partial value from the marked field.

Main results: `Pva.flattens_walkValuePresent`, `Pva.flattenValueMarkers_spans`.
-/

import EpicsRs.PvaOverlay

set_option autoImplicit false

namespace Pva

open ByteReader List FieldDesc TypeCache PvField

/-! ### Copy on write -/

/-- `src[start..stop]`. -/
def slice (src : List UInt8) (start stop : ℕ) : List UInt8 := (src.take stop).drop start

structure ValueCow where
  src : List UInt8
  flushed : ℕ
  out : List UInt8
  dirty : Bool

namespace ValueCow

def new (src : List UInt8) (start : ℕ) : ValueCow := ⟨src, start, [], false⟩

def replace (cow : ValueCow) (start stop : ℕ) (repl : List UInt8) : ValueCow :=
  { cow with
    out := cow.out ++ slice cow.src cow.flushed start ++ repl
    flushed := stop
    dirty := true }

def finish (cow : ValueCow) (stop : ℕ) : Option (List UInt8) :=
  if cow.dirty then some (cow.out ++ slice cow.src cow.flushed stop) else none

end ValueCow

/-! ### The walk -/

mutual
def descContainsVariant : FieldDesc → Bool
  | .variant | .variantArray => true
  | .scalar _ | .scalarArray _ => false
  | .struct _ ms | .structArray _ ms => descContainsVariantMembers ms
  | .union _ ms | .unionArray _ ms => descContainsVariantMembers ms

/-- `fields.iter().any(..)`. -/
def descContainsVariantMembers : List Member → Bool
  | [] => false
  | (_, d) :: ms => descContainsVariant d || descContainsVariantMembers ms
end

/-- A function of the cursor, the cache and the copy. -/
abbrev Walker (α : Type) : Type := Decoder (TypeCache × ValueCow) α

/-- A decoder, which leaves the copy alone. -/
def onCache {α : Type} (p : Decoder TypeCache α) : Walker α :=
  zoom Prod.fst (fun cache t => (cache, t.2)) p

/-- `cur.position()`. -/
def position : Walker ℕ := do
  let left ← rest
  let state ← get
  pure (state.2.src.length - left.length)

lemma position_apply (i : List UInt8) (state : TypeCache × ValueCow) :
    position i state = (.ok (state.2.src.length - i.length, i), state) := rfl

def scalarFixedSize : ScalarType → Option ℕ
  | .boolean | .byte | .ubyte => some 1
  | .short | .ushort => some 2
  | .int | .uint | .float => some 4
  | .long | .ulong | .double => some 8
  | .string => none

def advanceCursor (n : ℕ) : Decoder TypeCache Unit := do
  let _ ← bytes .flattenEnd n
  pure ()

def advanceScalar (order : ByteOrder) (st : ScalarType) : Decoder TypeCache Unit :=
  match scalarFixedSize st with
  | some size => advanceCursor size
  | none => do
      let _ ← decodeStringValue order
      pure ()

/-- `advance_scalar_array`; the product is below `2 ^ 35`. -/
def advanceScalarArray (order : ByteOrder) (st : ScalarType) (n : ℕ) : Decoder TypeCache Unit :=
  match scalarFixedSize st with
  | some size => advanceCursor (n * size)
  | none => do
      let _ ← times (decodeStringValue order) n
      pure ()

def walkPresence (what : String) (present : Walker Unit) : Walker Unit := do
  let presence ← onCache getU8
  if presence = 0x00 then pure ()
  else if presence = 0x01 then present
  else fail (.presence what presence)

/-- The variant that a selector selects, or nothing for a null selector. -/
def walkUnion (order : ByteOrder) (what : String) (variants : List Member)
    (value : FieldDesc → Walker Unit) : Walker Unit := do
  match ← onCache (decodeSize order) with
  | none => pure ()
  | some sel => do
      let m ← onCache (orFault (.walkSelector what sel) variants[sel.toNat]?)
      value m.2

def walkAny (order : ByteOrder) (value : FieldDesc → Walker Unit) : Walker Unit := do
  let left ← rest
  let start ← position
  let tag ← onCache getU8
  if tag = tagNull then pure ()
  else do
    seek left
    let inner ← onCache (decodeTypeDescCached order)
    let stop ← position
    let inline := encodeTypeDesc order inner
    modify fun state =>
      if inline ≠ slice state.2.src start stop then
        (state.1, state.2.replace start stop inline)
      else state
    value inner

/-- One level of `walk_value_present`, over the walk `value` of the next. -/
def walkLevel (order : ByteOrder) (value : FieldDesc → Walker Unit) : FieldDesc → Walker Unit
  | .scalar st => onCache (advanceScalar order st)
  | .scalarArray st => do
      let n ← onCache (decodeSizeNonnull order "scalar array length")
      onCache (advanceScalarArray order st n.toNat)
  | .struct _ ms => do
      let _ ← each (fun m => value m.2) ms
      pure ()
  | .structArray i ms => do
      let n ← onCache (decodeSizeNonnull order "structure array length")
      let _ ← times (walkPresence "structure array" (value (.struct i ms))) n.toNat
      pure ()
  | .union _ variants => walkUnion order "union" variants value
  | .unionArray _ variants => do
      let n ← onCache (decodeSizeNonnull order "union array length")
      let _ ← times
        (walkPresence "union array" (walkUnion order "union array" variants value)) n.toNat
      pure ()
  | .variant => walkAny order value
  | .variantArray => do
      let n ← onCache (decodeSizeNonnull order "variant array length")
      let _ ← times (walkPresence "variant array" (walkAny order value)) n.toNat
      pure ()

/-- `walk_value_present`, with `room` levels left. -/
def walkValuePresent (order : ByteOrder) : ℕ → FieldDesc → Walker Unit
  | 0, _ => fail .flattenNesting
  | room + 1, d => walkLevel order (walkValuePresent order room) d

section

variable (order : ByteOrder) (bs : BitSet)

mutual
/-- `walk_value_bitset`, with `room` levels left. -/
def walkValueBitset : FieldDesc → ℕ → ℕ → Walker Unit
  | .struct i ms, room, bit =>
      if room = 0 then fail .flattenNesting
      else if bs.get bit then walkValuePresent order room (.struct i ms)
      else if (List.range (FieldDesc.struct i ms).totalBits).any fun k => bs.get (bit + k) then
        walkMembersBitset ms (room - 1) (bit + 1)
      else pure ()
  | d, room, bit =>
      if room = 0 then fail .flattenNesting
      else if bs.get bit then walkValuePresent order room d
      else pure ()

/-- The loop of `walk_value_bitset` over the members. -/
def walkMembersBitset : List Member → ℕ → ℕ → Walker Unit
  | [], _, _ => pure ()
  | (_, d) :: ms, room, bit => do
      walkValueBitset d room bit
      walkMembersBitset ms room (bit + d.totalBits)
end

end

/-- Walk over a value in `src`, and say where it ends and what to put in its place. -/
def flattenWith (walk : Walker Unit) (src : List UInt8) (valueStart : ℕ) (cache : TypeCache) :
    Except DecodeError (ℕ × Option (List UInt8)) × TypeCache :=
  match walk (src.drop valueStart) (cache, ValueCow.new src valueStart) with
  | (.ok (_, left), (cache, cow)) =>
      (.ok (src.length - left.length, cow.finish (src.length - left.length)), cache)
  | (.error e, (cache, _)) => (.error e, cache)

def flattenValueMarkers (src : List UInt8) (valueStart : ℕ) (desc : FieldDesc) (bitset : BitSet)
    (order : ByteOrder) (cache : TypeCache) :
    Except DecodeError (ℕ × Option (List UInt8)) × TypeCache :=
  flattenWith (walkValueBitset order bitset desc (maxFieldDepth + 1) 0) src valueStart cache

def flattenValueMarkersFull (src : List UInt8) (valueStart : ℕ) (desc : FieldDesc)
    (order : ByteOrder) (cache : TypeCache) :
    Except DecodeError (ℕ × Option (List UInt8)) × TypeCache :=
  flattenWith (walkValuePresent order (maxFieldDepth + 1) desc) src valueStart cache

/-! ### What the copy stands for -/

/-- With `left` to walk over, the bytes of the value are `done` so far. -/
structure ValueCow.At (cow : ValueCow) (left done : List UInt8) : Prop where
  exists_front : ∃ front, cow.src = front ++ left ∧ cow.flushed ≤ front.length ∧
    done = cow.out ++ front.drop cow.flushed

/-- Nothing was replaced since `start`, as far as the copy says. -/
def ValueCow.Faithful (cow : ValueCow) (start : ℕ) : Prop :=
  cow.dirty = false → cow.out = [] ∧ cow.flushed = start

section

variable {cow : ValueCow} {left done c r : List UInt8}

lemma ValueCow.At.advance (h : cow.At (c ++ r) done) : cow.At r (done ++ c) := by
  obtain ⟨front, hsrc, hflushed, rfl⟩ := h.exists_front
  refine ⟨front ++ c, by rw [hsrc, append_assoc], ?_, ?_⟩
  · rw [length_append]
    omega
  · rw [drop_append_of_le_length hflushed, append_assoc]

lemma ValueCow.At.position_eq (h : cow.At (c ++ r) done) :
    ∃ start, cow.src.length - (c ++ r).length = start ∧
      cow.src.length - r.length = start + c.length ∧ slice cow.src start (start + c.length) = c ∧
      ∀ repl, (cow.replace start (start + c.length) repl).At r (done ++ repl) := by
  obtain ⟨front, hsrc, hflushed, rfl⟩ := h.exists_front
  refine ⟨front.length, ?_, ?_, ?_, fun repl => ⟨front ++ c, ?_, ?_, ?_⟩⟩
  · rw [hsrc]
    simp
  · rw [hsrc]
    simp only [length_append]
    omega
  · rw [slice, hsrc, ← append_assoc, ← length_append, take_left, drop_left]
  · rw [ValueCow.replace, hsrc, append_assoc]
  · simp [ValueCow.replace]
  · simp only [ValueCow.replace, slice, hsrc, take_left]
    rw [← length_append, drop_length, append_nil]

end

/-- From `cow` to `cow'` a walk went over a part that `p` reads as `a`: what stands for that part
now is read without a cache, to the same. -/
structure Flattened {α : Type} (p : Decoder TypeCache α) (a : α) (cow cow' : ValueCow)
    (left done : List UInt8) : Prop where
  faithful : ∀ start, cow.Faithful start → cow'.Faithful start
  src_eq : cow'.src = cow.src
  exists_new : ∃ new, cow'.At left (done ++ new) ∧ Reads p new TypeCache.empty a TypeCache.empty

/-- **A walk agrees with a decoder**: wherever `p` returns a value with `Q`, the walk `w` gets to the
same place with the same cache, and what it leaves there is read by `p` without a cache, to the same
value. -/
def Flattens {α : Type} (p : Decoder TypeCache α) (w : Walker Unit) (Q : α → Prop) : Prop :=
  ∀ i r cache cache' a cow done, p i cache = (.ok (a, r), cache') → Q a → cow.At i done →
    ∃ cow', w i (cache, cow) = (.ok ((), r), (cache', cow')) ∧ Flattened p a cow cow' r done

lemma onCache_of_ok {α : Type} {p : Decoder TypeCache α} {i r} {cache cache' : TypeCache} {a}
    (h : p i cache = (.ok (a, r), cache')) (cow : ValueCow) :
    onCache p i (cache, cow) = (.ok (a, r), (cache', cow)) :=
  zoom_eq_ok (t := (cache, cow)) h

namespace Flattens

variable {α β : Type} {p : Decoder TypeCache α} {f : α → Decoder TypeCache β} {w w' : Walker Unit}
  {Q : α → Prop} {R : β → Prop}

lemma pure (a : α) : Flattens (Pure.pure a) (Pure.pure ()) Q := by
  intro i r cache cache' b cow done h _ hat
  obtain ⟨rfl, rfl, rfl⟩ := pure_eq_ok.1 h
  exact ⟨cow, rfl, fun _ h => h, rfl, [], by rwa [append_nil], Reads.pure a _⟩

lemma fail (e : DecodeError) : Flattens (ByteReader.fail e : Decoder TypeCache α) w Q := by
  intro i r cache cache' a cow done h
  simp at h

lemma false_elim (h : ∀ a, ¬ Q a) : Flattens p w Q :=
  fun _ _ _ _ a _ _ _ ha => absurd ha (h a)

lemma skip {q : Decoder TypeCache Unit} (hp : Stateless p)
    (hq : ∀ {i r cache a}, p i cache = (.ok (a, r), cache) → q i cache = (.ok ((), r), cache)) :
    Flattens p (onCache q) Q := by
  intro i r cache cache' a cow done h _ hat
  obtain ⟨rfl, c, rfl, hreads⟩ := hp _ _ _ _ _ h
  exact ⟨cow, onCache_of_ok (hq h) cow, fun _ h => h, rfl, c, hat.advance, hreads _⟩

lemma after {g} (hp : Stateless p) (hf : ∀ a, Flattens (f a) (g a) R) :
    Flattens (p >>= f) (onCache p >>= g) R := by
  intro i r cache cache' b cow done h hb hat
  obtain ⟨a, i₁, s₁, h₁, h₂⟩ := bind_eq_ok.1 h
  obtain ⟨rfl, c, rfl, hreads⟩ := hp _ _ _ _ _ h₁
  obtain ⟨cow', hw, hfaith, hsrc, new, hat', hnew⟩ := hf a _ _ _ _ _ _ _ h₂ hb hat.advance
  refine ⟨cow', ?_, hfaith, hsrc, c ++ new, ?_, (hreads _).bind hnew⟩
  · rw [bind_of_ok (onCache_of_ok h₁ cow)]
    exact hw
  · rwa [← append_assoc]

lemma seq (hp : Flattens p w Q) {S : α → β → Prop} (hf : ∀ a, Flattens (f a) w' (S a))
    (hR : ∀ {a i r s s' b}, f a i s = (.ok (b, r), s') → R b → Q a ∧ S a b) :
    Flattens (p >>= f) (w >>= fun _ => w') R := by
  intro i r cache cache' b cow done h hb hat
  obtain ⟨a, i₁, s₁, h₁, h₂⟩ := bind_eq_ok.1 h
  obtain ⟨ha, hb'⟩ := hR h₂ hb
  obtain ⟨cow₁, hw₁, hfaith₁, hsrc₁, new₁, hat₁, hnew₁⟩ := hp _ _ _ _ _ _ _ h₁ ha hat
  obtain ⟨cow₂, hw₂, hfaith₂, hsrc₂, new₂, hat₂, hnew₂⟩ := hf a _ _ _ _ _ _ _ h₂ hb' hat₁
  refine ⟨cow₂, ?_, fun start h => hfaith₂ start (hfaith₁ start h), hsrc₂.trans hsrc₁,
    new₁ ++ new₂, ?_, hnew₁.bind hnew₂⟩
  · rw [bind_of_ok hw₁]
    exact hw₂
  · rwa [← append_assoc]

lemma map (g : α → β) (hp : Flattens p w Q)
    (hR : ∀ {i r s s' a}, p i s = (.ok (a, r), s') → R (g a) → Q a) :
    Flattens (p >>= fun a => Pure.pure (g a)) w R := by
  intro i r cache cache' b cow done h hb hat
  obtain ⟨a, i₁, s₁, h₁, h₂⟩ := bind_eq_ok.1 h
  obtain ⟨rfl, rfl, rfl⟩ := pure_eq_ok.1 h₂
  obtain ⟨cow', hw, hfaith, hsrc, new, hat', hnew⟩ := hp _ _ _ _ _ _ _ h₁ (hR h₁ hb) hat
  exact ⟨cow', hw, hfaith, hsrc, new, hat', hnew.map g⟩

lemma ite {c : Prop} [Decidable c] {p' : Decoder TypeCache α} (h : Flattens p w Q)
    (h' : Flattens p' w' Q) : Flattens (if c then p else p') (if c then w else w') Q := by
  split
  · exact h
  · exact h'

lemma cons (k : α → β) {ps : Decoder TypeCache (List β)} (hp : Flattens p w fun a => R (k a))
    (hps : Flattens ps w' fun bs => ∀ b ∈ bs, R b) :
    Flattens (p >>= fun a => ps >>= fun bs => Pure.pure (k a :: bs)) (w >>= fun _ => w')
      fun bs => ∀ b ∈ bs, R b := by
  have hrest : ∀ a, Flattens (ps >>= fun bs => Pure.pure (k a :: bs)) w'
      fun bs => ∀ b ∈ bs, R b :=
    fun a => hps.map (k a :: ·) fun _ h => (forall_mem_cons.1 h).2
  refine hp.seq hrest fun {a i r s s' bs} h hbs => ?_
  obtain ⟨bs', i₁, s₁, -, hpure⟩ := bind_eq_ok.1 h
  obtain ⟨rfl, -, -⟩ := pure_eq_ok.1 hpure
  exact ⟨(forall_mem_cons.1 hbs).1, hbs⟩

lemma times (hp : Flattens p w Q) : ∀ n, Flattens (ByteReader.times p n)
    (ByteReader.times w n >>= fun _ => Pure.pure ()) fun as => ∀ a ∈ as, Q a
  | 0 => Flattens.pure []
  | n + 1 => by
      have h := cons id hp (times hp n)
      simpa only [ByteReader.times, bind_assoc', pure_bind', id_eq] using h

lemma each {γ : Type} {p : γ → Decoder TypeCache α} {w : γ → Walker Unit}
    (hp : ∀ x, Flattens (p x) (w x) Q) : ∀ xs, Flattens (ByteReader.each p xs)
      (ByteReader.each w xs >>= fun _ => Pure.pure ()) fun as => ∀ a ∈ as, Q a
  | [] => Flattens.pure []
  | x :: xs => by
      have h := cons id (hp x) (each hp xs)
      simpa only [ByteReader.each, bind_assoc', pure_bind', id_eq] using h

end Flattens

/-! ### The parts of a value -/

section

variable {order : ByteOrder} {field : FieldDesc → Decoder TypeCache PvField}
  {value : FieldDesc → Walker Unit} {cache : TypeCache}

lemma advanceCursor_of_bytes {e : DecodeError} {n i r c}
    (h : bytes e n i cache = (.ok (c, r), cache)) :
    advanceCursor n i cache = (.ok ((), r), cache) := by
  obtain ⟨rfl, rfl, -⟩ := bytes_eq_ok.1 h
  rw [advanceCursor, bind_of_ok (bytes_append _ c r cache)]
  rfl

lemma advanceCursor_of_map {α : Type} {e : DecodeError} {n} {f : List UInt8 → α} {i r a}
    (h : (bytes e n >>= fun buf => pure (f buf)) i cache = (.ok (a, r), cache)) :
    advanceCursor n i cache = (.ok ((), r), cache) := by
  obtain ⟨c, i₁, s₁, h₁, h₂⟩ := bind_eq_ok.1 h
  obtain ⟨-, rfl, rfl⟩ := pure_eq_ok.1 h₂
  exact advanceCursor_of_bytes h₁

lemma advanceScalar_of_decodeScalar {st : ScalarType} {i r : List UInt8} {x}
    (h : decodeScalar order st i cache = (.ok (x, r), cache)) :
    advanceScalar order st i cache = (.ok ((), r), cache) := by
  cases st with
  | boolean =>
    obtain ⟨b, i₁, s₁, h₁, h₂⟩ := bind_eq_ok.1 h
    obtain ⟨-, rfl, rfl⟩ := pure_eq_ok.1 h₂
    obtain ⟨rfl, -⟩ := byte_eq_ok.1 h₁
    rfl
  | string =>
    obtain ⟨s, i₁, s₁, h₁, h₂⟩ := bind_eq_ok.1 h
    obtain ⟨-, rfl, rfl⟩ := pure_eq_ok.1 h₂
    exact bind_of_ok h₁
  | _ => exact advanceCursor_of_map h

lemma advanceScalarArray_of_decode {st : ScalarType} {n : ℕ} {i r} {items : List st.Elem}
    (h : decodeTypedItems order n st i cache = (.ok (items, r), cache)) :
    advanceScalarArray order st n i cache = (.ok ((), r), cache) := by
  cases st with
  | boolean =>
    change advanceCursor (n * 1) i cache = _
    rw [Nat.mul_one]
    exact advanceCursor_of_map h
  | byte =>
    change advanceCursor (n * 1) i cache = _
    rw [Nat.mul_one]
    exact advanceCursor_of_map h
  | ubyte =>
    change advanceCursor (n * 1) i cache = _
    rw [Nat.mul_one]
    exact advanceCursor_of_bytes h
  | string =>
    have hmap := times_map (σ := TypeCache) (decodeStringValue order) (fun s => s.getD []) n
    have h' : (times (decodeStringValue order) n >>= fun as => pure (as.map fun s => s.getD []))
        i cache = (.ok (items, r), cache) := hmap ▸ h
    obtain ⟨s, i₁, s₁, h₁, h₂⟩ := bind_eq_ok.1 h'
    obtain ⟨-, rfl, rfl⟩ := pure_eq_ok.1 h₂
    exact bind_of_ok h₁
  | _ => exact advanceCursor_of_map h

lemma flattens_presence {α : Type} {what absent} {p : Decoder TypeCache α} {w} {Q : α → Prop}
    (h : Flattens p w Q) :
    Flattens (decodePresence what absent p) (walkPresence what w) Q :=
  Flattens.after stateless_getU8 fun _ =>
    (Flattens.pure absent).ite (h.ite (Flattens.fail _))

lemma getElem?_of_selectVariant {variants} {sel : UInt32} {idx m}
    (h : selectVariant variants sel.toInt32 = some (idx, m)) : variants[sel.toNat]? = some m := by
  unfold selectVariant at h
  split_ifs at h with hpos
  obtain ⟨m', hm', hpair⟩ := Option.map_eq_some_iff.1 h
  obtain ⟨-, rfl⟩ := Prod.mk.inj hpair
  have hnonneg : 0 ≤ sel.toInt32.toInt := by simpa using Int32.le_iff_toInt_le.1 hpos
  have hsel : sel.toInt32.toInt = if 2 * sel.toNat < 2 ^ 32 then (sel.toNat : ℤ)
      else (sel.toNat : ℤ) - (2 ^ 32 : ℕ) := BitVec.toInt_eq_toNat_cond sel.toBitVec
  have hidx : sel.toInt32.toInt.toNat = sel.toNat := by
    have hlt := sel.toNat_lt
    rw [hsel] at hnonneg ⊢
    split_ifs at hnonneg ⊢ <;> omega
  rw [← hidx]
  exact hm'

lemma flattens_selected {what what'} {variants : List Member} {sel} {Q : PvField → Prop}
    (h : ∀ d, Flattens (field d) (value d) Q) :
    Flattens (decodeSelected what variants field sel.toInt32)
    (onCache (orFault (.walkSelector what' sel) variants[sel.toNat]?) >>= fun m => value m.2)
      fun u => u.selector = -1 ∨ Q u.value := by
  unfold decodeSelected
  cases hsel : selectVariant variants sel.toInt32 with
  | none => exact Flattens.fail _
  | some m =>
    rw [getElem?_of_selectVariant hsel]
    refine (h m.2.2).map _ fun _ hu => hu.resolve_left fun hnull => ?_
    rw [show sel.toInt32 = -1 from hnull] at hsel
    cases hsel

lemma decodeAny_eq_ok {i r} {cache' : TypeCache} {any}
    (h : decodeAny order field i cache = (.ok (any, r), cache')) :
    (i = tagNull :: r ∧ any = none ∧ cache' = cache) ∨
    ∃ b t inner i₁ s₁ v, i = b :: t ∧ b ≠ tagNull ∧
      decodeTypeDescCached order i cache = (.ok (inner, i₁), s₁) ∧
      field inner i₁ s₁ = (.ok (v, r), cache') ∧ any = some ⟨some inner, v⟩ := by
  obtain ⟨o, i₁, s₁, h₁, h₂⟩ := bind_eq_ok.1 h
  rcases decodeTypeDescCachedOpt_eq_ok h₁ with ⟨rfl, rfl, rfl⟩ | ⟨b, t, inner, rfl, hb, rfl, hdesc⟩
  · obtain ⟨rfl, rfl, rfl⟩ := pure_eq_ok.1 h₂
    exact Or.inl ⟨rfl, rfl, rfl⟩
  · obtain ⟨v, i₂, s₂, hv, h₃⟩ := bind_eq_ok.1 h₂
    obtain ⟨rfl, rfl, rfl⟩ := pure_eq_ok.1 h₃
    exact Or.inr ⟨b, t, inner, i₁, s₁, v, rfl, hb, hdesc, hv, rfl⟩

lemma walkAny_cons (value : FieldDesc → Walker Unit) {b t i₁ done} {s₁ : TypeCache} {inner cow}
    (hb : b ≠ tagNull) (h : decodeTypeDescCached order (b :: t) cache = (.ok (inner, i₁), s₁))
    (hat : cow.At (b :: t) done) :
    ∃ cow₁, walkAny order value (b :: t) (cache, cow) = value inner i₁ (s₁, cow₁) ∧
      cow₁.At i₁ (done ++ encodeTypeDesc order inner) ∧ cow₁.src = cow.src ∧
      ∀ start, cow.Faithful start → cow₁.Faithful start := by
  obtain ⟨c, hc, -⟩ := local_decodeTypeDescCached order _ _ _ _ _ h
  rw [hc] at hat
  obtain ⟨start, hstart, hstop, hslice, hrepl⟩ := hat.position_eq
  have hwalk : walkAny order value (b :: t) (cache, cow) = value inner i₁ (s₁,
      if encodeTypeDesc order inner ≠ slice cow.src start (start + c.length) then
        cow.replace start (start + c.length) (encodeTypeDesc order inner) else cow) := by
    rw [← hc] at hstart
    have htag : onCache getU8 (b :: t) (cache, cow) = (.ok (b, t), (cache, cow)) := rfl
    rw [walkAny, bind_of_ok (rest_apply _ _), bind_of_ok (position_apply _ _), bind_of_ok htag,
      if_neg hb, bind_of_ok (seek_apply _ _ _), bind_of_ok (onCache_of_ok h cow),
      bind_of_ok (position_apply _ _), bind_of_ok (modify_apply _ _ _), hstart, hstop]
    split_ifs <;> rfl
  rw [hwalk, hslice]
  split_ifs with hne
  · exact ⟨_, rfl, hrepl _, rfl, fun _ _ hclean => by cases hclean⟩
  · rw [not_not] at hne
    exact ⟨_, rfl, hne ▸ hat.advance, rfl, fun _ h => h⟩

lemma flattens_any {Q : PvField → Prop} (h : ∀ d, Flattens (field d) (value d) Q) :
    Flattens (decodeAny order field) (walkAny order value) fun any =>
      ∀ d v, any = some ⟨some d, v⟩ → d.admitted = true ∧ Q v := by
  intro i r cache cache' any cow done hrun hany hat
  rcases decodeAny_eq_ok hrun with ⟨rfl, rfl, rfl⟩ | ⟨b, t, inner, i₁, s₁, v, rfl, hb, h₁, h₂, rfl⟩
  · exact ⟨cow, rfl, fun _ h => h, rfl, [tagNull], hat.advance, fun _ => rfl⟩
  · obtain ⟨hadm, hv⟩ := hany _ _ rfl
    obtain ⟨cow₁, hwalk, hat₁, hsrc₁, hfaith₁⟩ := walkAny_cons value hb h₁ hat
    obtain ⟨cow₂, hw₂, hfaith₂, hsrc₂, new, hat₂, hnew⟩ := h inner _ _ _ _ _ _ _ h₂ hv hat₁
    refine ⟨cow₂, hwalk.trans hw₂, fun start h => hfaith₂ start (hfaith₁ start h),
      hsrc₂.trans hsrc₁, encodeTypeDesc order inner ++ new, ?_, reads_decodeAny hadm hnew⟩
    rwa [← append_assoc]

end

/-! ### Complete values -/

/-- The descriptors at the top of the value are admitted when they are sent inline. -/
def PvField.topInlinable : PvField → Bool
  | .variant v => v.desc.all FieldDesc.admitted
  | .variantArray items => items.all fun item => item.all fun v => v.desc.all FieldDesc.admitted
  | _ => true

/-- The descriptors in the value are admitted when they are sent inline. -/
def inlinable (v : PvField) : Bool := v.all PvField.topInlinable

/-- What a walk with `room` levels left gets over, with nothing left behind that needs a cache. -/
def Walkable (room : ℕ) (v : PvField) : Prop := inlinable v = true ∧ nesting v + 1 ≤ room

namespace Walkable

variable {room : ℕ}

lemma struct_iff {s : PvStructure} :
    Walkable (room + 1) (.struct s) ↔ ∀ f ∈ s.fields, Walkable room f.2 := by
  rw [Walkable, inlinable, all_struct, Nat.add_le_add_iff_right, nesting_struct_le]
  exact ⟨fun h f hf => ⟨h.1.2 f hf, h.2 f hf⟩,
    fun h => ⟨⟨rfl, fun f hf => (h f hf).1⟩, fun f hf => (h f hf).2⟩⟩

lemma of_structArray {items : List (Option PvStructure)}
    (h : Walkable (room + 1) (.structArray items)) {s} (hs : some s ∈ items) :
    Walkable room (.struct s) := by
  rw [Walkable, inlinable, all_structArray, Nat.add_le_add_iff_right,
    nesting_structArray_le] at h
  exact ⟨all_struct.2 ⟨rfl, h.1.2 s hs⟩, h.2 s hs⟩

lemma of_union {u : UnionItem} (h : Walkable (room + 1) (.union u)) :
    u.selector = -1 ∨ Walkable room u.value := by
  rw [Walkable, inlinable, all_union, Nat.add_le_add_iff_right, nesting_union_le] at h
  exact h.2.imp_right fun hv => ⟨h.1.2, hv⟩

lemma of_unionArray {items : List (Option UnionItem)} (h : Walkable (room + 1) (.unionArray items))
    {u} (hu : some u ∈ items) :
    Walkable room u.value := by
  rw [Walkable, inlinable, all_unionArray, Nat.add_le_add_iff_right,
    nesting_unionArray_le] at h
  exact ⟨h.1.2 u hu, h.2 u hu⟩

lemma of_variant {d v} (h : Walkable (room + 1) (.variant ⟨some d, v⟩)) :
    d.admitted = true ∧ Walkable room v := by
  rw [Walkable, inlinable, all_variant, Nat.add_le_add_iff_right, nesting_variant_le] at h
  exact ⟨h.1.1, h.1.2, h.2 d rfl⟩

lemma of_variantArray {items : List (Option VariantValue)} {d v}
    (h : Walkable (room + 1) (.variantArray items)) (hv : some ⟨some d, v⟩ ∈ items) :
    d.admitted = true ∧ Walkable room v := by
  rw [Walkable, inlinable, all_variantArray, Nat.add_le_add_iff_right,
    nesting_variantArray_le] at h
  exact ⟨all_eq_true.1 h.1.1 _ hv, h.1.2 _ hv, h.2 _ hv⟩

end Walkable

section

variable {order : ByteOrder} {field : FieldDesc → Decoder TypeCache PvField}
  {value : FieldDesc → Walker Unit} {room : ℕ}

lemma flattens_walkUnion {what variants} (h : ∀ d, Flattens (field d) (value d) (Walkable room))
    {α : Type} (none' : α) (some' : UnionItem → α) {Q : α → Prop}
    (hQ : ∀ u, Q (some' u) → u.selector = -1 ∨ Walkable room u.value) :
    Flattens (decodeSize order >>= fun
        | none => pure none'
        | some sel => decodeSelected what variants field sel.toInt32 >>= fun u => pure (some' u))
    (walkUnion order what variants value) Q := by
  refine Flattens.after (stateless_decodeSize order) fun sel => ?_
  cases sel with
  | none => exact Flattens.pure _
  | some sel => exact (flattens_selected h).map some' fun _ => hQ _

lemma flattens_walkLevel (h : ∀ d, Flattens (field d) (value d) (Walkable room))
    (hstruct : ∀ {n ms i r s s' v}, field (.struct n ms) i s = (.ok (v, r), s') →
      ∃ fs, v = .struct ⟨n, fs⟩) (d : FieldDesc) :
    Flattens (decodeLevel order field d) (walkLevel order value d) (Walkable (room + 1)) := by
  cases d with
  | scalar st =>
    have hskip : Flattens (decodeScalar order st) (onCache (advanceScalar order st))
        fun _ => True := Flattens.skip (stateless_decodeScalar st) advanceScalar_of_decodeScalar
    exact ((hskip.map (R := fun _ => True) _ fun _ _ => trivial).map _ fun _ _ => trivial)
  | scalarArray st =>
    refine Flattens.after (stateless_decodeSizeNonnull order _) fun n => ?_
    have hskip : Flattens (decodeTypedItems order n.toNat st)
        (onCache (advanceScalarArray order st n.toNat)) fun _ => True :=
      Flattens.skip (stateless_decodeTypedItems st n.toNat) advanceScalarArray_of_decode
    exact ((hskip.map (R := fun _ => True) _ fun _ _ => trivial).map _ fun _ _ => trivial)
  | struct n ms =>
    have hmember : ∀ m : Member, Flattens (field m.2 >>= fun v => pure (m.1, v)) (value m.2)
        fun f => Walkable room f.2 := fun m => (h m.2).map _ fun _ hf => hf
    exact (Flattens.each hmember ms).map _ fun _ hs => Walkable.struct_iff.1 hs
  | structArray n ms =>
    refine Flattens.after (stateless_decodeSizeNonnull order _) fun len => ?_
    have hitem : Flattens (field (.struct n ms) >>= fun v => pure (pushStructure v))
        (value (.struct n ms)) fun items => ∀ s, some s ∈ items → Walkable room (.struct s) := by
      refine (h _).map _ fun hrun hitems => ?_
      -- the element that the decoder pushes is the structure that it read
      obtain ⟨fs, rfl⟩ := hstruct hrun
      exact hitems _ (mem_singleton_self _)
    refine ((flattens_presence hitem).times len.toNat).map _ fun _ hv items hitems s hs => ?_
    exact hv.of_structArray (mem_flatten.2 ⟨items, hitems, hs⟩)
  | union n variants => exact flattens_walkUnion h _ _ fun u hu => hu.of_union
  | unionArray n variants =>
    refine Flattens.after (stateless_decodeSizeNonnull order _) fun len => ?_
    have hitem : Flattens (decodeUnionItem order variants field)
        (walkUnion order "union array" variants value)
        fun item => ∀ u, item = some u → Walkable room u.value :=
      flattens_walkUnion h _ _ fun u hu => Or.inr (hu u rfl)
    refine ((flattens_presence hitem).times len.toNat).map _ fun _ hv item hitem u hu => ?_
    exact hv.of_unionArray (hu ▸ hitem)
  | variant =>
    refine (flattens_any h).map _ fun _ hv d v hany => ?_
    rw [hany] at hv
    exact hv.of_variant
  | variantArray =>
    refine Flattens.after (stateless_decodeSizeNonnull order _) fun len => ?_
    refine ((flattens_presence (flattens_any h)).times len.toNat).map _
      fun _ hv item hitem d v hany => ?_
    exact hv.of_variantArray (hany ▸ hitem)

end

variable (order : ByteOrder)

/-- **The walk over a complete value agrees with the decoder**, as far as the room of the walk
goes; the decoder may have more. -/
theorem flattens_walkValuePresent : ∀ room room' d,
    Flattens (decodePvFieldAtDepth order room d) (walkValuePresent order room' d)
      (Walkable room') := by
  intro room
  induction room with
  | zero => exact fun _ _ => Flattens.fail _
  | succ room ih =>
    intro room' d
    cases room' with
    | zero => exact Flattens.false_elim fun _ h => Nat.not_succ_le_zero _ h.2
    | succ room' =>
      refine flattens_walkLevel (ih room') (fun {n ms i r s s' v} hrun => ?_) d
      have hshaped := (shaped_decodePvFieldAtDepth order room (.struct n ms)).2 i r s s' v
        not_false hrun not_false
      obtain ⟨fs, rfl, -⟩ := shaped_struct.1 hshaped
      exact ⟨fs, rfl⟩

/-! ### Partial values -/

lemma walkValueBitset_leaf {d} (hd : d.isStruct = false) (order : ByteOrder) (bs : BitSet)
    (room bit : ℕ) :
    walkValueBitset order bs d room bit =
      if room = 0 then fail .flattenNesting
      else if bs.get bit then walkValuePresent order room d
      else pure () := by
  cases d <;> first | rfl | simp [isStruct] at hd

lemma any_range_get (bs : BitSet) (bit n : ℕ) :
    ((range n).any fun k => bs.get (bit + k)) = bs.anyIn bit (bit + n) := by
  rw [Bool.eq_iff_iff, BitSet.anyIn_iff, any_eq_true]
  constructor
  · rintro ⟨k, hk, hget⟩
    exact ⟨bit + k, by omega, by have := mem_range.1 hk; omega, hget⟩
  · rintro ⟨j, h₁, h₂, hget⟩
    exact ⟨j - bit, mem_range.2 (by omega), by rwa [show bit + (j - bit) = j by omega]⟩

/-- **The walk over a partial value agrees with the decoder**, when the value is no deeper than the
walk goes: the decoder starts anew at every marked field. -/
theorem flattens_walkValueBitset (bs : BitSet) (d : FieldDesc) :
    ∀ room bit, Flattens (decodePvFieldWithBitsetCached order bs d bit)
      (walkValueBitset order bs d room bit) (Walkable room) := by
  induction d using members_induction
    (Q := fun ms => ∀ room bit, Flattens (decodeMembersWith (decodePvFieldCached order) bs ms bit)
      (walkMembersBitset order bs ms room bit) fun fs => ∀ f ∈ fs, Walkable room f.2) with
  | leaf d hd =>
    intro room bit
    rw [decodePvFieldWithBitsetCached, decodeWith_leaf hd, walkValueBitset_leaf hd]
    cases room with
    | zero => exact Flattens.false_elim fun _ h => Nat.not_succ_le_zero _ h.2
    | succ room =>
      exact (flattens_walkValuePresent order _ _ d).ite (Flattens.pure _)
  | nil => exact Flattens.pure []
  | cons name d ms hm hms room bit => exact Flattens.cons (name, ·) (hm room bit) (hms room _)
  | struct n ms ih =>
    intro room bit
    rw [decodePvFieldWithBitsetCached, decodeWith, walkValueBitset, any_range_get]
    cases room with
    | zero => exact Flattens.false_elim fun _ h => Nat.not_succ_le_zero _ h.2
    | succ room =>
      exact (flattens_walkValuePresent order _ _ _).ite
        (((ih room _).map _ fun _ hs => Walkable.struct_iff.1 hs).ite (Flattens.pure _))

/-! ### Values without self-describing parts -/

lemma descContainsVariant_members {ms} :
    descContainsVariantMembers ms = false ↔ ∀ m ∈ ms, descContainsVariant m.2 = false := by
  induction ms with
  | nil => simp [descContainsVariantMembers]
  | cons m ms ih => simp [descContainsVariantMembers, ih]

lemma stateless_decodePvFieldAtDepth : ∀ room d,
    descContainsVariant d = false → Stateless (decodePvFieldAtDepth order room d) := by
  intro room
  induction room with
  | zero => exact fun _ _ => Stateless.fail _
  | succ room ih =>
    intro d hd
    -- the chosen variant is one of those that the descriptor lists
    have hselected : ∀ what {variants : List Member} sel,
        descContainsVariantMembers variants = false →
        Stateless (decodeSelected what variants (decodePvFieldAtDepth order room) sel) := by
      intro what variants sel hv
      unfold decodeSelected
      cases hsel : selectVariant variants sel with
      | none => exact Stateless.fail _
      | some m =>
        have hm := mem_of_getElem? (selectVariant_eq_some hsel).2
        exact (ih _ (descContainsVariant_members.1 hv _ hm)).bind fun _ => Stateless.pure _
    have hpresence : ∀ {α : Type} what (absent : α) {p : Decoder TypeCache α}, Stateless p →
        Stateless (decodePresence what absent p) := fun _ _ _ hp =>
      stateless_getU8.bind fun _ => (Stateless.pure _).ite (hp.ite (Stateless.fail _))
    cases d with
    | scalar st =>
      exact ((stateless_decodeScalar st).bind fun _ => Stateless.pure _).bind
        fun _ => Stateless.pure _
    | scalarArray st =>
      exact (stateless_decodeSizeNonnull order _).bind fun n =>
        (stateless_decodeTypedScalarArray st n.toNat).bind fun _ => Stateless.pure _
    | struct n ms =>
      refine Stateless.bind (Stateless.each fun m hm => ?_) fun _ => Stateless.pure _
      exact (ih m.2 (descContainsVariant_members.1 hd m hm)).bind fun _ => Stateless.pure _
    | structArray n ms =>
      exact (stateless_decodeSizeNonnull order _).bind fun len =>
        ((hpresence _ _ ((ih (.struct n ms) hd).bind fun _ => Stateless.pure _)).times
          len.toNat).bind fun _ => Stateless.pure _
    | union n variants =>
      refine (stateless_decodeSize order).bind fun sel => ?_
      cases sel with
      | none => exact Stateless.pure _
      | some sel => exact (hselected _ _ hd).bind fun _ => Stateless.pure _
    | unionArray n variants =>
      refine (stateless_decodeSizeNonnull order _).bind fun len => ?_
      refine Stateless.bind (Stateless.times (hpresence _ _ ?_) len.toNat)
        fun _ => Stateless.pure _
      refine (stateless_decodeSize order).bind fun sel => ?_
      cases sel with
      | none => exact Stateless.pure _
      | some sel => exact (hselected _ _ hd).bind fun _ => Stateless.pure _
    | variant => cases hd
    | variantArray => cases hd

lemma stateless_decodeWith (bs : BitSet) (d : FieldDesc) : descContainsVariant d = false → ∀ bit,
      Stateless (decodePvFieldWithBitsetCached order bs d bit) := by
  induction d using members_induction
    (Q := fun ms => descContainsVariantMembers ms = false → ∀ bit,
      Stateless (decodeMembersWith (decodePvFieldCached order) bs ms bit)) with
  | leaf d hd =>
    intro hnone bit
    rw [decodePvFieldWithBitsetCached, decodeWith_leaf hd]
    exact (stateless_decodePvFieldAtDepth order _ d hnone).ite (Stateless.pure _)
  | nil => exact Stateless.pure _
  | cons name d ms hm hms hnone bit =>
    obtain ⟨hd, hrest⟩ := Bool.or_eq_false_iff.1 hnone
    exact (hm hd bit).bind fun _ => (hms hrest _).bind fun _ => Stateless.pure _
  | struct n ms ih =>
    intro hnone bit
    exact (stateless_decodePvFieldAtDepth order _ _ hnone).ite
      (((ih hnone _).bind fun _ => Stateless.pure _).ite (Stateless.pure _))

/-! ### What is put in the place of the value -/

/-- **Flattening a value**: the cache is that of the decoder afterwards, and with what is put in the
place of the value, or with the value as it is, it is decoded without a cache. -/
theorem flattenWith_spec {α : Type} {p : Decoder TypeCache α} {w} {Q : α → Prop}
    (h : Flattens p w Q) (front : List UInt8) {i r} {cache cache' : TypeCache} {a}
    (hp : p i cache = (.ok (a, r), cache')) (ha : Q a) :
    ∃ stop out new, flattenWith w (front ++ i) front.length cache = (.ok (stop, out), cache') ∧
      Reads p new empty a empty ∧
      (stop + r.length = (front ++ i).length ∧ (front ++ i).drop stop = r) ∧
      (out = some new ∨ out = none ∧ i = new ++ r) := by
  have hat : (ValueCow.new (front ++ i) front.length).At i [] :=
    ⟨front, rfl, le_rfl, by simp [ValueCow.new]⟩
  obtain ⟨cow, hw, hfaith, hsrc, new, hnew, hreads⟩ := h _ _ _ _ _ _ _ hp ha hat
  have hclean : cow.Faithful front.length := hfaith _ fun _ => ⟨rfl, rfl⟩
  obtain ⟨front', hfront, hflushed, hdone⟩ := hnew.exists_front
  change cow.src = front ++ i at hsrc
  rw [nil_append] at hdone
  rw [hsrc] at hfront
  have hstop : (front ++ i).length - r.length = front'.length := by
    rw [hfront, length_append, Nat.add_sub_cancel]
  refine ⟨front'.length, cow.finish front'.length, new, ?_, hreads, ⟨?_, ?_⟩, ?_⟩
  · rw [flattenWith, drop_left, hw]
    simp only [hstop]
  · rw [hfront, length_append]
  · rw [hfront, drop_left]
  · rw [ValueCow.finish]
    split_ifs with hdirty
    · left
      rw [hsrc, slice, hfront, take_left, hdone]
    · right
      obtain ⟨hnil, hstart⟩ := hclean (Bool.eq_false_iff.2 hdirty)
      rw [hstart] at hflushed hdone
      refine ⟨rfl, ?_⟩
      have hdrop := congrArg (drop front.length) hfront
      rwa [drop_left, drop_append_of_le_length hflushed, ← nil_append (front'.drop _),
        ← hnil, ← hdone] at hdrop

/-- An `any` that defines slot 1 as a byte, with the value 7. -/
def definedAny : List UInt8 := [0xFD, 0x01, 0x00, 0x20, 0x07]

/-- `d` inside `n` structures. -/
def buried : ℕ → FieldDesc → FieldDesc
  | 0, d => d
  | n + 1, d => .struct "" [("", buried n d)]

end Pva
