/-
**Readers over a byte string, with a state that outlives a failed read.**

A decoder of a wire format walks a buffer from left to right, gives up at the first fault, and on
the way may write to a table that its caller keeps.  The table is what makes the ordinary parser
monad the wrong one: when a decode fails half way, what it had already written stays written, and
the next decode starts from it.  So the state is returned beside the outcome, not inside it.

A cursor is represented by what is left to read.  Its position in a buffer `src` is then
`src.length` minus the length of what is left, and seeking backwards is putting an earlier
remainder back.

Main results:

* `ByteReader.Reads.bind`, `ByteReader.Reads.times` — reads compose by concatenation of the bytes
  they read;
* `ByteReader.Local.bind`, `ByteReader.Stateless.bind`, `ByteReader.Stateless.times`,
  `ByteReader.Stateless.each` — so do locality and statelessness;
* `ByteReader.Stateless.bind_eq_ok` — peeling a first step off a run that does not look at the state;
* `ByteReader.Keeps.bind`, `ByteReader.Keeps.times`, `ByteReader.Keeps.calls` — the rules for pre-
  and postconditions.
-/

import Mathlib

set_option autoImplicit false

/-- A reader: from the bytes that are left and the state it computes an outcome — a value with
the bytes that are left after it, or a fault — and the state afterwards. -/
def ByteReader (ε σ α : Type) : Type := List UInt8 → σ → Except ε (α × List UInt8) × σ

namespace ByteReader

open List

variable {ε σ α β γ : Type}

/-! ### The monad -/

instance : Monad (ByteReader ε σ) where
  pure a := fun i s => (.ok (a, i), s)
  bind p f := fun i s =>
    match p i s with
    | (.ok (a, r), s') => f a r s'
    | (.error e, s') => (.error e, s')

lemma pure_apply (a : α) (i : List UInt8) (s : σ) :
    (pure a : ByteReader ε σ α) i s = (.ok (a, i), s) := rfl

lemma bind_apply (p : ByteReader ε σ α) (f : α → ByteReader ε σ β) (i : List UInt8) (s : σ) :
    (p >>= f) i s =
      match p i s with
      | (.ok (a, r), s') => f a r s'
      | (.error e, s') => (.error e, s') := rfl

variable {p : ByteReader ε σ α} {f : α → ByteReader ε σ β} {i r : List UInt8} {s s' : σ} {a : α}

lemma bind_of_ok (h : p i s = (.ok (a, r), s')) :
    (p >>= f) i s = f a r s' := by
  rw [bind_apply, h]

lemma bind_eq_ok {b} :
    (p >>= f) i s = (.ok (b, r), s') ↔
      ∃ a i₁ s₁, p i s = (.ok (a, i₁), s₁) ∧ f a i₁ s₁ = (.ok (b, r), s') := by
  rw [bind_apply]
  constructor
  · intro h
    match hp : p i s with
    | (.ok (a, i₁), s₁) => exact ⟨a, i₁, s₁, rfl, by simpa [hp] using h⟩
    | (.error e, s₁) => simp [hp] at h
  · rintro ⟨a, i₁, s₁, hp, hf⟩
    rw [hp]
    exact hf

lemma bind_eq_error {e} :
    (p >>= f) i s = (.error e, s') ↔ p i s = (.error e, s') ∨
      ∃ a i₁ s₁, p i s = (.ok (a, i₁), s₁) ∧ f a i₁ s₁ = (.error e, s') := by
  rw [bind_apply]
  match hp : p i s with
  | (.ok (a, i₁), s₁) => simp
  | (.error e₁, s₁) => simp

lemma pure_eq_ok {b} :
    (pure a : ByteReader ε σ α) i s = (.ok (b, r), s') ↔ a = b ∧ i = r ∧ s = s' := by
  simp [pure_apply, and_assoc]

lemma bind_assoc' (p : ByteReader ε σ α) (f : α → ByteReader ε σ β) (g : β → ByteReader ε σ γ) :
    (p >>= f) >>= g = p >>= fun a => f a >>= g := by
  funext i s
  simp only [bind_apply]
  match p i s with
  | (.ok (a, r), s') => rfl
  | (.error e, s') => rfl

@[simp] lemma pure_bind' (a : α) (f : α → ByteReader ε σ β) : (pure a >>= f) = f a := rfl

/-! ### Primitives -/

/-- Give up with the fault `e`. -/
def fail (e : ε) : ByteReader ε σ α := fun _ s => (.error e, s)

/-- What is left to read: the position of the cursor. -/
def rest : ByteReader ε σ (List UInt8) := fun i s => (.ok (i, i), s)

/-- Move the cursor to where `r` was left to read. -/
def seek (r : List UInt8) : ByteReader ε σ Unit := fun _ s => (.ok ((), r), s)

def get : ByteReader ε σ σ := fun i s => (.ok (s, i), s)

def modify (f : σ → σ) : ByteReader ε σ Unit := fun i s => (.ok ((), i), f s)

/-- The next byte, or the fault `e` at the end of the input. -/
def byte (e : ε) : ByteReader ε σ UInt8 := fun i s =>
  match i with
  | [] => (.error e, s)
  | b :: r => (.ok (b, r), s)

/-- The next `n` bytes, or the fault `e` if there are fewer. -/
def bytes (e : ε) (n : ℕ) : ByteReader ε σ (List UInt8) := fun i s =>
  if n ≤ i.length then (.ok (i.take n, i.drop n), s) else (.error e, s)

/-- Run a reader on a part of the state: `get` finds the part, `put` puts it back. -/
def zoom {τ : Type} (view : τ → σ) (put : σ → τ → τ) (p : ByteReader ε σ α) : ByteReader ε τ α :=
  fun i t => ((p i (view t)).1, put (p i (view t)).2 t)

def mapFault {ε' : Type} (f : ε → ε') (p : ByteReader ε σ α) : ByteReader ε' σ α := fun i s =>
  match p i s with
  | (.ok x, s') => (.ok x, s')
  | (.error e, s') => (.error (f e), s')

variable (e : ε) {c₂ : List UInt8}

@[simp] lemma fail_apply (i : List UInt8) (s : σ) :
    (fail e : ByteReader ε σ α) i s = (.error e, s) := rfl

@[simp] lemma rest_apply (i : List UInt8) (s : σ) :
    (rest : ByteReader ε σ _) i s = (.ok (i, i), s) := rfl

@[simp] lemma seek_apply (r i : List UInt8) (s : σ) :
    (seek r : ByteReader ε σ _) i s = (.ok ((), r), s) := rfl

@[simp] lemma get_apply (i : List UInt8) (s : σ) :
    (get : ByteReader ε σ _) i s = (.ok (s, i), s) := rfl

@[simp] lemma modify_apply (f : σ → σ) (i : List UInt8) (s : σ) :
    (modify f : ByteReader ε σ _) i s = (.ok ((), i), f s) := rfl

@[simp] lemma byte_cons (b : UInt8) (r : List UInt8) (s : σ) :
    byte e (b :: r) s = (.ok (b, r), s) := rfl

@[simp] lemma byte_nil (s : σ) : (byte e) [] s = (.error e, s) := rfl

lemma byte_eq_ok {e : ε} {b} :
    byte e i s = (.ok (b, r), s') ↔ i = b :: r ∧ s = s' := by
  cases i <;> simp [and_assoc]

lemma bytes_append (c r : List UInt8) (s : σ) : bytes e c.length (c ++ r) s = (.ok (c, r), s) := by
  simp [bytes]

variable {c : List UInt8}

lemma bytes_eq_ok {e : ε} {n} :
    bytes e n i s = (.ok (c, r), s') ↔ i = c ++ r ∧ c.length = n ∧ s = s' := by
  constructor
  · intro h
    by_cases hn : n ≤ i.length
    · simp only [bytes, hn, if_true, Prod.mk.injEq, Except.ok.injEq] at h
      obtain ⟨⟨rfl, rfl⟩, rfl⟩ := h
      simp [hn]
    · simp [bytes, hn] at h
  · rintro ⟨rfl, rfl, rfl⟩
    exact bytes_append e c r s

lemma zoom_eq_ok {τ : Type} {view put} {t : τ} (h : p i (view t) = (.ok (a, r), s')) :
    zoom view put p i t = (.ok (a, r), put s' t) := by
  simp [zoom, h]

lemma mapFault_eq_ok {ε' : Type} {f : ε → ε'} :
    mapFault f p i s = (.ok (a, r), s') ↔ p i s = (.ok (a, r), s') := by
  unfold mapFault
  match h : p i s with
  | (.ok x, s₁) => simp
  | (.error e, s₁) => simp

/-! ### Loops -/

/-- Run a reader `n` times and collect what it returns: `for _ in 0..n`. -/
def times (p : ByteReader ε σ α) : ℕ → ByteReader ε σ (List α)
  | 0 => pure []
  | n + 1 => do
      let a ← p
      let as ← times p n
      pure (a :: as)

/-- Run a reader once for each item of a list and collect what it returns: `for x in xs`. -/
def each (p : β → ByteReader ε σ α) : List β → ByteReader ε σ (List α)
  | [] => pure []
  | x :: xs => do
      let a ← p x
      let as ← each p xs
      pure (a :: as)

lemma times_map (p : ByteReader ε σ α) (f : α → β) (n : ℕ) :
    times (p >>= fun a => pure (f a)) n = times p n >>= fun as => pure (as.map f) := by
  induction n with
  | zero => rfl
  | succ n ih =>
    simp only [times, ih, bind_assoc', pure_bind', map_cons]

/-! ### What a reader reads -/

/-- From the state `s`, `p` reads exactly `c` off any input that starts with it, returns `a` and
leaves the state `s'`. -/
def Reads (p : ByteReader ε σ α) (c : List UInt8) (s : σ) (a : α) (s' : σ) : Prop :=
  ∀ r, p (c ++ r) s = (.ok (a, r), s')

lemma Reads.pure (a : α) (s : σ) : Reads (pure a : ByteReader ε σ α) [] s a s := fun _ => rfl

variable {c₁ : List UInt8}

lemma Reads.bind {s₁ s₂ b} (h₁ : Reads p c₁ s a s₁) (h₂ : Reads (f a) c₂ s₁ b s₂) :
    Reads (p >>= f) (c₁ ++ c₂) s b s₂ := by
  intro r
  rw [append_assoc, bind_of_ok (h₁ (c₂ ++ r))]
  exact h₂ r

lemma Reads.map (f : α → β) (h : Reads p c s a s') :
    Reads (p >>= fun x => Pure.pure (f x)) c s (f a) s' := by
  intro r
  rw [bind_of_ok (h r)]
  rfl

lemma Reads.byte (b : UInt8) (s : σ) : Reads (byte e) [b] s b s := fun _ => rfl

lemma Reads.bytes (c : List UInt8) (s : σ) : Reads (bytes e c.length) c s c s :=
  fun r => bytes_append e c r s

/-- A counted loop reads the concatenation of what its turns read, when every turn leaves the
state as it was: `f` says what is returned for an item, and `g` how the item is written. -/
lemma Reads.timesMap {f g} {xs : List β} (h : ∀ x ∈ xs, Reads p (g x) s (f x) s) :
    Reads (times p xs.length) (xs.flatMap g) s (xs.map f) s := by
  induction xs with
  | nil => exact Reads.pure [] s
  | cons x xs ih =>
    have hx := h x (mem_cons_self ..)
    have hxs := ih fun y hy => h y (mem_cons_of_mem x hy)
    exact hx.bind (hxs.map (f x :: ·))

lemma Reads.times {g xs} (h : ∀ x ∈ xs, Reads p (g x) s x s) :
    Reads (times p xs.length) (xs.flatMap g) s xs s := by
  have hmap := Reads.timesMap (f := id) h
  rwa [map_id] at hmap

/-! ### What a reader refuses -/

/-- From the state `s`, `p` fails on every input that starts with `c`. -/
def Refuses (p : ByteReader ε σ α) (c : List UInt8) (s : σ) : Prop :=
  ∀ r, ∃ e, (p (c ++ r) s).1 = .error e

lemma Refuses.fail (c : List UInt8) (s : σ) :
    Refuses (fail e : ByteReader ε σ α) c s := fun _ => ⟨e, rfl⟩

lemma Refuses.bind (h : Refuses p c₁ s) (f : α → ByteReader ε σ β) (c₂ : List UInt8) :
    Refuses (p >>= f) (c₁ ++ c₂) s := by
  intro r
  obtain ⟨e, he⟩ := h (c₂ ++ r)
  refine ⟨e, ?_⟩
  rw [append_assoc, bind_apply]
  match hp : p (c₁ ++ (c₂ ++ r)) s with
  | (.ok x, s') => simp [hp] at he
  | (.error e', s') => simpa [hp] using he

lemma Reads.bind_refuses {s₁} (h₁ : Reads p c₁ s a s₁) (h₂ : Refuses (f a) c₂ s₁) :
    Refuses (p >>= f) (c₁ ++ c₂) s := by
  intro r
  rw [append_assoc, bind_of_ok (h₁ (c₂ ++ r))]
  exact h₂ r

lemma Refuses.not_ok (h : Refuses p c s) {r'} :
    (p (c ++ r) s).1 ≠ .ok (a, r') := by
  obtain ⟨e, he⟩ := h r
  rw [he]
  simp

/-! ### Locality -/

/-- A successful run consumes a prefix of its input and depends on nothing behind it. -/
def Local (p : ByteReader ε σ α) : Prop :=
  ∀ (i r : List UInt8) (s s' : σ) (a : α), p i s = (.ok (a, r), s') →
    ∃ c, i = c ++ r ∧ Reads p c s a s'

lemma Local.pure (a : α) : Local (Pure.pure a : ByteReader ε σ α) := by
  intro i r s s' b h
  obtain ⟨rfl, rfl, rfl⟩ := pure_eq_ok.1 h
  exact ⟨[], rfl, Reads.pure a s⟩

lemma Local.fail : Local (fail e : ByteReader ε σ α) := by
  intro i r s s' b h
  simp at h

lemma Local.bind (hp : Local p) (hf : ∀ a, Local (f a)) :
    Local (p >>= f) := by
  intro i r s s' b h
  obtain ⟨a, i₁, s₁, h₁, h₂⟩ := bind_eq_ok.1 h
  obtain ⟨c₁, rfl, r₁⟩ := hp _ _ _ _ _ h₁
  obtain ⟨c₂, rfl, r₂⟩ := hf a _ _ _ _ _ h₂
  exact ⟨c₁ ++ c₂, by simp, r₁.bind r₂⟩

lemma Local.get : Local (get : ByteReader ε σ σ) := by
  intro i r s s' a h
  obtain ⟨⟨rfl, rfl⟩, rfl⟩ := h
  exact ⟨[], rfl, fun _ => rfl⟩

lemma Local.modify (f : σ → σ) : Local (modify f : ByteReader ε σ Unit) := by
  intro i r s s' a h
  obtain ⟨rfl, rfl⟩ := h
  exact ⟨[], rfl, fun _ => rfl⟩

/-! ### Readers that do not look at the state -/

/-- A successful run leaves the state as it was, and reads the same off a prefix of its input in any
other state. -/
def Stateless (p : ByteReader ε σ α) : Prop :=
  ∀ (i r : List UInt8) (s s' : σ) (a : α), p i s = (.ok (a, r), s') →
    s' = s ∧ ∃ c, i = c ++ r ∧ ∀ t, Reads p c t a t

lemma Stateless.toLocal (h : Stateless p) : Local p := by
  intro i r s s' a hp
  obtain ⟨rfl, c, hc, hreads⟩ := h i r s s' a hp
  exact ⟨c, hc, hreads s'⟩

lemma Stateless.pure (a : α) : Stateless (Pure.pure a : ByteReader ε σ α) := by
  intro i r s s' b h
  obtain ⟨rfl, rfl, rfl⟩ := pure_eq_ok.1 h
  exact ⟨rfl, [], rfl, fun t => Reads.pure a t⟩

lemma Stateless.fail : Stateless (fail e : ByteReader ε σ α) := by
  intro i r s s' b h
  simp at h

lemma Stateless.bind (hp : Stateless p) (hf : ∀ a, Stateless (f a)) :
    Stateless (p >>= f) := by
  intro i r s s' b h
  obtain ⟨a, i₁, s₁, h₁, h₂⟩ := bind_eq_ok.1 h
  obtain ⟨rfl, c₁, rfl, r₁⟩ := hp _ _ _ _ _ h₁
  obtain ⟨rfl, c₂, rfl, r₂⟩ := hf a _ _ _ _ _ h₂
  exact ⟨rfl, c₁ ++ c₂, by simp, fun t => (r₁ t).bind (r₂ t)⟩

variable {q : ByteReader ε σ α}

lemma Stateless.ite {c : Prop} [Decidable c] (hp : Stateless p) (hq : Stateless q) :
    Stateless (if c then p else q) := by
  split
  · exact hp
  · exact hq

lemma Stateless.byte : Stateless (byte e : ByteReader ε σ UInt8) := by
  intro i r s s' b h
  obtain ⟨rfl, rfl⟩ := byte_eq_ok.1 h
  exact ⟨rfl, [b], rfl, fun t => Reads.byte e b t⟩

lemma Stateless.bytes (n : ℕ) : Stateless (bytes e n : ByteReader ε σ _) := by
  intro i r s s' c h
  obtain ⟨rfl, rfl, rfl⟩ := bytes_eq_ok.1 h
  exact ⟨rfl, c, rfl, fun t => Reads.bytes e c t⟩

lemma Stateless.times (hp : Stateless p) : ∀ n, Stateless (times p n)
  | 0 => Stateless.pure []
  | n + 1 => hp.bind fun a => (Stateless.times hp n).bind fun as => Stateless.pure (a :: as)

lemma Stateless.each {p : β → ByteReader ε σ α} {xs} (hp : ∀ x ∈ xs, Stateless (p x)) :
    Stateless (each p xs) := by
  induction xs with
  | nil => exact Stateless.pure []
  | cons x xs ih =>
    obtain ⟨hx, hxs⟩ := forall_mem_cons.1 hp
    exact hx.bind fun a => (ih hxs).bind fun as => Stateless.pure (a :: as)

lemma Stateless.mapFault {ε' : Type} {f : ε → ε'} (hp : Stateless p) :
    Stateless (mapFault f p) := by
  intro i r s s' a h
  obtain ⟨hs, c, hc, hreads⟩ := hp i r s s' a (mapFault_eq_ok.1 h)
  exact ⟨hs, c, hc, fun t rest => mapFault_eq_ok.2 (hreads t rest)⟩

lemma Stateless.bind_eq_ok (hp : Stateless p) {b} :
    (p >>= f) i s = (.ok (b, r), s') ↔
      ∃ c a left, i = c ++ left ∧ (∀ t, Reads p c t a t) ∧ f a left s = (.ok (b, r), s') := by
  constructor
  · intro h
    obtain ⟨a, i₁, s₁, h₁, h₂⟩ := ByteReader.bind_eq_ok.1 h
    obtain ⟨rfl, c, rfl, hreads⟩ := hp _ _ _ _ _ h₁
    exact ⟨c, a, i₁, rfl, hreads, h₂⟩
  · rintro ⟨c, a, left, rfl, hreads, h⟩
    rw [bind_of_ok (hreads s left), h]

/-! ### Pre- and postconditions -/

/-- Started in a state with `I`, `p` ends in one — also when it fails — and whatever it returns
has `Q`. -/
def Keeps (I : σ → Prop) (p : ByteReader ε σ α) (Q : α → Prop) : Prop :=
  ∀ i s, I s → I (p i s).2 ∧ ∀ a r, (p i s).1 = .ok (a, r) → Q a

variable {I : σ → Prop} {Q : α → Prop} {R : β → Prop}

lemma Keeps.pure (h : Q a) : Keeps I (Pure.pure a : ByteReader ε σ α) Q := by
  intro i s hs
  refine ⟨hs, ?_⟩
  rintro b r hb
  simp only [pure_apply, Except.ok.injEq, Prod.mk.injEq] at hb
  exact hb.1 ▸ h

lemma Keeps.fail : Keeps I (fail e : ByteReader ε σ α) Q :=
  fun _ _ hs => ⟨hs, fun _ _ h => by simp at h⟩

lemma Keeps.bind (hp : Keeps I p Q) (hf : ∀ a, Q a → Keeps I (f a) R) :
    Keeps I (p >>= f) R := by
  intro i s hs
  have h := hp i s hs
  rw [bind_apply]
  match hpis : p i s with
  | (.ok (a, r), s') =>
    rw [hpis] at h
    exact hf a (h.2 a r rfl) r s' h.1
  | (.error e, s') =>
    rw [hpis] at h
    exact ⟨h.1, fun _ _ he => by simp at he⟩

lemma Keeps.mono {Q' : α → Prop} (hp : Keeps I p Q) (h : ∀ a, Q a → Q' a) : Keeps I p Q' :=
  fun i s hs => ⟨(hp i s hs).1, fun a r ha => h a ((hp i s hs).2 a r ha)⟩

lemma Keeps.ite {c : Prop} [Decidable c] (hp : c → Keeps I p Q) (hq : ¬ c → Keeps I q Q) :
    Keeps I (if c then p else q) Q := by
  split
  · exact hp ‹_›
  · exact hq ‹_›

lemma Keeps.of_state_eq (h : ∀ i s, (p i s).2 = s) :
    Keeps I p fun _ => True :=
  fun i s hs => ⟨by rw [h]; exact hs, fun _ _ _ => trivial⟩

lemma Keeps.bytes (n : ℕ) : Keeps I (bytes e n : ByteReader ε σ _) fun c => c.length = n := by
  intro i s hs
  by_cases h : n ≤ i.length
  · refine ⟨by simpa [ByteReader.bytes, h] using hs, fun c r hc => ?_⟩
    have hok : ByteReader.bytes e n i s = (.ok (c, r), s) := by
      simpa [ByteReader.bytes, h] using hc
    exact (bytes_eq_ok.1 hok).2.1
  · exact ⟨by simpa [ByteReader.bytes, h] using hs, fun c r hc => by
      simp [ByteReader.bytes, h] at hc⟩

lemma Keeps.times (hp : Keeps I p Q) :
    ∀ n, Keeps I (times p n) fun as => as.length = n ∧ ∀ a ∈ as, Q a
  | 0 => Keeps.pure ⟨rfl, by simp⟩
  | n + 1 => hp.bind fun a ha => (Keeps.times hp n).bind fun as has =>
      Keeps.pure ⟨by simp [has.1], forall_mem_cons.2 ⟨ha, has.2⟩⟩

/-! ### Runs that leave no mark -/

variable {M : σ → Prop}

/-- `p` takes no mark away, and whatever a run returns that starts and ends without a mark has
`Q`. -/
def Clean (M : σ → Prop) (p : ByteReader ε σ α) (Q : α → Prop) : Prop :=
  (Keeps M p fun _ => True) ∧
    ∀ i r s s' a, ¬ M s → p i s = (.ok (a, r), s') → ¬ M s' → Q a

lemma Clean.of_keeps (h : ∀ I : σ → Prop, Keeps I p Q) : Clean M p Q := by
  refine ⟨(h M).mono fun _ _ => trivial, fun i r s s' a _ hp _ => ?_⟩
  exact (h (fun _ => True) i s trivial).2 a r (by rw [hp])

lemma Clean.mono {Q' : α → Prop} (hp : Clean M p Q) (h : ∀ a, Q a → Q' a) : Clean M p Q' :=
  ⟨hp.1, fun i r s s' a hs hr hs' => h a (hp.2 i r s s' a hs hr hs')⟩

lemma Clean.pure (h : Q a) : Clean M (Pure.pure a : ByteReader ε σ α) Q :=
  Clean.of_keeps fun _ => Keeps.pure h

lemma Clean.fail : Clean M (fail e : ByteReader ε σ α) Q :=
  Clean.of_keeps fun _ => Keeps.fail e

lemma Clean.unmarked (hp : Clean M p Q) {o} (h : p i s = (o, s')) (hs' : ¬ M s')
    : ¬ M s := by
  intro hs
  have hkeep := (hp.1 i s hs).1
  rw [h] at hkeep
  exact hs' hkeep

lemma Clean.bind (hp : Clean M p Q) (hf : ∀ a, Clean M (f a) fun b => Q a → R b) :
    Clean M (p >>= f) R := by
  refine ⟨hp.1.bind fun a _ => (hf a).1, fun i r s s' b hs hr hs' => ?_⟩
  obtain ⟨a, i₁, s₁, h₁, h₂⟩ := bind_eq_ok.1 hr
  have hs₁ : ¬ M s₁ := (hf a).unmarked h₂ hs'
  exact (hf a).2 i₁ r s₁ s' b hs₁ h₂ hs' (hp.2 i i₁ s s₁ a hs h₁ hs₁)

lemma Clean.map (f : α → β) (hp : Clean M p Q) (h : ∀ a, Q a → R (f a)) :
    Clean M (p >>= fun x => Pure.pure (f x)) R :=
  hp.bind fun a => Clean.pure (h a)

lemma Clean.times (hp : Clean M p Q) :
    ∀ n, Clean M (times p n) fun as => as.length = n ∧ ∀ a ∈ as, Q a
  | 0 => Clean.pure ⟨rfl, by simp⟩
  | n + 1 => hp.bind fun a => (Clean.times hp n).map (a :: ·) fun as has ha =>
      ⟨by simp [has.1], forall_mem_cons.2 ⟨ha, has.2⟩⟩

lemma Clean.each {p : β → ByteReader ε σ α} {S : β → α → Prop} (hp : ∀ x, Clean M (p x) (S x)) :
    ∀ xs, Clean M (each p xs) fun as => Forall₂ S xs as
  | [] => Clean.pure Forall₂.nil
  | x :: xs => (hp x).bind fun a => (Clean.each hp xs).map (a :: ·) fun _ has ha =>
      Forall₂.cons ha has

lemma Clean.and_keeps {Q' : α → Prop} (hp : Clean M p Q) (hI : ∀ s, ¬ M s → I s)
    (hQ : Keeps I p Q') : Clean M p fun a => Q a ∧ Q' a := by
  refine ⟨hp.1, fun i r s s' a hs hr hs' => ⟨hp.2 i r s s' a hs hr hs', ?_⟩⟩
  exact (hQ i s (hI s hs)).2 a r (by rw [hr])

/-! ### What a reader may answer -/

/-- Fed an input that starts with `c`, in a state with `I`, `p` ends in a state with `I`; it may
fail, but what it returns has `Q`, and then exactly `c` was consumed. -/
def Delivers (I : σ → Prop) (p : ByteReader ε σ α) (c : List UInt8) (Q : α → Prop) : Prop :=
  ∀ r s, I s → I (p (c ++ r) s).2 ∧ ∀ a r', (p (c ++ r) s).1 = .ok (a, r') → Q a ∧ r' = r

lemma Delivers.fail (c : List UInt8) : Delivers I (fail e : ByteReader ε σ α) c Q :=
  fun _ _ hs => ⟨hs, fun _ _ h => by simp at h⟩

lemma Delivers.of_reads (h : ∀ s, Reads p c s a s) (hQ : Q a) :
    Delivers I p c Q := by
  intro r s hs
  rw [h s r]
  refine ⟨hs, fun b r' hb => ?_⟩
  simp only [Except.ok.injEq, Prod.mk.injEq] at hb
  exact ⟨hb.1 ▸ hQ, hb.2.symm⟩

lemma Delivers.congr {c'} (h : ∀ r s, p (c ++ r) s = q (c' ++ r) s) (hq : Delivers I q c' Q)
    : Delivers I p c Q := by
  intro r s hs
  rw [h]
  exact hq r s hs

lemma Delivers.pure (h : Q a) : Delivers I (Pure.pure a : ByteReader ε σ α) [] Q :=
  Delivers.of_reads (fun s => Reads.pure a s) h

lemma Delivers.bind (hp : Delivers I p c₁ Q) (hf : ∀ a, Q a → Delivers I (f a) c₂ R) :
    Delivers I (p >>= f) (c₁ ++ c₂) R := by
  intro r s hs
  have h := hp (c₂ ++ r) s hs
  rw [append_assoc, bind_apply]
  match hpis : p (c₁ ++ (c₂ ++ r)) s with
  | (.ok (a, r₁), s') =>
    rw [hpis] at h
    obtain ⟨ha, rfl⟩ := h.2 a r₁ rfl
    exact hf a ha r s' h.1
  | (.error e, s') =>
    rw [hpis] at h
    exact ⟨h.1, fun _ _ he => by simp at he⟩

lemma Delivers.bind_nil (hp : Delivers I p [] Q) (hf : ∀ a, Q a → Delivers I (f a) c R) :
    Delivers I (p >>= f) c R :=
  hp.bind hf

lemma Delivers.modify {f} (h : ∀ s, I s → I (f s)) :
    Delivers I (modify f : ByteReader ε σ Unit) [] fun _ => True := by
  intro r s hs
  refine ⟨h s hs, fun a r' ha => ⟨trivial, ?_⟩⟩
  simp only [modify_apply, nil_append, Except.ok.injEq, Prod.mk.injEq, true_and] at ha
  exact ha.symm

lemma Delivers.map (f : α → β) (hp : Delivers I p c Q) (h : ∀ a, Q a → R (f a)) :
    Delivers I (p >>= fun x => Pure.pure (f x)) c R := by
  have hb := hp.bind fun a ha => Delivers.pure (ε := ε) (I := I) (h a ha)
  rwa [append_nil] at hb

/-! ### Calls that share a state -/

/-- Run readers one after another, each on an input of its own; only the state is handed on. -/
def calls {ι : Type} (p : ι → ByteReader ε σ α) :
    List (ι × List UInt8) → σ → List (Except ε (α × List UInt8)) × σ
  | [], s => ([], s)
  | (x, i) :: xs, s =>
      ((p x i s).1 :: (calls p xs (p x i s).2).1, (calls p xs (p x i s).2).2)

/-- **The invariant rule for a run of calls**: what every call keeps holds after all of them, and
what every call promises of its value holds of every value that was returned. -/
theorem Keeps.calls {ι : Type} {p : ι → ByteReader ε σ α} (hp : ∀ x, Keeps I (p x) Q)
    (xs : List (ι × List UInt8)) :
    ∀ s, I s → I (calls p xs s).2 ∧ ∀ a r, .ok (a, r) ∈ (calls p xs s).1 → Q a := by
  induction xs with
  | nil =>
    intro s hs
    exact ⟨hs, fun a r h => absurd h (not_mem_nil)⟩
  | cons x xs ih =>
    intro s hs
    have hx := hp x.1 x.2 s hs
    have hxs := ih _ hx.1
    refine ⟨hxs.1, fun a r h => ?_⟩
    rcases mem_cons.1 h with h | h
    · exact hx.2 a r h.symm
    · exact hxs.2 a r h

end ByteReader
