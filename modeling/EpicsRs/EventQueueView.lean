/-
**What the event queue does, without the ring.**

Seen from outside, an event queue is a list of entries and a table of monitors.  A post puts an
entry at the end, or another log in the place of the newest entry of its monitor; a read takes an
entry that is the first of its monitor; a monitor without entries whose producer is gone is
reported once.  Everything that the queue counts or points to is left out, and so is when it does
which of these.
-/

import EpicsRs.EventQueueInv

set_option autoImplicit false

namespace EventQueue

open Function Option QueInner

variable {η α κ : Type}

structure Monitor (κ : Type) where
  sid : UInt32
  kind : LogKind
  producerGone : Bool
  readerGone : Bool
  endReported : Bool
  context : κ

def Monitor.new (sid : UInt32) (kind : LogKind) (context : κ) : Monitor κ :=
  ⟨sid, kind, false, false, false, context⟩

def Monitor.takesPosts (m : Monitor κ) : Prop := m.producerGone = false ∧ m.readerGone = false

def SubQ.monitor (s : SubQ κ) : Monitor κ :=
  ⟨s.sid, s.kind, s.producerGone, s.readerGone, s.endReported, s.context⟩

structure View (η α κ : Type) where
  entries : List (Entry η α)
  monitors : AttachId → Option (Monitor κ)

def QueInner.monitors (q : QueInner η α κ) (id : AttachId) : Option (Monitor κ) :=
  (q.sub id).map SubQ.monitor

def QueInner.view (q : QueInner η α κ) (es : List (Entry η α)) : View η α κ := ⟨es, q.monitors⟩

namespace View

variable (v : View η α κ)

def set (id : AttachId) (m : Option (Monitor κ)) : View η α κ :=
  { v with monitors := Function.update v.monitors id m }

/-- The entry `e` leaves; a cancelled monitor leaves with its last entry. -/
def retire (pre : List (Entry η α)) (e : Entry η α) (post : List (Entry η α)) : View η α κ where
  entries := pre ++ post
  monitors :=
    if (v.monitors e.id).any Monitor.readerGone ∧ e.id ∉ idsOf (pre ++ post) then
      Function.update v.monitors e.id none
    else v.monitors

variable {v} {id id' : AttachId}

lemma set_monitors_self (m : Option (Monitor κ)) : (v.set id m).monitors id = m :=
  update_self ..

lemma set_monitors_of_ne (hne : id ≠ id') (m : Option (Monitor κ)) :
    (v.set id' m).monitors id = v.monitors id :=
  update_of_ne hne ..

end View

inductive Obs (η α : Type)
  | attached (id : AttachId) (kind : LogKind)
  | posted (id : AttachId) (log : PostLog η α)
  | refused (id : AttachId)
  | delivered (id : AttachId) (log : PostLog η α)
  | ended (id : AttachId)
  | readerClosed (id : AttachId)
deriving DecidableEq

inductive Step : View η α κ → List (Obs η α) → View η α κ → Prop
  | attach {v id m} (hfree : v.monitors id = none)
      (hnone : id ∉ idsOf v.entries) (hopen : m.takesPosts) (hend : m.endReported = false) :
      Step v [.attached id m.kind] (v.set id (some m))
  | refuse {v id}
      (hgone : ∀ m, v.monitors id = some m → ¬ m.takesPosts) : Step v [.refused id] v
  | append {v id m log}
      (hid : v.monitors id = some m) (hopen : m.takesPosts) :
      Step v [.posted id log] { v with entries := v.entries ++ [⟨id, log.stored m.kind⟩] }
  | overwrite {v id m log old new pre post} (hid : v.monitors id = some m) (hopen : m.takesPosts)
      (hentries : v.entries = pre ++ ⟨id, old⟩ :: post) (hnewest : id ∉ idsOf post)
      (hvalue : new.value = (log.stored m.kind).value) (hmask : new.mask = old.mask ||| log.mask) :
      Step v [.posted id log] { v with entries := pre ++ ⟨id, new⟩ :: post }
  | drop {v m e post}
      (hentries : v.entries = e :: post) (hid : v.monitors e.id = some m)
      (hgone : m.readerGone = true) : Step v [] (v.retire [] e post)
  | deliver {v e pre post}
      (hentries : v.entries = pre ++ e :: post) (hfirst : e.id ∉ idsOf pre) :
      Step v [.delivered e.id e.log] (v.retire pre e post)
  | finish {v id m} (hid : v.monitors id = some m)
      (hgone : m.producerGone = true) (hend : m.endReported = false)
      (hnone : id ∉ idsOf v.entries) :
      Step v [.ended id] (v.set id (some { m with endReported := true }))
  | closeProducer {v id m} (hid : v.monitors id = some m) :
      Step v [] (v.set id (some { m with producerGone := true }))
  | cancel {v id m} (hid : v.monitors id = some m) :
      Step v [.readerClosed id] (v.set id (some { m with readerGone := true }))
  | detach {v id} (hnone : id ∉ idsOf v.entries) :
      Step v [.readerClosed id] (v.set id none)

inductive Trace : View η α κ → List (Obs η α) → View η α κ → Prop
  | refl (v : View η α κ) : Trace v [] v
  | head {v v' w : View η α κ} {os os' : List (Obs η α)} (hstep : Step v os v')
      (htrace : Trace v' os' w) : Trace v (os ++ os') w

lemma Trace.single {v w : View η α κ} {os} (h : Step v os w) : Trace v os w := by
  have htrace := Trace.head h (Trace.refl w)
  rwa [List.append_nil] at htrace

lemma Trace.trans {u v w : View η α κ} {os os'} (h : Trace u os v) (h' : Trace v os' w)
    : Trace u (os ++ os') w := by
  induction h with
  | refl v => exact h'
  | head hstep _ ih =>
    rw [List.append_assoc]
    exact Trace.head hstep (ih h')

/-! ### The monitors, when one slot changes -/

section

variable {q q' : QueInner η α κ} {i : ℕ} {id : AttachId} {o : Option (SubQ κ)}

lemma monitors_set (o' : Option (SubQ κ)) (ho : q.subs[i]? = some o) (hold : ∀ t, o = some t → t.id = id)
    (hnew : ∀ t, o' = some t → t.id = id) (hslot : id.slot.toNat = i)
    (hsubs : q'.subs = q.subs.set i o') :
    q'.monitors = update q.monitors id (o'.map SubQ.monitor) := by
  have hlen := (List.getElem?_eq_some_iff.1 ho).1
  funext x
  rw [update_apply, monitors, sub, subAt, hsubs,
    List.getElem?_set]
  by_cases hx : x = id
  · subst hx
    rw [if_pos hslot.symm, if_pos (hslot ▸ hlen), if_pos rfl]
    cases o' with
    | none => rfl
    | some t => simp [hnew t rfl]
  · rw [if_neg hx]
    by_cases hi : i = x.slot.toNat
    · -- another handle of the same slot finds nothing, before and after
      rw [if_pos hi, if_pos (hi ▸ hlen), monitors, sub, subAt, ← hi, ho]
      have hother : ∀ p : Option (SubQ κ), (∀ t, p = some t → t.id = id) →
          (p.filter fun s => s.id = x) = none := by
        intro p hp
        cases p with
        | none => rfl
        | some t => simpa [hp t rfl] using Ne.symm hx
      rw [join_some, join_some, hother o' hnew, hother o hold]
    · rw [if_neg hi]
      rfl

lemma monitors_update {s} (s' : SubQ κ) (hs : q.subs[i]? = some (some s)) (hslots : Slots q)
    (hid : s'.id = s.id) (hsubs : q'.subs = q.subs.set i (some s')) :
    q'.monitors = update q.monitors s.id (some s'.monitor) := by
  refine monitors_set (some s') hs (fun t ht => ?_) (fun t ht => ?_) (hslots.slot_eq i s hs) hsubs
  · rw [some.inj ht]
  · rw [← some.inj ht, hid]

lemma view_set {es m} (hmonitors : q'.monitors = update q.monitors id m) :
    q'.view es = (q.view es).set id m :=
  congrArg (View.mk es) hmonitors

lemma view_entries (es es' : List (Entry η α)) (hmonitors : q'.monitors = q.monitors) :
    q'.view es' = { q.view es with entries := es' } :=
  congrArg (View.mk es') hmonitors

lemma monitors_self {s} (hs : q.subs[i]? = some (some s)) (hslots : Slots q) :
    q.monitors s.id = some s.monitor := by
  have hsub : q.sub s.id = some s := sub_eq_some.2 ⟨by rw [hslots.slot_eq i s hs, hs], rfl⟩
  rw [monitors, hsub, map_some]

end

end EventQueue
