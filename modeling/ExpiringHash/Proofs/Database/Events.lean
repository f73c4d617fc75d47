import ExpiringHash.Proofs.Database.Decisions
import ExpiringHash.Proofs.Database.Reclaims

/-!
# Events

What actions on fields do to a database comes down to four kinds of events: an expired field is
reclaimed, a live field is deleted, a container without fields is dropped, a record is stored. Each
event is told by its own commands, and only a reclaim is counted. A course is a sequence of events
that leads from one database to another, each allowed where it takes place.
-/
namespace ExpiringHash

/-- Something that becomes of one key. -/
inductive Event where
  /-- A field that had expired was deleted, and its container too if that was its last one. -/
  | reclaimed (key field : Bytes) (trigger : Trigger) (last : Bool)
  /-- A live field was deleted. -/
  | deleted (key field : Bytes)
  /-- A container without fields was dropped. -/
  | dropped (key : Bytes)
  /-- The record that a command tells of was stored. -/
  | stored (c : Command)
deriving DecidableEq

/-- Whether a command tells that a field is gone. -/
def Command.isDelete : Command → Bool
  | .delete .. => true
  | _ => false

namespace Event

def key : Event → Bytes
  | .reclaimed key .. | .deleted key _ | .dropped key => key
  | .stored c => c.key

/-- The field that the event is about. -/
def field? : Event → Option Bytes
  | .reclaimed _ field .. | .deleted _ field => some field
  | .dropped _ => none
  | .stored c => c.field?

/-- The commands that tell of the event. -/
def commands : Event → List Command
  | .reclaimed key field _ last => .delete key field :: if last then [.deleteKey key] else []
  | .deleted key field => [.delete key field]
  | .dropped key => [.deleteKey key]
  | .stored c => [c]

def isReclaim (t : Trigger) : Event → Bool
  | .reclaimed _ _ t' _ => t' = t
  | _ => false

def isDeletion : Event → Bool
  | .deleted .. => true
  | _ => false

def isStore : Event → Bool
  | .stored _ => true
  | _ => false

def isDrop : Event → Bool
  | .dropped _ => true
  | _ => false

/-- Whether a field is deleted, expired or live. -/
def isRemoval (ev : Event) : Bool :=
  ev.isReclaim .active || ev.isReclaim .passive || ev.isDeletion

theorem isDeletion_of_isReclaim {ev : Event} {t : Trigger} (h : ev.isReclaim t = true) :
    ev.isDeletion = false := by
  cases ev with
  | deleted => cases h
  | _ => rfl

theorem isDrop_of_isReclaim {ev : Event} {t : Trigger} (h : ev.isReclaim t = true) :
    ev.isDrop = false := by
  cases ev with
  | dropped => cases h
  | _ => rfl

theorem isStore_of_isReclaim {ev : Event} {t : Trigger} (h : ev.isReclaim t = true) :
    ev.isStore = false := by
  cases ev with
  | stored => cases h
  | _ => rfl

/-- The tally after the event. -/
def count (t : Tally) : Event → Tally
  | .reclaimed _ _ trigger _ => t.count trigger
  | _ => t

end Event

/-- What a command that is decided on in a write or delete of one field comes down to. -/
def Command.event : Command → Event
  | .delete key field => .deleted key field
  | c => .stored c

theorem Command.isDeletion_event (c : Command) : c.event.isDeletion = c.isDelete := by
  cases c <;> rfl

theorem Command.isStore_event {c : Command} (h : c.isDelete = false) : c.event.isStore = true := by
  cases c with
  | delete => cases h
  | _ => rfl

theorem Command.key_event (c : Command) : c.event.key = c.key := by
  cases c <;> rfl

theorem Command.field?_event (c : Command) : c.event.field? = c.field? := by
  cases c <;> rfl

namespace Database

variable {d d' d'' : Database} {key field other name : Bytes} {r : Record} {now : UInt64}
  {ev : Event} {evs evs' : List Event}

/-- The record of a field, expired or not. -/
def record? (d : Database) (key field : Bytes) : Option Record := (d.keys.fieldsAt key).get? field

/-- The fields of a key changed, and the index following. -/
def rewrite (d : Database) (key : Bytes) (change : ExpiryShift × Fields) : Database :=
  { d with
    keys := d.keys.putContainer key ⟨key, change.2⟩
    index := d.index.apply key change.1 }

/-- The record of a field deleted. -/
def withoutField (d : Database) (key field : Bytes) : Database :=
  d.rewrite key
    ((d.keys.fieldsAt key).shiftTo ((d.keys.fieldsAt key).remove field).2 field
      ((d.keys.fieldsAt key).expiryOf field) 0, ((d.keys.fieldsAt key).remove field).2)

/-- One expired field more counted. -/
def counted (d : Database) (t : Trigger) : Database := { d with tally := d.tally.count t }

theorem record?_congr (h : d'.keys.get? key = d.keys.get? key) (field : Bytes) :
    d'.record? key field = d.record? key field := by
  rw [record?, record?, KeySpace.fieldsAt_congr h]

theorem get?_rewrite_self (d : Database) (key : Bytes) (change : ExpiryShift × Fields) :
    (d.rewrite key change).keys.get? key = some (.container ⟨key, change.2⟩) :=
  SortedTable.get?_put_self _ _ _

theorem get?_rewrite_of_ne {change : ExpiryShift × Fields} (h : other ≠ key) :
    (d.rewrite key change).keys.get? other = d.keys.get? other :=
  SortedTable.get?_put_of_ne h

theorem fieldsAt_rewrite_self (d : Database) (key : Bytes) (change : ExpiryShift × Fields) :
    (d.rewrite key change).keys.fieldsAt key = change.2 :=
  KeySpace.fieldsAt_of_get? (get?_rewrite_self d key change)

theorem tidy_rewrite {change : ExpiryShift × Fields} (ht : d.keys.Tidy)
    (h : change.2.Consistent) : (d.rewrite key change).keys.Tidy :=
  ht.put ⟨rfl, h⟩

theorem tidy_deleteKey (ht : d.keys.Tidy) (key : Bytes) : (d.deleteKey key).2.keys.Tidy := by
  rw [keys_deleteKey]
  exact ht.erase key

theorem get?_deleteKey_of_ne (h : other ≠ key) :
    (d.deleteKey key).2.keys.get? other = d.keys.get? other := by
  rw [keys_deleteKey]
  exact SortedTable.get?_erase_of_ne h

theorem tally_deleteKey (d : Database) (key : Bytes) : (d.deleteKey key).2.tally = d.tally := by
  unfold deleteKey
  split <;> rfl

theorem record?_withoutField_self (d : Database) (key field : Bytes) :
    (d.withoutField key field).record? key field = none := by
  rw [record?, withoutField, fieldsAt_rewrite_self]
  exact Fields.get?_remove_self _ _

theorem record?_withoutField_of_ne (h : other ≠ key ∨ name ≠ field) :
    (d.withoutField key field).record? other name = d.record? other name := by
  by_cases hk : other = key
  · subst hk
    rw [record?, withoutField, fieldsAt_rewrite_self]
    exact Fields.get?_remove_of_ne (h.resolve_left fun hne => hne rfl)
  · exact record?_congr (get?_rewrite_of_ne hk) name

/-- A container without fields has no records to lose. -/
theorem record?_deleteKey (h : d.keys.holdsEmpty key = true) (other name : Bytes) :
    (d.deleteKey key).2.record? other name = d.record? other name := by
  by_cases hk : other = key
  · subst hk
    obtain ⟨c, hc, he⟩ := holdsEmpty_iff.mp h
    rw [record?, record?, KeySpace.fieldsAt_of_get? hc,
      KeySpace.fieldsAt_of_get?_none (get?_deleteKey d other)]
    exact (Fields.isEmpty_iff_get?.mp he name).symm
  · exact record?_congr (get?_deleteKey_of_ne hk) name

theorem holdsEmpty_congr {ks ks' : KeySpace} (h : ks'.get? key = ks.get? key) :
    ks'.holdsEmpty key = ks.holdsEmpty key := by
  rw [KeySpace.holdsEmpty, KeySpace.holdsEmpty, h]

theorem holdsEmpty_of_absent {ks : KeySpace} (h : ks.get? key = none) :
    ks.holdsEmpty key = false := by
  rw [KeySpace.holdsEmpty, h]
  rfl

theorem holdsEmpty_rewrite_self (d : Database) (key : Bytes) (change : ExpiryShift × Fields) :
    (d.rewrite key change).keys.holdsEmpty key = change.2.isEmpty := by
  rw [KeySpace.holdsEmpty, get?_rewrite_self]
  rfl

/-- An event that takes place in a database, and what becomes of it. -/
inductive Happens (now : UInt64) (d : Database) : Event → Database → Prop
  | reclaimed {key field : Bytes} {r : Record} (t : Trigger)
      (hr : d.record? key field = some r) (hx : r.isExpired now = true)
      (hmore : (d.withoutField key field).keys.holdsEmpty key = false) :
      Happens now d (.reclaimed key field t false) ((d.withoutField key field).counted t)
  | emptied {key field : Bytes} {r : Record} (t : Trigger)
      (hr : d.record? key field = some r) (hx : r.isExpired now = true)
      (hlast : (d.withoutField key field).keys.holdsEmpty key = true) :
      Happens now d (.reclaimed key field t true)
        (((d.withoutField key field).counted t).deleteKey key).2
  | deleted {key field : Bytes} {r : Record} (hr : d.record? key field = some r)
      (hx : r.isExpired now = false) :
      Happens now d (.deleted key field) (d.withoutField key field)
  | dropped {key : Bytes} (he : d.keys.holdsEmpty key = true) :
      Happens now d (.dropped key) (d.deleteKey key).2
  | stored {c : Command} {field : Bytes} {r : Record} (ho : d.keys.Open c.key)
      (hf : c.field? = some field)
      (hr : c.outcome ((d.keys.fieldsAt c.key).live? field now) = some r) :
      Happens now d (.stored c) (d.rewrite c.key ((d.keys.fieldsAt c.key).put field r))

namespace Happens

theorem tidy (h : Happens now d ev d') (ht : d.keys.Tidy) : d'.keys.Tidy := by
  have hwithout (key field : Bytes) : (d.withoutField key field).keys.Tidy :=
    tidy_rewrite ht ((ht.consistent key).remove field)
  cases h with
  | reclaimed t => exact hwithout _ _
  | @emptied key field _ t =>
    exact tidy_deleteKey (d := (d.withoutField key field).counted t) (hwithout key field) key
  | deleted => exact hwithout _ _
  | dropped => exact tidy_deleteKey ht _
  | stored => exact tidy_rewrite ht ((ht.consistent _).put _ _)

/-- Other keys than that of the event are left as they are. -/
theorem get?_of_ne (h : Happens now d ev d') (hne : other ≠ ev.key) :
    d'.keys.get? other = d.keys.get? other := by
  cases h with
  | reclaimed t => exact get?_rewrite_of_ne hne
  | emptied t => exact (get?_deleteKey_of_ne hne).trans (get?_rewrite_of_ne hne)
  | deleted => exact get?_rewrite_of_ne hne
  | dropped => exact get?_deleteKey_of_ne hne
  | stored => exact get?_rewrite_of_ne hne

/-- What happens to a key happens where there is no value of another type, and leaves none. -/
theorem open_key (h : Happens now d ev d') : d.keys.Open ev.key ∧ d'.keys.Open ev.key := by
  have hwithout (key field : Bytes) : (d.withoutField key field).keys.Open key :=
    KeySpace.open_of_present (get?_rewrite_self ..)
  have hdeleted (d : Database) (key : Bytes) : (d.deleteKey key).2.keys.Open key :=
    KeySpace.open_of_absent (get?_deleteKey d key)
  cases h with
  | reclaimed t hr => exact ⟨KeySpace.open_of_fieldsAt hr, hwithout ..⟩
  | emptied t hr => exact ⟨KeySpace.open_of_fieldsAt hr, hdeleted ..⟩
  | deleted hr => exact ⟨KeySpace.open_of_fieldsAt hr, hwithout ..⟩
  | dropped he =>
    obtain ⟨c, hc, -⟩ := holdsEmpty_iff.mp he
    exact ⟨KeySpace.open_of_present hc, hdeleted ..⟩
  | stored ho => exact ⟨ho, KeySpace.open_of_present (get?_rewrite_self ..)⟩

theorem open_iff (h : Happens now d ev d') (other : Bytes) :
    d'.keys.Open other ↔ d.keys.Open other := by
  by_cases hk : other = ev.key
  · subst hk
    exact iff_of_true h.open_key.2 h.open_key.1
  · exact KeySpace.open_congr (h.get?_of_ne hk)

/-- A value of another type stays. -/
theorem get?_foreign (h : Happens now d ev d') {type : String} {payload : Bytes}
    (hv : d.keys.get? other = some (.foreign type payload)) :
    d'.keys.get? other = some (.foreign type payload) := by
  rw [h.get?_of_ne, hv]
  rintro rfl
  exact KeySpace.not_open_of_foreign hv h.open_key.1

/-- Other fields than that of the event keep their records. -/
theorem record?_of_ne (h : Happens now d ev d') (hne : other ≠ ev.key ∨ some name ≠ ev.field?) :
    d'.record? other name = d.record? other name := by
  cases h with
  | reclaimed t =>
    exact record?_withoutField_of_ne (hne.imp_right fun h he => h (congrArg some he))
  | @emptied key field _ t _ _ hlast =>
    have hkept : (d.withoutField key field).record? other name = d.record? other name :=
      record?_withoutField_of_ne (hne.imp_right fun h he => h (congrArg some he))
    exact (record?_deleteKey (d := (d.withoutField key field).counted t) hlast other name).trans hkept
  | deleted => exact record?_withoutField_of_ne (hne.imp_right fun h he => h (congrArg some he))
  | dropped he => exact record?_deleteKey he other name
  | @stored c field _ _ hf _ =>
    by_cases hk : other = c.key
    · subst hk
      rw [record?, fieldsAt_rewrite_self]
      refine Fields.get?_put_of_ne fun he => ?_
      exact hne.elim (fun h => h rfl) fun h => h (he ▸ hf.symm)
    · exact record?_congr (get?_rewrite_of_ne hk) name

/-- A field is removed that was there, and is there no more; if it had not expired, then because its
deletion was asked for. -/
theorem of_isRemoval (h : Happens now d ev d') (hremoval : ev.isRemoval = true) :
    ∃ field r, ev.field? = some field ∧ d.record? ev.key field = some r ∧
      d'.record? ev.key field = none ∧ r.isExpired now = !ev.isDeletion := by
  cases h with
  | reclaimed t hr hx => exact ⟨_, _, rfl, hr, record?_withoutField_self .., hx⟩
  | @emptied key field _ t hr hx hlast =>
    refine ⟨_, _, rfl, hr, ?_, hx⟩
    exact (record?_deleteKey (d := (d.withoutField key field).counted t) hlast key field).trans
      (record?_withoutField_self ..)
  | deleted hr hx => exact ⟨_, _, rfl, hr, record?_withoutField_self .., hx⟩
  | dropped => cases hremoval
  | stored => cases hremoval

/-- A stored record is in its field. -/
theorem of_stored {c : Command} (h : Happens now d (.stored c) d') :
    ∃ field r, c.field? = some field ∧ d'.record? c.key field = some r := by
  cases h with
  | @stored _ field r _ hf _ =>
    refine ⟨field, r, hf, ?_⟩
    rw [record?, fieldsAt_rewrite_self]
    exact Fields.get?_put_self _ _ _

/-- What a command tells of is what its field comes to. -/
theorem record?_event {c : Command} (h : Happens now d c.event d') (hf : c.field? = some field) :
    d'.record? c.key field = c.outcome ((d.keys.fieldsAt c.key).live? field now) := by
  have hstored {c : Command} (h : Happens now d (.stored c) d') (hf : c.field? = some field) :
      d'.record? c.key field = c.outcome ((d.keys.fieldsAt c.key).live? field now) := by
    cases h with
    | @stored _ _ r _ hf' hr =>
      obtain rfl : _ = field := Option.some.inj (hf'.symm.trans hf)
      rw [hr, record?, fieldsAt_rewrite_self]
      exact Fields.get?_put_self _ _ _
  cases c with
  | delete key name =>
    cases hf
    cases h
    exact record?_withoutField_self ..
  | set => exact hstored h hf
  | expireAt => exact hstored h hf
  | persist => exact hstored h hf
  | setVersion => exact hstored h hf
  | deleteKey => cases hf

/-- A record that is there no more has been removed. -/
theorem isRemoval_of_none (h : Happens now d ev d') (hr : d.record? key field = some r)
    (hnone : d'.record? key field = none) :
    ev.isRemoval = true ∧ ev.key = key ∧ ev.field? = some field := by
  have hat : ev.key = key ∧ ev.field? = some field := by
    refine Decidable.byContradiction fun hne => ?_
    rw [h.record?_of_ne, hr] at hnone
    · cases hnone
    · by_cases hk : key = ev.key
      · exact .inr fun hf => hne ⟨hk.symm, hf.symm⟩
      · exact .inl hk
  refine ⟨?_, hat⟩
  cases ev with
  | reclaimed _ _ t _ => cases t <;> rfl
  | deleted => rfl
  | dropped => cases hat.2
  | stored c =>
    obtain ⟨name, r', hf, hr'⟩ := h.of_stored
    obtain rfl : name = field := Option.some.inj (hf.symm.trans hat.2)
    obtain rfl : c.key = key := hat.1
    rw [hr'] at hnone
    cases hnone

theorem tally (h : Happens now d ev d') : d'.tally = ev.count d.tally := by
  cases h with
  | reclaimed => rfl
  | emptied t => exact tally_deleteKey ((d.withoutField ..).counted t) _
  | deleted => rfl
  | dropped => exact tally_deleteKey d _
  | stored => rfl

/-- Only a deletion leaves a container without fields. -/
theorem settled (h : Happens now d ev d') (hne : ev.isDeletion = false) :
    d'.keys.holdsEmpty ev.key = false := by
  cases h with
  | reclaimed _ _ _ hmore => exact hmore
  | emptied => exact holdsEmpty_of_absent (get?_deleteKey _ _)
  | deleted => cases hne
  | dropped => exact holdsEmpty_of_absent (get?_deleteKey _ _)
  | stored => exact (holdsEmpty_rewrite_self ..).trans (Fields.isEmpty_put ..)

/-- A key that is there no more has been told of. -/
theorem tells (h : Happens now d ev d') (hk : d.keys.get? key ≠ none)
    (hnone : d'.keys.get? key = none) : .deleteKey key ∈ ev.commands := by
  have hkey : key = ev.key := Decidable.byContradiction fun hne =>
    hk ((h.get?_of_ne hne).symm.trans hnone)
  subst hkey
  cases h with
  | reclaimed =>
    exact absurd ((get?_rewrite_self ..).symm.trans hnone) nofun
  | emptied => exact List.mem_cons_of_mem _ (List.mem_singleton.mpr rfl)
  | deleted => exact absurd ((get?_rewrite_self ..).symm.trans hnone) nofun
  | dropped => exact List.mem_singleton.mpr rfl
  | stored => exact absurd ((get?_rewrite_self ..).symm.trans hnone) nofun

/-- Each removal of a field is told by one command, and nothing else is. -/
theorem countP_commands (h : Happens now d ev d') :
    ev.commands.countP Command.isDelete = ev.isRemoval.toNat := by
  cases h with
  | reclaimed t => cases t <;> rfl
  | emptied t => cases t <;> rfl
  | deleted => rfl
  | dropped => rfl
  | @stored c _ _ _ _ hr =>
    cases c with
    | delete => cases hr
    | _ => rfl

/-- An event that stores nothing leaves no record that was not there before. -/
theorem record?_of_some (h : Happens now d ev d') (hno : ev.isStore = false)
    (hr : d'.record? other name = some r) : d.record? other name = some r := by
  by_cases hat : ev.key = other ∧ ev.field? = some name
  · obtain ⟨rfl, hf⟩ := hat
    have hremoval : ev.isRemoval = true := by
      cases ev with
      | stored => cases hno
      | dropped => cases hf
      | reclaimed _ _ t => cases t <;> rfl
      | deleted => rfl
    obtain ⟨field, _, hfield, -, hnone, -⟩ := h.of_isRemoval hremoval
    cases hfield.symm.trans hf
    cases hnone.symm.trans hr
  · rw [← hr]
    refine (h.record?_of_ne ?_).symm
    by_cases hk : other = ev.key
    · exact .inr fun he => hat ⟨hk.symm, he.symm⟩
    · exact .inl hk

end Happens

/-- Events that take place in a database one after the other, at one time. -/
inductive Course (now : UInt64) : Database → List Event → Database → Prop
  | nil (d : Database) : Course now d [] d
  | cons {d d' d'' : Database} {ev : Event} {evs : List Event} (h : Happens now d ev d')
      (hrest : Course now d' evs d'') : Course now d (ev :: evs) d''

namespace Course

theorem single (h : Happens now d ev d') : Course now d [ev] d' := .cons h (.nil d')

theorem append (h : Course now d evs d') (h' : Course now d' evs' d'') :
    Course now d (evs ++ evs') d'' := by
  induction h with
  | nil => exact h'
  | cons hev _ ih => exact .cons hev (ih h')

theorem tidy (h : Course now d evs d') (ht : d.keys.Tidy) : d'.keys.Tidy := by
  induction h with
  | nil => exact ht
  | cons hev _ ih => exact ih (hev.tidy ht)

theorem open_iff (h : Course now d evs d') (key : Bytes) :
    d'.keys.Open key ↔ d.keys.Open key := by
  induction h with
  | nil => rfl
  | cons hev _ ih => exact ih.trans (hev.open_iff key)

/-- Where nothing is deleted on request, no container is left without fields that was not so
before. -/
theorem settled (h : Course now d evs d') (hne : ∀ ev ∈ evs, ev.isDeletion = false) :
    (∀ key, d.keys.holdsEmpty key = false → d'.keys.holdsEmpty key = false) ∧
      ∀ ev ∈ evs, d'.keys.holdsEmpty ev.key = false := by
  induction h with
  | nil => exact ⟨fun _ => id, nofun⟩
  | @cons d d₁ d' ev evs hev hrest ih =>
    obtain ⟨hkept, hall⟩ := ih fun ev hm => hne ev (List.mem_cons_of_mem _ hm)
    have hself := hev.settled (hne ev List.mem_cons_self)
    refine ⟨fun key hk => hkept key ?_, List.forall_mem_cons.mpr ⟨hkept _ hself, hall⟩⟩
    by_cases he : key = ev.key
    · exact he ▸ hself
    · rw [holdsEmpty_congr (hev.get?_of_ne he), hk]

/-- The counters tell how many fields have been reclaimed for either reason. -/
theorem tally (h : Course now d evs d') :
    d'.tally.active = d.tally.active + UInt64.ofNat (evs.countP (·.isReclaim .active)) ∧
      d'.tally.passive = d.tally.passive + UInt64.ofNat (evs.countP (·.isReclaim .passive)) := by
  induction h with
  | nil => exact ⟨(UInt64.add_zero _).symm, (UInt64.add_zero _).symm⟩
  | @cons d d₁ d' ev evs hev hrest ih =>
    obtain ⟨ha, hp⟩ := ih
    have hone (n : Nat) (c : UInt64) : c + 1 + UInt64.ofNat n = c + UInt64.ofNat (n + 1) := by
      rw [UInt64.ofNat_add, UInt64.add_assoc, UInt64.add_comm 1]
      rfl
    rw [ha, hp, hev.tally, List.countP_cons, List.countP_cons]
    cases ev with
    | reclaimed key field t last =>
      cases t with
      | active => exact ⟨hone _ _, rfl⟩
      | passive => exact ⟨rfl, hone _ _⟩
    | _ => exact ⟨rfl, rfl⟩

/-- Deletions of fields are told once each. -/
theorem countP_commands (h : Course now d evs d') :
    (evs.flatMap Event.commands).countP Command.isDelete =
      evs.countP (·.isReclaim .active) + evs.countP (·.isReclaim .passive) +
        evs.countP (·.isDeletion) := by
  induction h with
  | nil => rfl
  | @cons d d₁ d' ev evs hev hrest ih =>
    rw [List.flatMap_cons, List.countP_append, hev.countP_commands, ih]
    simp only [List.countP_cons]
    cases ev with
    | reclaimed key field t last => cases t <;> simp [Event.isRemoval, Event.isReclaim, Event.isDeletion] <;> omega
    | _ => simp [Event.isRemoval, Event.isReclaim, Event.isDeletion] <;> omega

/-- A key that is there no more has been told of. -/
theorem tells (h : Course now d evs d') (hk : d.keys.get? key ≠ none)
    (hnone : d'.keys.get? key = none) : .deleteKey key ∈ evs.flatMap Event.commands := by
  induction h with
  | nil => exact absurd hnone hk
  | @cons d d₁ d' ev evs hev hrest ih =>
    rw [List.flatMap_cons, List.mem_append]
    by_cases hmid : d₁.keys.get? key = none
    · exact .inl (hev.tells hk hmid)
    · exact .inr (ih hmid hnone)

/-- A record that is there no more has been removed by one of the events. -/
theorem exists_isRemoval (h : Course now d evs d') (hr : d.record? key field = some r)
    (hnone : d'.record? key field = none) :
    ∃ ev ∈ evs, ev.isRemoval = true ∧ ev.key = key ∧ ev.field? = some field := by
  induction h generalizing r with
  | nil =>
    rw [hr] at hnone
    cases hnone
  | @cons d d₁ d' ev evs hev hrest ih =>
    cases hmid : d₁.record? key field with
    | none => exact ⟨ev, List.mem_cons_self, hev.isRemoval_of_none hr hmid⟩
    | some r₁ =>
      obtain ⟨ev', hm, hremoval⟩ := ih hmid hnone
      exact ⟨ev', List.mem_cons_of_mem _ hm, hremoval⟩

/-- Where nothing is stored, what records there are were there before. -/
theorem record?_of_some (h : Course now d evs d') (hno : ∀ ev ∈ evs, ev.isStore = false)
    (hr : d'.record? key field = some r) : d.record? key field = some r := by
  induction h with
  | nil => exact hr
  | cons hev _ ih =>
    exact hev.record?_of_some (hno _ List.mem_cons_self)
      (ih (fun ev hm => hno ev (List.mem_cons_of_mem _ hm)) hr)

theorem open_of_mem (h : Course now d evs d') (hm : ev ∈ evs) : d'.keys.Open ev.key := by
  induction h with
  | nil => cases hm
  | cons hev hrest ih =>
    rcases List.mem_cons.mp hm with rfl | hm
    · exact (hrest.open_iff _).mpr hev.open_key.2
    · exact ih hm

/-- A key that is there no more since a field was removed from it has been told of. -/
theorem tells_of_removal (h : Course now d evs d') (hm : ev ∈ evs) (hremoval : ev.isRemoval = true)
    (hnone : d'.keys.get? ev.key = none) : .deleteKey ev.key ∈ evs.flatMap Event.commands := by
  induction h with
  | nil => cases hm
  | @cons d d₁ d' ev' evs hev hrest ih =>
    rcases List.mem_cons.mp hm with rfl | hm
    · obtain ⟨field, r, -, hr, -⟩ := hev.of_isRemoval hremoval
      refine (Course.cons hev hrest).tells (fun hk => ?_) hnone
      rw [record?, KeySpace.fieldsAt_of_get?_none hk] at hr
      cases hr
    · rw [List.flatMap_cons, List.mem_append]
      exact .inr (ih hm hnone)

/-- A removal that leaves no record under its key has the key dropped and told of, if no container is
left without fields there. -/
theorem settles (h : Course now d evs d') (hm : ev ∈ evs) (hremoval : ev.isRemoval = true)
    (hempty : d'.keys.holdsEmpty ev.key = false) (hnone : ∀ field, d'.record? ev.key field = none) :
    d'.keys.get? ev.key = none ∧ .deleteKey ev.key ∈ evs.flatMap Event.commands := by
  have habsent : d'.keys.get? ev.key = none := by
    cases hv : d'.keys.get? ev.key with
    | none => rfl
    | some v =>
      cases v with
      | foreign type payload => exact absurd (h.open_of_mem hm) (KeySpace.not_open_of_foreign hv)
      | container c =>
        have he : c.fields.isEmpty = true := Fields.isEmpty_iff_get?.mpr fun field => by
          rw [← KeySpace.fieldsAt_of_get? hv]
          exact hnone field
        cases hempty.symm.trans (holdsEmpty_iff.mpr ⟨c, hv, he⟩)
  exact ⟨habsent, h.tells_of_removal hm hremoval habsent⟩

end Course

end Database

end ExpiringHash
