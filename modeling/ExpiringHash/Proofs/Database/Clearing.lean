import ExpiringHash.Proofs.Database.Logs

/-!
# Clearing away what has expired

What a key space shows at a time is, under each key, a value of another type or the records that have
not expired; a missing key shows what a container without such records does. Actions that clear
expired fields away, and the containers that they leave empty, never fail and change nothing of what
there is to see.
-/
namespace ExpiringHash

open DatabaseM

/-- What there is to see under a key. -/
inductive LiveValue where
  | foreign (type : String) (payload : Bytes)
  | fields (records : SortedMap Bytes Record)
deriving DecidableEq

namespace KeySpace

variable {ks : KeySpace} {key other : Bytes} {now : UInt64}

/-- What a key shows: a value of another type, or the records that have not expired. -/
def live (ks : KeySpace) (now : UInt64) (key : Bytes) : LiveValue :=
  match ks.get? key with
  | none => .fields ∅
  | some (.container c) => .fields (c.fields.liveRecords now)
  | some (.foreign type payload) => .foreign type payload

theorem live_congr {ks' : KeySpace} (h : ks.get? key = ks'.get? key) :
    ks.live now key = ks'.live now key := by
  rw [live, live, h]

theorem live_of_foreign {type : String} {payload : Bytes}
    (h : ks.get? key = some (.foreign type payload)) : ks.live now key = .foreign type payload := by
  rw [live, h]

/-- A key that holds no value of another type shows the live records among its fields. -/
theorem live_of_open (h : ks.Open key) :
    ks.live now key = .fields ((ks.fieldsAt key).liveRecords now) := by
  unfold live fieldsAt
  cases hv : ks.get? key with
  | none => rfl
  | some v =>
    cases v with
    | container c => rfl
    | foreign type payload => exact absurd h (not_open_of_foreign hv)

theorem open_of_live {records : SortedMap Bytes Record} (h : ks.live now key = .fields records) :
    ks.Open key := by
  cases hv : ks.get? key with
  | none => exact open_of_absent hv
  | some v =>
    cases v with
    | container c => exact open_of_present hv
    | foreign type payload =>
      rw [live_of_foreign hv] at h
      cases h

end KeySpace

namespace Database

variable {now : UInt64} {d d' : Database} {ev : Event} {evs : List Event} {t : Trigger}

/-- It is enough that the fields under the key of an event show what they showed. -/
theorem Happens.live_eq (h : d.Happens now ev d')
    (hkey : ∀ name, (d'.keys.fieldsAt ev.key).live? name now =
      (d.keys.fieldsAt ev.key).live? name now) (key : Bytes) :
    d'.keys.live now key = d.keys.live now key := by
  by_cases hk : key = ev.key
  · subst hk
    rw [KeySpace.live_of_open h.open_key.1, KeySpace.live_of_open h.open_key.2,
      Fields.liveRecords_eq_iff.mpr hkey]
  · exact KeySpace.live_congr (h.get?_of_ne hk)

/-- Reclaiming a field does not show. -/
theorem Happens.live_of_isReclaim (h : d.Happens now ev d') (hr : ev.isReclaim t = true)
    (key : Bytes) : d'.keys.live now key = d.keys.live now key := by
  have hremoval : ev.isRemoval = true ∧ ev.isDeletion = false := by
    cases ev with
    | reclaimed _ _ t' _ => cases t' <;> exact ⟨rfl, rfl⟩
    | _ => cases hr
  obtain ⟨field, r, hf, hget, hnone, hx⟩ := h.of_isRemoval hremoval.1
  rw [hremoval.2] at hx
  refine h.live_eq (fun name => ?_) key
  by_cases hn : name = field
  · subst hn
    rw [Fields.live?_of_get?_none hnone, Fields.live?_of_isExpired hget hx]
  · exact Fields.live?_congr (h.record?_of_ne (.inr fun he => hn (Option.some.inj (he.trans hf))))

theorem Course.live_of_isReclaim (h : d.Course now evs d')
    (hr : ∀ ev ∈ evs, ev.isReclaim t = true) (key : Bytes) :
    d'.keys.live now key = d.keys.live now key := by
  induction h with
  | nil => rfl
  | @cons d d₁ d₂ ev evs hev _ ih =>
    exact (ih fun ev hm => hr ev (List.mem_cons_of_mem _ hm)).trans
      (hev.live_of_isReclaim (hr ev List.mem_cons_self) key)

end Database

namespace Work

variable {w w' w'' : Work} {key field : Bytes} {now : UInt64}

/-- What the keys show stays as it is, and the keys are tidy. -/
structure Clears (now : UInt64) (w w' : Work) : Prop where
  tidy : w'.database.keys.Tidy
  live : ∀ key, w'.database.keys.live now key = w.database.keys.live now key

theorem Clears.refl (ht : w.database.keys.Tidy) : w.Clears now w := ⟨ht, fun _ => rfl⟩

/-- Sweeping does not show. -/
theorem Swept.clears (h : w.Swept now key w') (ht : w.database.keys.Tidy) : w.Clears now w' := by
  obtain ⟨evs, hlogs, hevs⟩ := h
  exact ⟨hlogs.tidy ht, hlogs.course.live_of_isReclaim fun ev hm => (hevs ev hm).2⟩

end Work

section Runs

variable {w : Work} {key : Bytes}

/-- Dropping a container without fields does not show. -/
theorem clears_dropEmpty (s : Scope) (ht : w.database.keys.Tidy) (now : UInt64) (key : Bytes) :
    ∃ w', (s.dropEmpty key).run w = .ok () w' ∧ w.Clears now w' := by
  refine ⟨_, run_dropEmpty s ht key, ?_⟩
  split
  · next h =>
    have he := (Bool.and_eq_true_iff.mp h).2
    have hev : w.database.Happens now (.dropped key) (w.withoutKey key).database := .dropped he
    exact ⟨hev.tidy ht, hev.live_eq fun name => Fields.live?_congr (hev.record?_of_ne (.inr nofun))⟩
  · exact .refl ht

/-- A key that holds no value of another type is swept. -/
theorem clears_sweep (s : Scope) (ht : w.database.keys.Tidy) (ho : w.database.keys.Open key) :
    ∃ w', (s.sweep key).run w = .ok () w' ∧ w.Clears s.now w' := by
  obtain ⟨w', hrun, hswept⟩ := swept_sweep s ht ho
  exact ⟨w', hrun, hswept.clears ht⟩

/-- Whether a field has expired is told in either role, and nothing changes if it has not. -/
theorem clears_expireIfDue (s : Scope) (ht : w.database.keys.Tidy) (ho : w.database.keys.Open key)
    (field : Bytes) :
    ∃ w', (s.expireIfDue key field).run w =
        .ok (((w.fieldsAt key).get? field).any (·.isExpired s.now)) w' ∧ w.Clears s.now w' ∧
      (((w.fieldsAt key).get? field).any (·.isExpired s.now) = false → w' = w) := by
  obtain ⟨w', hrun, hswept, hkept⟩ := swept_expireIfDue s ht ho field
  exact ⟨w', hrun, hswept.clears ht, hkept⟩

/-- Reading a field gives its live record in either role. -/
theorem clears_liveField (s : Scope) (ht : w.database.keys.Tidy) (ho : w.database.keys.Open key)
    (field : Bytes) :
    ∃ w', (s.liveField key field).run w = .ok ((w.fieldsAt key).live? field s.now) w' ∧
      w.Clears s.now w' := by
  obtain ⟨w', hrun, hswept⟩ := swept_liveField s ht ho field
  exact ⟨w', hrun, hswept.clears ht⟩

end Runs

end ExpiringHash
