import ExpiringHash.Proofs.Database.Events
import ExpiringHash.Proofs.Fields.Live

/-!
# What actions log

An action logs the events of its database: they take place one after the other, and their commands
are sent in that order. Before an action writes or reads it may sweep, that is, reclaim expired
fields of its key and nothing else, which never fails.
-/
namespace ExpiringHash

open DatabaseM

namespace Work

variable {w w' w'' : Work} {key field : Bytes} {now : UInt64} {evs evs' : List Event}

/-- Events take place in the database, and their commands are sent. -/
structure Logs (now : UInt64) (w : Work) (evs : List Event) (w' : Work) : Prop where
  course : w.database.Course now evs w'.database
  emitted : w'.emitted = (evs.flatMap Event.commands).reverse ++ w.emitted

namespace Logs

theorem nil (now : UInt64) (w : Work) : w.Logs now [] w := ⟨.nil _, rfl⟩

theorem append (h : w.Logs now evs w') (h' : w'.Logs now evs' w'') :
    w.Logs now (evs ++ evs') w'' := by
  refine ⟨h.course.append h'.course, ?_⟩
  rw [h'.emitted, h.emitted, List.flatMap_append, List.reverse_append, List.append_assoc]

theorem single {ev : Event} (h : w.database.Happens now ev w'.database)
    (he : w'.emitted = ev.commands.reverse ++ w.emitted) : w.Logs now [ev] w' := by
  refine ⟨.single h, ?_⟩
  rw [List.flatMap_singleton]
  exact he

theorem happens {ev : Event} (h : w.Logs now [ev] w') : w.database.Happens now ev w'.database := by
  cases h.course with
  | cons hev hrest =>
    cases hrest
    exact hev

theorem tidy (h : w.Logs now evs w') (ht : w.database.keys.Tidy) : w'.database.keys.Tidy :=
  h.course.tidy ht

theorem open_iff (h : w.Logs now evs w') (key : Bytes) :
    w'.database.keys.Open key ↔ w.database.keys.Open key :=
  h.course.open_iff key

end Logs

/-- Expired fields of a key are reclaimed and nothing else happens. -/
def Swept (now : UInt64) (key : Bytes) (w w' : Work) : Prop :=
  ∃ evs, w.Logs now evs w' ∧ ∀ ev ∈ evs, ev.key = key ∧ ev.isReclaim .passive = true

namespace Swept

theorem refl (w : Work) : w.Swept now key w := ⟨[], .nil now w, nofun⟩

theorem trans (h : w.Swept now key w') (h' : w'.Swept now key w'') : w.Swept now key w'' := by
  obtain ⟨evs, hlogs, hevs⟩ := h
  obtain ⟨evs', hlogs', hevs'⟩ := h'
  exact ⟨evs ++ evs', hlogs.append hlogs', List.forall_mem_append.mpr ⟨hevs, hevs'⟩⟩

theorem tidy (h : w.Swept now key w') (ht : w.database.keys.Tidy) : w'.database.keys.Tidy := by
  obtain ⟨_, hlogs, -⟩ := h
  exact hlogs.tidy ht

theorem open_iff (h : w.Swept now key w') (k : Bytes) :
    w'.database.keys.Open k ↔ w.database.keys.Open k := by
  obtain ⟨_, hlogs, -⟩ := h
  exact hlogs.open_iff k

end Swept

end Work

section Runs

variable {w : Work} {key field : Bytes} {r : Record} {s : Scope}

/-- A primary reclaims a field that has expired, and its container if no other field is left. -/
theorem logs_reclaim (hp : s.isPrimary = true) (ht : w.database.keys.Tidy)
    (hr : (w.fieldsAt key).get? field = some r) (hx : r.isExpired s.now = true) (t : Trigger) :
    ∃ last w', (s.reclaim key field t).run w = .ok () w' ∧
      w.Logs s.now [.reclaimed key field t last] w' := by
  have ht' : ((w.withoutField key field).counted t).database.keys.Tidy :=
    Database.tidy_rewrite ht ((ht.consistent key).remove field)
  rw [run_reclaim s ht hr, run_dropEmpty s ht', hp, Bool.true_and]
  cases hh : ((w.withoutField key field).counted t).database.keys.holdsEmpty key with
  | false => exact ⟨false, _, rfl, .single (.reclaimed t hr hx hh) rfl⟩
  | true => exact ⟨true, _, rfl, .single (.emptied t hr hx hh) rfl⟩

/-- What is about one field of a key leaves the other fields under the key as they are. -/
theorem get?_of_logs {w' : Work} {ev : Event} {now : UInt64} (h : w.Logs now [ev] w')
    (hf : ev.field? = some field) {other : Bytes} (ho : other ≠ field) :
    (w'.fieldsAt key).get? other = (w.fieldsAt key).get? other :=
  h.happens.record?_of_ne (.inr fun he => ho (Option.some.inj (he.trans hf)))

theorem swept_reclaimAll (hp : s.isPrimary = true) {fields : List Bytes}
    (ht : w.database.keys.Tidy) (hn : fields.Nodup)
    (hx : ∀ field ∈ fields, ∃ r, (w.fieldsAt key).get? field = some r ∧ r.isExpired s.now = true) :
    ∃ w', (s.reclaimAll key fields).run w = .ok () w' ∧ w.Swept s.now key w' := by
  induction fields generalizing w with
  | nil => exact ⟨w, rfl, .refl w⟩
  | cons field rest ih =>
    obtain ⟨hmem, hrest⟩ := List.nodup_cons.mp hn
    obtain ⟨r, hr, hx'⟩ := hx field List.mem_cons_self
    obtain ⟨last, w₁, hrun, hlogs⟩ := logs_reclaim hp ht hr hx' .passive
    -- the fields still to be reclaimed are others, so they are as they were
    obtain ⟨w₂, hrun', hswept⟩ := ih (hlogs.tidy ht) hrest fun other ho => by
      rw [get?_of_logs hlogs rfl fun he => hmem (he ▸ ho)]
      exact hx other (List.mem_cons_of_mem field ho)
    refine ⟨w₂, ?_, .trans ⟨_, hlogs, List.forall_mem_singleton.mpr ⟨rfl, rfl⟩⟩ hswept⟩
    change (s.reclaim key field .passive >>= fun _ => s.reclaimAll key rest).run w = _
    rw [EStateM.run_bind, hrun]
    exact hrun'

/-- A key that holds no value of another type is swept. -/
theorem swept_sweep (s : Scope) (ht : w.database.keys.Tidy) (ho : w.database.keys.Open key) :
    ∃ w', (s.sweep key).run w = .ok () w' ∧ w.Swept s.now key w' := by
  unfold Scope.sweep
  split
  · next hp =>
    cases ht.slot key with
    | foreign _ _ hs => exact absurd ho (KeySpace.not_open_of_foreign hs)
    | absent hs =>
      refine ⟨w, ?_, .refl w⟩
      rw [EStateM.run_bind, run_container?_absent hs]
      rfl
    | present f hf hs =>
      have hfields : w.fieldsAt key = f := KeySpace.fieldsAt_of_get? hs
      have hnodup : ((f.expired s.now s.sweepBudget).map (·.item)).Nodup :=
        (hf.nodup_due s.now).sublist ((List.take_sublist _ _).map _)
      have hexpired : ∀ field ∈ (f.expired s.now s.sweepBudget).map (·.item),
          ∃ r, (w.fieldsAt key).get? field = some r ∧ r.isExpired s.now = true := by
        intro field hm
        obtain ⟨e, he, rfl⟩ := List.mem_map.mp hm
        obtain ⟨r, hr, -, hx⟩ := hf.mem_due.mp (List.mem_of_mem_take he)
        exact ⟨r, hfields ▸ hr, hx⟩
      obtain ⟨w', hrun, hswept⟩ := swept_reclaimAll hp ht hnodup hexpired
      refine ⟨w', ?_, hswept⟩
      rw [EStateM.run_bind, run_container?_present hs]
      exact hrun
  · exact ⟨w, rfl, .refl w⟩

/-- Whether a field has expired is told in either role, and nothing changes if it has not. -/
theorem swept_expireIfDue (s : Scope) (ht : w.database.keys.Tidy) (ho : w.database.keys.Open key)
    (field : Bytes) :
    ∃ w', (s.expireIfDue key field).run w =
        .ok (((w.fieldsAt key).get? field).any (·.isExpired s.now)) w' ∧ w.Swept s.now key w' ∧
      (((w.fieldsAt key).get? field).any (·.isExpired s.now) = false → w' = w) := by
  have hrun : (s.expireIfDue key field).run w =
      (if ((w.fieldsAt key).get? field).any (·.isExpired s.now) && s.isPrimary then do
          s.reclaim key field .passive
          return ((w.fieldsAt key).get? field).any (·.isExpired s.now)
        else return ((w.fieldsAt key).get? field).any (·.isExpired s.now) : DatabaseM Bool).run w := by
    rw [Scope.expireIfDue, EStateM.run_bind]
    cases ht.slot key with
    | foreign _ _ hs => exact absurd ho (KeySpace.not_open_of_foreign hs)
    | absent hs =>
      rw [run_container?_absent hs, Work.fieldsAt, KeySpace.fieldsAt_of_get?_none hs]
      rfl
    | present f _ hs =>
      rw [run_container?_present hs, Work.fieldsAt, KeySpace.fieldsAt_of_get? hs]
      rfl
  rw [hrun]
  split
  · next h =>
    obtain ⟨hx, hp⟩ := Bool.and_eq_true_iff.mp h
    obtain ⟨r, hr, hexpired⟩ := (Option.any_eq_true _ _).mp hx
    obtain ⟨last, w', hreclaim, hlogs⟩ := logs_reclaim hp ht hr hexpired .passive
    refine ⟨w', ?_, ⟨_, hlogs, List.forall_mem_singleton.mpr ⟨rfl, rfl⟩⟩, fun hno => ?_⟩
    · rw [EStateM.run_bind, hreclaim]
      rfl
    · rw [hx] at hno
      cases hno
  · exact ⟨w, rfl, .refl w, fun _ => rfl⟩

/-- Reading a field gives its live record in either role. -/
theorem swept_liveField (s : Scope) (ht : w.database.keys.Tidy) (ho : w.database.keys.Open key)
    (field : Bytes) :
    ∃ w', (s.liveField key field).run w = .ok ((w.fieldsAt key).live? field s.now) w' ∧
      w.Swept s.now key w' := by
  obtain ⟨w', hrun, hswept, hkept⟩ := swept_expireIfDue s ht ho field
  refine ⟨w', ?_, hswept⟩
  rw [Scope.liveField, EStateM.run_bind, hrun]
  cases hx : ((w.fieldsAt key).get? field).any (·.isExpired s.now) with
  | true =>
    obtain ⟨r, hr, hexpired⟩ := (Option.any_eq_true _ _).mp hx
    rw [Fields.live?_of_isExpired hr hexpired]
    rfl
  | false =>
    have hlive : (w.fieldsAt key).live? field s.now = (w.fieldsAt key).get? field := by
      unfold Fields.live?
      cases hr : (w.fieldsAt key).get? field with
      | none => rfl
      | some r =>
        rw [hr] at hx
        exact Option.filter_eq_some_iff.mpr ⟨rfl, congrArg (!·) hx⟩
    rw [hkept hx, hlive]
    change EStateM.run (container? key >>= fun c => pure (c.bind fun c => c.fields.get? field)) w = _
    cases ht.slot key with
    | foreign _ _ hs => exact absurd ho (KeySpace.not_open_of_foreign hs)
    | absent hs =>
      rw [EStateM.run_bind, run_container?_absent hs, Work.fieldsAt,
        KeySpace.fieldsAt_of_get?_none hs]
      rfl
    | present f _ hs =>
      rw [EStateM.run_bind, run_container?_present hs, Work.fieldsAt, KeySpace.fieldsAt_of_get? hs]
      rfl

/-- A command that suits the live record of its field is applied as one event. -/
theorem logs_apply {now : UInt64} {c : Command} {text : Bytes → Prop} (ht : w.database.keys.Tidy)
    (ho : w.database.keys.Open key)
    (hc : c.Suits ((w.fieldsAt key).live? field now) key field text) :
    ∃ w', (Scope.apply c).run w = .ok () w' ∧ w.Logs now [c.event] w' := by
  have hupdate {old : Record} (hold : (w.fieldsAt key).live? field now = some old)
      (change : Record → Record) {c : Command} (hk : c.key = key) (hf : c.field? = some field)
      (hr : c.outcome (some old) = some (change old)) :
      ∃ w', (do Scope.updateRecord key field change; emit c : DatabaseM Unit).run w = .ok () w' ∧
        w.Logs now [.stored c] w' := by
    have hget := Fields.get?_of_live? hold
    subst hk
    cases ht.slot c.key with
    | foreign _ _ hs => exact absurd ho (KeySpace.not_open_of_foreign hs)
    | absent hs =>
      rw [Work.fieldsAt, KeySpace.fieldsAt_of_get?_none hs] at hget
      cases hget
    | present f _ hs =>
      have hfields : w.fieldsAt c.key = f := KeySpace.fieldsAt_of_get? hs
      subst hfields
      exact ⟨_, run_updateRecord hs hget change c,
        .single (.stored ho hf ((congrArg c.outcome hold).trans hr)) rfl⟩
  cases hc with
  | set version expiry _ => exact ⟨_, run_apply_set ht ho .., .single (.stored ho rfl rfl) rfl⟩
  | delete hold =>
    obtain ⟨hget, hx⟩ := Fields.live?_eq_some_iff.mp hold
    exact ⟨_, run_apply_delete_of_get? ht hget, .single (.deleted hget hx) rfl⟩
  | expireAt expiry version hold => exact hupdate hold _ rfl rfl rfl
  | persist hold => exact hupdate hold _ rfl rfl rfl
  | setVersion version hold => exact hupdate hold _ rfl rfl rfl

end Runs

end ExpiringHash
