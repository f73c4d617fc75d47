import ExpiringHash.Proofs.Database.Overwrites
import Mathlib.Logic.Function.Basic

/-!
# Batches that check versions

A batch looks at all versions that it demands before it writes anything, and looking may reclaim
expired fields but changes nothing that is live. Once all versions are right nothing can go wrong any
more: the writes take place one after the other, each over the live record that those before it have
left.
-/
namespace ExpiringHash

open DatabaseM

namespace FieldUpdate

/-- The update demands a version that the live record does not have. -/
def Conflicts (u : FieldUpdate) (current : Option Record) : Prop :=
  u.version ≠ 0 ∧ ∃ r ∈ current, r.version ≠ u.version

instance (u : FieldUpdate) (current : Option Record) : Decidable (u.Conflicts current) :=
  inferInstanceAs (Decidable (u.version ≠ 0 ∧ ∃ r ∈ current, r.version ≠ u.version))

/-- The record that an update stores over a live record. -/
def stored (u : FieldUpdate) (now : UInt64) (current : Option Record) : Record :=
  ⟨u.value, (current.map (·.version)).getD 0 + 1, (ExpireTime.after u.ttl).resolve now⟩

/-- The command that tells of the record that an update stores. -/
def command (u : FieldUpdate) (key : Bytes) (r : Record) : Command :=
  .set key u.field u.value r.version r.expireAt

/-- The commands of updates that take place one after the other, given what is live. -/
def commands (key : Bytes) (now : UInt64) : (Bytes → Option Record) → List FieldUpdate → List Command
  | _, [] => []
  | live, u :: updates =>
    let r := u.stored now (live u.field)
    u.command key r :: commands key now
      (Function.update live u.field ((some r).filter fun r => !r.isExpired now)) updates

theorem exists_of_mem_commands {key : Bytes} {now : UInt64} {live : Bytes → Option Record}
    {updates : List FieldUpdate} {c : Command} (h : c ∈ commands key now live updates) :
    ∃ u ∈ updates, ∃ r, c = u.command key r := by
  induction updates generalizing live with
  | nil => cases h
  | cons u updates ih =>
    rcases List.mem_cons.mp h with rfl | h
    · exact ⟨u, List.mem_cons_self, _, rfl⟩
    · obtain ⟨u', hm, hc⟩ := ih h
      exact ⟨u', List.mem_cons_of_mem u hm, hc⟩

theorem isVersioned_of_mem_commands {key : Bytes} {now : UInt64} {live : Bytes → Option Record}
    {updates : List FieldUpdate} {c : Command} (hc : c ∈ commands key now live updates) :
    c.isVersioned = true := by
  obtain ⟨_, _, _, rfl⟩ := exists_of_mem_commands hc
  rfl

theorem check_of_conflicts {u : FieldUpdate} {current : Option Record} (h : u.Conflicts current) :
    (VersionPolicy.matching u.version).check (current.map (·.version)) =
      .error .versionConflict := by
  obtain ⟨h0, r, rfl, hne⟩ := h
  exact Fields.check_stale h0 hne

theorem check_of_not_conflicts {u : FieldUpdate} {current : Option Record}
    (h : ¬u.Conflicts current) :
    (VersionPolicy.matching u.version).check (current.map (·.version)) = .ok () := by
  cases current with
  | none => rfl
  | some r =>
    have haccepts : (VersionPolicy.matching u.version).accepts r.version = true := by
      refine Bool.or_eq_true_iff.mpr (or_iff_not_imp_left.mpr fun h0 => ?_)
      exact beq_iff_eq.mpr (Decidable.byContradiction fun hne =>
        h ⟨fun he => h0 (beq_iff_eq.mpr he), r, rfl, fun he => hne he.symm⟩)
    rw [Option.map_some, VersionPolicy.check_some, haccepts]
    rfl

end FieldUpdate

variable {s : Scope} {w : Work} {key : Bytes}

theorem run_checkVersion (s : Scope) (ht : w.database.keys.Tidy) (ho : w.database.keys.Open key)
    (u : FieldUpdate) :
    ∃ w', w.Swept s.now key w' ∧ (s.checkVersion key u).run w =
      outcomeIn w' ((VersionPolicy.matching u.version).check
        (((w.fieldsAt key).live? u.field s.now).map (·.version))) := by
  obtain ⟨w', hlive, hswept⟩ := swept_liveField s ht ho u.field
  refine ⟨w', hswept, ?_⟩
  rw [Scope.checkVersion, EStateM.run_bind, hlive]
  dsimp only
  cases (VersionPolicy.matching u.version).check _ <;> rfl

/-- The checks of a batch reclaim expired fields at most; one that fails is enough. -/
theorem swept_checkVersions (s : Scope) (ht : w.database.keys.Tidy) (ho : w.database.keys.Open key)
    (updates : List FieldUpdate) :
    ∃ w', w.Swept s.now key w' ∧
      ((∃ u ∈ updates, u.Conflicts ((w.fieldsAt key).live? u.field s.now)) →
        (updates.forM (s.checkVersion key)).run w = .error .versionConflict w') ∧
      ((∀ u ∈ updates, ¬u.Conflicts ((w.fieldsAt key).live? u.field s.now)) →
        (updates.forM (s.checkVersion key)).run w = .ok () w') := by
  induction updates generalizing w with
  | nil => exact ⟨w, .refl w, nofun, fun _ => rfl⟩
  | cons u updates ih =>
    obtain ⟨w₁, hswept, hcheck⟩ := run_checkVersion s ht ho u
    have hrun : ((u :: updates).forM (s.checkVersion key)).run w =
        (s.checkVersion key u >>= fun _ => updates.forM (s.checkVersion key)).run w := rfl
    rw [EStateM.run_bind, hcheck] at hrun
    by_cases hu : u.Conflicts ((w.fieldsAt key).live? u.field s.now)
    · rw [FieldUpdate.check_of_conflicts hu] at hrun
      exact ⟨w₁, hswept, fun _ => hrun, fun h => absurd hu (h u List.mem_cons_self)⟩
    · rw [FieldUpdate.check_of_not_conflicts hu] at hrun
      obtain ⟨w₂, hswept', hfails, hpasses⟩ := ih (hswept.tidy ht) ((hswept.open_iff key).mpr ho)
      -- the checks that follow see what this one has seen
      simp only [hswept.live?_eq] at hfails hpasses
      refine ⟨w₂, hswept.trans hswept', fun ⟨u', hm, hu'⟩ => ?_, fun h => ?_⟩
      · rcases List.mem_cons.mp hm with rfl | hm
        · exact absurd hu' hu
        · exact hrun.trans (hfails ⟨u', hm, hu'⟩)
      · exact hrun.trans (hpasses fun u' hm => h u' (List.mem_cons_of_mem u hm))

/-- A write of a batch stores its record over what is live. -/
theorem logs_store (s : Scope) (ht : w.database.keys.Tidy) (ho : w.database.keys.Open key)
    (u : FieldUpdate) :
    ∃ w', (discard (s.store key u.field u.value { ttl := .set (.after u.ttl) })).run w = .ok ⟨⟩ w' ∧
      w.Logs s.now
        [.stored (u.command key (u.stored s.now ((w.fieldsAt key).live? u.field s.now)))] w' := by
  have hrun := (Scope.store_decides key u.field u.value { ttl := .set (.after u.ttl) } s.now).run s w
    rfl ht ho
  have hplan (current : Option Record) :
      Scope.storePlan key u.field u.value { ttl := .set (.after u.ttl) } s.now current =
        .ok (some current.isNone, some (u.command key (u.stored s.now current))) := by
    cases current <;> rfl
  rw [hplan] at hrun
  obtain ⟨a, w', hstore, -, happly⟩ := hrun
  have hsuits : (u.command key (u.stored s.now ((w.fieldsAt key).live? u.field s.now))).Suits
      ((w.fieldsAt key).live? u.field s.now) key u.field (· = u.value) := .set _ _ rfl
  obtain ⟨w'', happly', hlogs⟩ := logs_apply ht ho hsuits
  cases happly.symm.trans happly'
  refine ⟨w', ?_, hlogs⟩
  rw [run_discard, hstore]

/-- What is live once an update has been stored. -/
theorem live?_of_logs {now : UInt64} {w' : Work} {u : FieldUpdate} {r : Record}
    (h : w.Logs now [.stored (u.command key r)] w') (hr : r.value = u.value) :
    (fun field => (w'.fieldsAt key).live? field now) =
      Function.update (fun field => (w.fieldsAt key).live? field now) u.field
        ((some r).filter fun r => !r.isExpired now) := by
  funext field
  by_cases hf : field = u.field
  · subst hf
    have hget : (w'.fieldsAt key).get? u.field = some ⟨u.value, r.version, r.expireAt⟩ :=
      h.happens.record?_event (c := u.command key r) rfl
    rw [Function.update_self, Fields.live?, hget, ← hr]
  · rw [Function.update_of_ne hf]
    exact Fields.live?_congr (get?_of_logs h rfl hf)

/-- The writes of a batch take place one after the other. -/
theorem logs_stores (s : Scope) (ht : w.database.keys.Tidy) (ho : w.database.keys.Open key)
    (updates : List FieldUpdate) :
    ∃ w', (updates.forM fun u =>
        discard (s.store key u.field u.value { ttl := .set (.after u.ttl) })).run w = .ok () w' ∧
      w.Logs s.now ((FieldUpdate.commands key s.now
        (fun field => (w.fieldsAt key).live? field s.now) updates).map .stored) w' := by
  induction updates generalizing w with
  | nil => exact ⟨w, rfl, .nil _ w⟩
  | cons u updates ih =>
    obtain ⟨w₁, hrun, hlogs⟩ := logs_store s ht ho u
    obtain ⟨w₂, hrun', hlogs'⟩ := ih (hlogs.tidy ht) ((hlogs.open_iff key).mpr ho)
    refine ⟨w₂, ?_, ?_⟩
    · change (discard (s.store key u.field u.value { ttl := .set (.after u.ttl) }) >>= fun _ =>
        updates.forM _).run w = _
      rw [EStateM.run_bind, hrun]
      exact hrun'
    · rw [live?_of_logs hlogs rfl] at hlogs'
      exact hlogs.append hlogs'

/-- A batch is refused for its versions before it writes anything, or all of its writes take place. -/
theorem run_setFieldsChecked (s : Scope) (ht : w.database.keys.Tidy)
    (ho : w.database.keys.Open key) (updates : List FieldUpdate) :
    ∃ w', w.Swept s.now key w' ∧
      ((∃ u ∈ updates, u.Conflicts ((w.fieldsAt key).live? u.field s.now)) →
        (s.setFieldsChecked key updates).run w = .error .versionConflict w') ∧
      ((∀ u ∈ updates, ¬u.Conflicts ((w.fieldsAt key).live? u.field s.now)) →
        ∃ w'', (s.setFieldsChecked key updates).run w = .ok () w'' ∧
          w'.Logs s.now ((FieldUpdate.commands key s.now
            (fun field => (w.fieldsAt key).live? field s.now) updates).map .stored) w'') := by
  obtain ⟨w₁, hsweep, hswept⟩ := swept_sweep s ht ho
  have ht₁ := hswept.tidy ht
  have ho₁ := (hswept.open_iff key).mpr ho
  obtain ⟨w₂, hswept', hfails, hpasses⟩ := swept_checkVersions s ht₁ ho₁ updates
  have hlive (field : Bytes) : (w₂.fieldsAt key).live? field s.now =
      (w.fieldsAt key).live? field s.now :=
    (hswept'.live?_eq key field).trans (hswept.live?_eq key field)
  simp only [hswept.live?_eq] at hfails hpasses
  obtain ⟨w₃, hstores, hlogs⟩ :=
    logs_stores s (hswept'.tidy ht₁) ((hswept'.open_iff key).mpr ho₁) updates
  simp only [hlive] at hlogs
  have hrun : (s.setFieldsChecked key updates).run w =
      (do
        updates.forM (s.checkVersion key)
        updates.forM fun u =>
          discard (s.store key u.field u.value { ttl := .set (.after u.ttl) })).run w₁ := by
    rw [Scope.setFieldsChecked, EStateM.run_bind, run_checkType, ho]
    dsimp only
    rw [EStateM.run_bind, hsweep]
  rw [EStateM.run_bind] at hrun
  refine ⟨w₂, hswept.trans hswept', fun h => ?_, fun h => ⟨w₃, ?_, hlogs⟩⟩
  · rw [hrun, hfails h]
  · rw [hrun, hpasses h]
    exact hstores

namespace Database

variable {now : UInt64} {d d' : Database} {live : Bytes → Option Record}

theorem Course.record?_of_forall_ne {evs : List Event} (h : d.Course now evs d') {field : Bytes}
    (hne : ∀ ev ∈ evs, ev.field? ≠ some field) :
    d'.record? key field = d.record? key field := by
  induction h with
  | nil => rfl
  | cons hev _ ih =>
    rw [ih fun ev hm => hne ev (List.mem_cons_of_mem _ hm)]
    exact hev.record?_of_ne (.inr fun he => hne _ List.mem_cons_self he.symm)

/-- A field of a batch ends with the record of its last update; one that is updated once counts up
from what was live. -/
theorem Course.record?_of_commands {before after : List FieldUpdate} {u : FieldUpdate}
    (h : d.Course now ((FieldUpdate.commands key now live (before ++ u :: after)).map .stored) d')
    (hlast : ∀ u' ∈ after, u'.field ≠ u.field) :
    ∃ version, d'.record? key u.field =
        some ⟨u.value, version, (ExpireTime.after u.ttl).resolve now⟩ ∧
      ((∀ u' ∈ before, u'.field ≠ u.field) →
        version = ((live u.field).map (·.version)).getD 0 + 1) := by
  induction before generalizing d live with
  | nil =>
    cases h with
    | cons hev hrest =>
      have hkept (live : Bytes → Option Record) :
          ∀ ev ∈ (FieldUpdate.commands key now live after).map Event.stored,
            ev.field? ≠ some u.field := by
        intro ev hm he
        obtain ⟨c, hc, rfl⟩ := List.mem_map.mp hm
        obtain ⟨u', hu', r, rfl⟩ := FieldUpdate.exists_of_mem_commands hc
        exact hlast u' hu' (Option.some.inj he)
      refine ⟨_, (hrest.record?_of_forall_ne (hkept _)).trans ?_, fun _ => rfl⟩
      exact hev.record?_event (c := u.command key (u.stored now (live u.field))) rfl
  | cons u' before ih =>
    cases h with
    | cons hev hrest =>
      obtain ⟨version, hrecord, hversion⟩ := ih hrest
      refine ⟨version, hrecord, fun hne => ?_⟩
      obtain ⟨hfirst, hothers⟩ := List.forall_mem_cons.mp hne
      rw [hversion hothers, Function.update_of_ne hfirst.symm]

end Database

end ExpiringHash
