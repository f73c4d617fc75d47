import ExpiringHash.Proofs.Database.Batches
import ExpiringHash.Proofs.Engine.Matching

/-!
# Batches take place as a whole or not at all

A batch that demands a version that a live field does not have is refused, and all that it has done by
then is to reclaim expired fields. Any other batch takes place, and every update of it is told, those of
one field that is named again included.
-/
namespace ExpiringHash

namespace Engine

variable {e : Engine} {db : Nat} {key : Bytes} {updates : List FieldUpdate} {d : Database}

/-- What a batch has come to that took place. -/
structure Batched (e : Engine) (db : Nat) (key : Bytes) (updates : List FieldUpdate) (e' : Engine) :
    Prop where
  /-- Expired fields of the key were reclaimed, then the record that each update comes to was stored,
  one after the other. -/
  accounts : ∃ swept : List Event, (∀ ev ∈ swept, ev.key = key ∧ ev.isReclaim .passive = true) ∧
    Accounts ((swept ++ (FieldUpdate.commands key e.now (e.live? db key) updates).map Event.stored).map
      (db, ·)) e e'
  /-- Each update was told once, in their order, with the record that it stored. -/
  sets : (e'.sent.drop e.sent.length).filter (·.2.isVersioned) =
    (FieldUpdate.commands key e.now (e.live? db key) updates).map (db, ·)
  /-- A field ends with the record of its last update, and counts up from what was live if it is
  named once. -/
  record : ∀ {before after : List FieldUpdate} {u : FieldUpdate}, updates = before ++ u :: after →
    (∀ u' ∈ after, u'.field ≠ u.field) →
      ∃ version, e'.record? db key u.field =
          some ⟨u.value, version, (ExpireTime.after u.ttl).resolve e.now⟩ ∧
        ((∀ u' ∈ before, u'.field ≠ u.field) →
          version = ((e.live? db key u.field).map (·.version)).getD 0 + 1)

theorem Batched.absorb (hd : e.databases[db]? = some d) {w w' : Work}
    (hswept : Work.Swept e.now key { database := d } w)
    (hlogs : w.Logs e.now
      ((FieldUpdate.commands key e.now (e.live? db key) updates).map .stored) w') :
    e.Batched db key updates (e.absorb db w') := by
  obtain ⟨swept, hsweep, hevs⟩ := hswept
  have haccounts := Accounts.absorb hd (hsweep.append hlogs)
  refine ⟨⟨swept, hevs, haccounts⟩, ?_, ?_⟩
  · have hreclaims : (swept.flatMap Event.commands).filter Command.isVersioned = [] := by
      refine List.filter_eq_nil_iff.mpr fun c hc => ?_
      obtain ⟨ev, hev, hc⟩ := List.mem_flatMap.mp hc
      exact Bool.eq_false_iff.mp (Event.isVersioned_of_isReclaim (hevs ev hev).2 hc)
    have hstores : (FieldUpdate.commands key e.now (e.live? db key) updates).filter Command.isVersioned =
        FieldUpdate.commands key e.now (e.live? db key) updates :=
      List.filter_eq_self.mpr fun c => FieldUpdate.isVersioned_of_mem_commands
    have htold (cs : List Command) : (cs.map Event.stored).flatMap Event.commands = cs :=
      (List.flatMap_map ..).trans (List.flatMap_singleton' cs)
    rw [haccounts.sent, List.drop_left, commandsOf_self, List.flatMap_append, htold, List.filter_map]
    change List.map (db, ·) (List.filter Command.isVersioned _) = _
    rw [List.filter_append, hreclaims, hstores, List.nil_append]
  · rintro before after u rfl hlast
    rw [record?_of_getElem? (getElem?_absorb_self hd w')]
    exact hlogs.course.record?_of_commands hlast

/-- A batch in its database. -/
theorem perform_setAllChecked (ht : ∀ d ∈ e.databases, d.keys.Tidy) (hd : e.databases[db]? = some d)
    (ho : d.keys.Open key) (updates : List FieldUpdate) :
    ∃ w, Work.Swept e.now key { database := d } w ∧
      ((∃ u ∈ updates, u.Conflicts (e.live? db key u.field)) →
        (Request.write db (.setAllChecked key updates)).perform.run e =
          .error .versionConflict (e.absorb db w)) ∧
      ((∀ u ∈ updates, ¬u.Conflicts (e.live? db key u.field)) →
        ∃ e', (Request.write db (.setAllChecked key updates)).perform.run e = .ok () e' ∧
          e.Batched db key updates e') := by
  have hlive : e.live? db key = fun field =>
      (Work.fieldsAt { database := d } key).live? field (e.scope db).now :=
    funext fun _ => live?_of_getElem? hd
  obtain ⟨w, hswept, hfails, hpasses⟩ := run_setFieldsChecked (w := { database := d }) (e.scope db)
    (ht d (List.mem_of_getElem? hd)) ho updates
  have hperform : (Request.write db (.setAllChecked key updates)).perform =
      onDatabase db fun s => s.setFieldsChecked key updates := rfl
  rw [← hlive] at hpasses
  refine ⟨w, hswept, fun h => ?_, fun h => ?_⟩
  · rw [hlive] at h
    rw [hperform]
    exact run_onDatabase_of_run (.error _) hd (hfails h)
  · obtain ⟨w', hrun, hlogs⟩ := hpasses fun u hu => congrFun hlive u.field ▸ h u hu
    exact ⟨_, hperform ▸ run_onDatabase_of_run (.ok ()) hd hrun, .absorb hd hswept hlogs⟩

/-- Reclaiming expired fields of a database changes nothing that is live in any. -/
theorem live?_absorb_of_swept (hd : e.databases[db]? = some d) {w : Work}
    (h : Work.Swept e.now key { database := d } w) (other : Nat) (k field : Bytes) :
    (e.absorb db w).live? other k field = e.live? other k field := by
  by_cases hne : db = other
  · subst hne
    rw [live?_absorb_self hd, h.live?_eq, live?_of_getElem? hd]
    rfl
  · exact live?_absorb_of_ne hne w

/-- What is live is in a database, under a key that holds no value of another type. -/
theorem open_of_live? {field : Bytes} {r : Record} (h : e.live? db key field = some r) :
    ∃ d, e.databases[db]? = some d ∧ d.keys.Open key := by
  obtain ⟨d, hd, hlive⟩ := exists_of_live? h
  exact ⟨d, hd, KeySpace.open_of_fieldsAt (Fields.live?_eq_some_iff.mp hlive).1⟩

/-- An action that looks at the type of a key first is refused where there is no such database or the
key holds a value of another type. -/
theorem refused_or_open {α : Type} (action : Scope → DatabaseM α)
    (ht : ∀ d ∈ e.databases, d.keys.Tidy) (hm : Mistypes key (action (e.scope db))) :
    (∃ err, (onDatabase db action).run e = .error err e ∧
      (err = .invalidDatabase db ∨ err = .typeMismatch)) ∨
    ∃ d, e.databases[db]? = some d ∧ d.keys.Open key := by
  cases hd : e.databases[db]? with
  | none =>
    refine .inl ⟨_, ?_, .inl rfl⟩
    rw [run_onDatabase, hd]
  | some d =>
    by_cases ho : d.keys.Open key
    · exact .inr ⟨d, rfl, ho⟩
    · refine .inl ⟨_, ?_, .inr rfl⟩
      rw [run_onDatabase_of_run (.error _) hd (hm { database := d } (ht d (List.mem_of_getElem? hd)) ho),
        absorb_self hd]
      rfl

/-- In any state and role, a batch is refused for its versions exactly if one of its updates demands a
version, not 0, that the live record of its field does not have. Then no live record of any database
has changed, and nothing that was told stores a record. Any other batch for a key that is absent or
holds a container takes place, update by update. -/
theorem checked_batch_atomic {config : Config} {now : UInt64}
    (he : (new config now).Reaches (fun _ _ => True) e) (db : Nat) (key : Bytes)
    (updates : List FieldUpdate) :
    let r : Request Unit := .write db (.setAllChecked key updates)
    ((∃ e', r.perform.run e = .error .versionConflict e') ↔
      ∃ u ∈ updates, u.Conflicts (e.live? db key u.field)) ∧
    (∀ e', r.perform.run e = .error .versionConflict e' →
      (∀ other k field, e'.live? other k field = e.live? other k field) ∧
        ∀ c ∈ e.told r, c.2.isVersioned = false) ∧
    ((∀ u ∈ updates, ¬u.Conflicts (e.live? db key u.field)) →
      ∀ d, e.databases[db]? = some d → d.keys.Open key →
        ∃ e', r.perform.run e = .ok () e' ∧ e.Batched db key updates e') := by
  intro r
  have ht := tidy_of_reaches he
  have hperform : r.perform = onDatabase db fun s => s.setFieldsChecked key updates := rfl
  by_cases hopen : ∃ d, e.databases[db]? = some d ∧ d.keys.Open key
  · obtain ⟨d, hd, ho⟩ := hopen
    obtain ⟨w, hswept, hfails, hpasses⟩ := perform_setAllChecked ht hd ho updates
    by_cases hc : ∃ u ∈ updates, u.Conflicts (e.live? db key u.field)
    · have hrun := hfails hc
      refine ⟨iff_of_true ⟨_, hrun⟩ hc, fun e' hrun' => ?_, fun hno => ?_⟩
      · cases hrun.symm.trans hrun'
        obtain ⟨cs, hcs, hnone⟩ := hswept.told
        rw [told_of_absorb (after_of_run hrun) (hcs.trans (List.append_nil _))]
        exact ⟨live?_absorb_of_swept hd hswept, List.forall_mem_map.mpr hnone⟩
      · obtain ⟨u, hu, hconflicts⟩ := hc
        exact absurd hconflicts (hno u hu)
    · have hno : ∀ u ∈ updates, ¬u.Conflicts (e.live? db key u.field) := by
        exact fun u hu hconflicts => hc ⟨u, hu, hconflicts⟩
      obtain ⟨e', hrun, hbatched⟩ := hpasses hno
      have hfine {f : Engine} : r.perform.run e ≠ .error .versionConflict f := by
        exact fun hrun' => nomatch hrun.symm.trans hrun'
      exact ⟨iff_of_false (fun ⟨_, hrun'⟩ => hfine hrun') hc, fun _ hrun' => absurd hrun' hfine,
        fun _ _ _ _ => ⟨e', hrun, hbatched⟩⟩
  · obtain ⟨err, hrun, herr⟩ := (refused_or_open (fun s => s.setFieldsChecked key updates) ht
      ((Mistypes.checkType key).bind _)).resolve_right hopen
    have hfine {f : Engine} : r.perform.run e ≠ .error .versionConflict f := by
      intro hrun'
      cases hrun.symm.trans hrun'
      rcases herr with h | h <;> cases h
    refine ⟨iff_of_false (fun ⟨_, hrun'⟩ => hfine hrun') ?_, fun _ hrun' => absurd hrun' hfine,
      fun _ d hd ho => absurd ⟨d, hd, ho⟩ hopen⟩
    rintro ⟨u, -, -, old, hold, -⟩
    exact hopen (open_of_live? hold)

/-- A field of the batch is named twice, first with a time to live of 0, and the version that is demanded
of another one is that of no live record. The same demand is refused where the record is live. -/
theorem checked_batch_atomic_repeated :
    let set (field : Bytes) (rule : WriteRule) : Request SetOutcome := .write 0 (.set [1] field [97] rule)
    let e := (((new {} 1000).after (set [10] {})).after (set [11] { ttl := .set (.after 5) })).after
      (.setClock 2000)
    let updates : List FieldUpdate :=
      [⟨[10], [98], 1, 0⟩, ⟨[11], [99], 7, 60⟩, ⟨[10], [100], 1, 50⟩]
    let r : Request Unit := .write 0 (.setAllChecked [1] updates)
    let f := e.after (.write 0 (.setAll [1] [([11], [101])]))
    (new {} 1000).Reaches (fun _ _ => True) e ∧
      (r.perform.run e = .ok () (e.after r) ∧ e.Batched 0 [1] updates (e.after r)) ∧
      e.told r = [(0, .delete [1] [11]), (0, .set [1] [10] [98] 2 1), (0, .set [1] [11] [99] 1 2060),
        (0, .set [1] [10] [100] 1 2050)] ∧
      ∃ f', r.perform.run f = .error .versionConflict f' ∧
        f'.live? 0 [1] [10] = some ⟨[97], 1, 0⟩ ∧ f.told r = [] := by
  intro set e updates r f
  have he : (new {} 1000).Reaches (fun _ _ => True) e :=
    .step _ (.step _ (.step _ .refl trivial) trivial) trivial
  have hf : (new {} 1000).Reaches (fun _ _ => True) f := .step _ he trivial
  obtain ⟨-, -, hpasses⟩ := checked_batch_atomic he 0 [1] updates
  obtain ⟨d, hd⟩ : ∃ d, e.databases[0]? = some d := ⟨_, rfl⟩
  have ho : d.keys.Open [1] := by
    cases hd
    rfl
  obtain ⟨e', hrun, hbatched⟩ := hpasses (by decide +kernel) d hd ho
  obtain rfl : e.after r = e' := after_of_run hrun
  obtain ⟨hconflicts, hrefused, -⟩ := checked_batch_atomic hf 0 [1] updates
  obtain ⟨f', hrun'⟩ := hconflicts.mpr (by decide +kernel)
  obtain ⟨hlive, -⟩ := hrefused f' hrun'
  exact ⟨he, ⟨hrun, hbatched⟩, by decide +kernel, f', hrun', (hlive ..).trans (by decide +kernel),
    by decide +kernel⟩

end Engine

end ExpiringHash
