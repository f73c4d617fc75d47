import ExpiringHash.Proofs.Database.Stale
import ExpiringHash.Proofs.Engine.Removals
import ExpiringHash.Proofs.Engine.Walks

/-!
# No update is lost

A client that has read a version and writes only if the version is still that does not overwrite what
others have written since. Their writes move the version up, and a version that has moved up is the one
that was read only if it is 0, which demands nothing, or has gone all the way round.
-/
namespace ExpiringHash

variable {α : Type}

namespace Request

/-- The request sets the version of a field whatever it was. -/
def Forces (db : Nat) (key field : Bytes) : Request α → Prop
  | .write other w => other = db ∧ w.Forces key field
  | _ => False

/-- The answer says that a record was stored in a field. -/
def Wrote (db : Nat) (key field : Bytes) : ∀ {α : Type}, Request α → α → Prop
  | _, .write other w, a => other = db ∧ w.Wrote key field a
  | _, _, _ => False

/-- The request writes or deletes a field if it has a version. -/
def Demands (db : Nat) (key field : Bytes) (v : UInt64) : Request α → Prop
  | .write other w => other = db ∧ w.Demands key field v
  | .delete other d => other = db ∧ d.Demands key field v
  | _ => False

/-- What a request answers over a live record whose version is not the one demanded. -/
def staleAnswer (old : Record) : ∀ {α : Type}, Request α → Except HashError α
  | _, .write _ w => do
    w.validate
    w.staleAnswer old
  | _, _ => .error .versionConflict

/-- A request that writes fields. -/
def IsWrite : Request α → Prop
  | .write .. => True
  | _ => False

/-- Only writes to fields store records. -/
theorem isStore_of_may {r : Request α} {ev : Nat × Event} (hw : ¬r.IsWrite) (h : r.May ev) :
    ev.2.isStore = false := by
  obtain ⟨db, ev⟩ := ev
  cases ev with
  | reclaimed => rfl
  | deleted => rfl
  | dropped => rfl
  | stored c =>
    cases r with
    | write db w => exact absurd trivial hw
    | delete => cases h.2
    | read => cases h.2
    | expire => cases h.2
    | tick => cases h
    | query => cases h
    | key => cases h
    | notice => cases h
    | apply => cases h
    | setClock => cases h
    | setRole => cases h

end Request

namespace Engine

variable {e f g : Engine} {db : Nat} {key field : Bytes} {v : UInt64} {r : Request α}
  {vs : List UInt64} {wrote : Prop}

/-- The record of a field, expired or not. -/
def record? (e : Engine) (db : Nat) (key field : Bytes) : Option Record :=
  e.databases[db]?.bind fun d => d.record? key field

/-- The record of a field, unless it has expired. -/
def live? (e : Engine) (db : Nat) (key field : Bytes) : Option Record :=
  (e.record? db key field).filter fun r => !r.isExpired e.now

/-- The commands that a request sends. -/
def told (e : Engine) (r : Request α) : List (Nat × Command) := (e.after r).sent.drop e.sent.length

/-- What a request answers, unless it fails. -/
def result? (e : Engine) (r : Request α) : Option α :=
  match r.perform.run e with
  | .ok a _ => some a
  | .error .. => none

/-- The versions that a write stores in a field. -/
def versions (e : Engine) (db : Nat) (key field : Bytes) (r : Request α) : List UInt64 :=
  match r with
  | .write .. => Command.versions key field (((e.told r).filter (·.1 = db)).map (·.2))
  | _ => []

/-- A client reads the version of a live field. -/
inductive Reads (e : Engine) (db : Nat) (key field : Bytes) (v : UInt64) : Engine → Prop
  | get {view : FieldView} (h : e.result? (.read db (.get key field)) = some view)
      (hv : view.version = v) : Reads e db key field v (e.after (.read db (.get key field)))
  | version (h : e.result? (.read db (.version key field)) = some v) :
      Reads e db key field v (e.after (.read db (.version key field)))

/-- A request to a primary, after which a field is live and was so all the time: it was neither deleted
nor did it expire. A write that would have forced a version on it has left it alone, and nothing but a
write to fields can have changed it. -/
structure Undisturbed (e : Engine) (db : Nat) (key field : Bytes) (r : Request α) : Prop where
  primary : e.role = .primary
  live : ((e.after r).live? db key field).isSome = true
  stays : ∀ c, (db, c) ∈ e.told r → ¬c.Clears e.now key field
  unforced : r.Forces db key field → ∀ c, (db, c) ∈ e.told r → ¬(c.key = key ∧ c.field? = some field)
  kept : ¬r.IsPlain → (e.after r).record? db key field = e.record? db key field

/-- Requests of any clients that leave a field undisturbed but may write it: the versions that writes
have stored there, and whether one of them has said so. -/
inductive Since (db : Nat) (key field : Bytes) (e : Engine) : List UInt64 → Prop → Engine → Prop
  | refl : Since db key field e [] False e
  | step {α : Type} {vs : List UInt64} {wrote : Prop} {f : Engine} (r : Request α)
      (h : Since db key field e vs wrote f) (hr : f.Undisturbed db key field r) :
      Since db key field e (vs ++ f.versions db key field r)
        (wrote ∨ ∃ a, f.result? r = some a ∧ r.Wrote db key field a) (f.after r)

theorem live?_eq_some_iff {old : Record} :
    e.live? db key field = some old ↔
      e.record? db key field = some old ∧ old.isExpired e.now = false := by
  simp [live?, Option.filter_eq_some_iff]

theorem record?_of_getElem? {d : Database} (hd : e.databases[db]? = some d) :
    e.record? db key field = d.record? key field := by
  rw [record?, hd, Option.bind_some]

theorem run_of_result? {a : α} (h : e.result? r = some a) : r.perform.run e = .ok a (e.after r) := by
  unfold result? at h
  split at h
  · next b g hrun =>
    cases h
    rw [after_of_run hrun, hrun]
    rfl
  · cases h

theorem live?_of_getElem? {d : Database} (hd : e.databases[db]? = some d) :
    e.live? db key field = (d.keys.fieldsAt key).live? field e.now := by
  rw [live?, record?_of_getElem? hd]
  rfl

theorem exists_of_live? {old : Record} (h : e.live? db key field = some old) :
    ∃ d, e.databases[db]? = some d ∧ (d.keys.fieldsAt key).live? field e.now = some old := by
  obtain ⟨d, hd, -⟩ := Option.bind_eq_some_iff.mp (live?_eq_some_iff.mp h).1
  exact ⟨d, hd, (live?_of_getElem? hd).symm.trans h⟩

theorem live?_absorb_self {d : Database} (hd : e.databases[db]? = some d) (w : Work) :
    (e.absorb db w).live? db key field = (w.fieldsAt key).live? field e.now :=
  live?_of_getElem? (getElem?_absorb_self hd w)

theorem live?_absorb_of_ne {other : Nat} (h : other ≠ db) (w : Work) :
    (e.absorb other w).live? db key field = e.live? db key field := by
  rw [live?, live?, record?, record?]
  exact congrArg (fun d => (Option.bind d _).filter _) (getElem?_absorb_of_ne h.symm w)

section Write

variable {w : FieldWrite α} {other : Nat}

theorem told_of_after_eq (h : e.after r = e) : e.told r = [] := by
  rw [told, h, List.drop_length]

theorem told_of_absorb {w : Work} {cs : List Command} (h : e.after r = e.absorb other w)
    (hcs : w.emitted = cs.reverse) : e.told r = cs.map (other, ·) := by
  rw [told, h, sent_absorb, List.drop_left, hcs, List.reverse_reverse]

/-- A write that stores a record after expired fields were reclaimed tells of it last, and of no other. -/
theorem told_of_stored {d : Database} {w₁ w' : Work} {c : Command} (h : e.after r = e.absorb other w')
    (hswept : Work.Swept e.now key { database := d } w₁) (hlogs : w₁.Logs e.now [.stored c] w') :
    ∃ cs, e.told r = cs ++ [(other, c)] ∧ ∀ c ∈ cs, c.2.isVersioned = false := by
  obtain ⟨cs, hcs, hnone⟩ := hswept.told
  refine ⟨cs.map (other, ·), ?_, List.forall_mem_map.mpr hnone⟩
  have htold : w'.emitted = (cs ++ [c]).reverse := by
    rw [hlogs.emitted, hcs, List.reverse_append]
    exact congrArg _ (List.append_nil _)
  rw [told_of_absorb h htold, List.map_append]
  rfl

theorem versions_of_told (cs : List Command)
    (h : e.told (.write other w) = cs.map (other, ·)) :
    e.versions db key field (.write other w) =
      if other = db then Command.versions key field cs else [] := by
  rw [versions, h]
  split
  · next hdb =>
    rw [List.filter_eq_self.mpr (by simp [hdb]), List.map_map]
    exact congrArg _ (List.map_id cs)
  · next hdb =>
    rw [List.filter_eq_nil_iff.mpr (by simp [hdb])]
    rfl

/-- A write fails and changes nothing, or takes place in its database. -/
theorem after_write (e : Engine) (other : Nat) (w : FieldWrite α) :
    (e.after (.write other w) = e ∧ e.result? (.write other w) = none) ∨
      ∃ d res, w.validate = .ok () ∧ e.databases[other]? = some d ∧
        (w.action (e.scope other)).run { database := d } = res ∧
        e.after (.write other w) = e.absorb other (stateOf res) ∧
        ∀ a, e.result? (.write other w) = some a → ∃ w', res = .ok a w' := by
  have hrun : (Request.write other w).perform.run e =
      (MonadExcept.ofExcept w.validate >>= fun _ => onDatabase other fun s => w.action s).run e := rfl
  have hfails {err : HashError} (h : (Request.write other w).perform.run e = .error err e) :
      e.after (.write other w) = e ∧ e.result? (.write other w) = none := by
    refine ⟨after_of_run h, ?_⟩
    rw [result?, h]
  rw [run_ofExcept_bind] at hrun
  cases hv : w.validate with
  | error err =>
    rw [hv] at hrun
    exact .inl (hfails hrun)
  | ok =>
    rw [hv] at hrun
    dsimp only at hrun
    rw [run_onDatabase] at hrun
    cases hd : e.databases[other]? with
    | none =>
      rw [hd] at hrun
      exact .inl (hfails hrun)
    | some d =>
      rw [hd] at hrun
      refine .inr ⟨d, _, rfl, rfl, rfl, ?_, fun a ha => ?_⟩
      · rw [after_of_run hrun]
        dsimp only
        cases (w.action (e.scope other)).run { database := d } <;> rfl
      · rw [result?, hrun] at ha
        dsimp only at ha
        cases hres : (w.action (e.scope other)).run { database := d } with
        | ok b w' =>
          rw [hres] at ha
          cases ha
          exact ⟨w', rfl⟩
        | error err w' =>
          rw [hres] at ha
          cases ha

/-- What a write tells is what its commands say. -/
theorem Undisturbed.climbs_absorb {d : Database} {w' : Work} (hd : e.databases[db]? = some d)
    (htells : Work.Tells (w.Forces key field) e.now key field { database := d } vs w')
    (hafter : e.after (.write db w) = e.absorb db w') (h : e.Undisturbed db key field (.write db w))
    {old : Record} (hold : e.live? db key field = some old) :
    e.versions db key field (.write db w) = vs ∧
      ∃ r, (e.after (.write db w)).live? db key field = some r ∧
        Version.Climbs old.version vs r.version := by
  obtain ⟨cs, hemitted, hvs, hclimbs⟩ := htells.told
  have htold : e.told (.write db w) = cs.map (db, ·) :=
    told_of_absorb hafter (hemitted.trans (List.append_nil _))
  have hcalm : ∀ c ∈ cs, ¬c.Disturbs (w.Forces key field) e.now key field := by
    intro c hc
    have hc : (db, c) ∈ e.told (.write db w) := htold ▸ List.mem_map_of_mem hc
    rintro (hclears | ⟨hforces, hat⟩)
    · exact h.stays c hc hclears
    · exact h.unforced ⟨rfl, hforces⟩ c hc hat
  obtain ⟨r, hr, hup⟩ := hclimbs old ((live?_of_getElem? hd).symm.trans hold) hcalm
  refine ⟨?_, r, ?_, hup⟩
  · rw [versions_of_told cs htold, if_pos rfl, hvs]
  · rw [hafter, live?_absorb_self hd, hr]

/-- A write that leaves a field undisturbed may have moved its version up. -/
theorem Undisturbed.climbs_write (ht : ∀ d ∈ e.databases, d.keys.Tidy)
    (h : e.Undisturbed db key field (.write other w)) {old : Record}
    (hold : e.live? db key field = some old) :
    (∃ r, (e.after (.write other w)).live? db key field = some r ∧
      Version.Climbs old.version (e.versions db key field (.write other w)) r.version) ∧
    ∀ a, e.result? (.write other w) = some a → (Request.write other w).Wrote db key field a →
      e.versions db key field (.write other w) ≠ [] := by
  rcases after_write e other w with ⟨hafter, hresult⟩ | ⟨d, res, hv, hd, hrun, hafter, hresult⟩
  · have hvs : e.versions db key field (.write other w) = [] := by
      rw [versions, told_of_after_eq hafter]
      rfl
    rw [hvs, hafter]
    refine ⟨⟨old, hold, .nil _⟩, fun a ha => ?_⟩
    cases hresult.symm.trans ha
  · by_cases hdb : other = db
    · subst hdb
      have htold := told_write (w := { database := d }) (e.scope other) key field hv
        (ht d (List.mem_of_getElem? hd))
      rw [hrun] at htold
      obtain ⟨vs, htells, hagrees⟩ := htold.tells
      obtain ⟨hvs, hclimbs⟩ := h.climbs_absorb hd htells hafter hold
      rw [hvs]
      refine ⟨hclimbs, fun a ha hwrote => ?_⟩
      obtain ⟨w', hres⟩ := hresult a ha
      exact hagrees a w' hres hwrote.2
    · -- a write to another database tells nothing of this one
      have hvs : e.versions db key field (.write other w) = [] := by
        rw [versions_of_told _ (told_of_absorb hafter (List.reverse_reverse _).symm), if_neg hdb]
      rw [hvs, hafter, live?_absorb_of_ne hdb]
      exact ⟨⟨old, hold, .nil _⟩, fun a _ hwrote => absurd hwrote.1 hdb⟩

end Write

/-- A request that is no write to fields and leaves a field undisturbed leaves its record as it is. -/
theorem Undisturbed.live?_eq {l : Layout} (hanchored : ∀ d ∈ e.databases, d.Anchored l)
    (h : e.Undisturbed db key field r) (hw : ¬r.IsWrite) {old : Record}
    (hold : e.live? db key field = some old) :
    (e.after r).live? db key field = some old := by
  obtain ⟨r', hr'⟩ := Option.isSome_iff_exists.mp h.live
  obtain ⟨hrecord', -⟩ := live?_eq_some_iff.mp hr'
  obtain ⟨hrecord, -⟩ := live?_eq_some_iff.mp hold
  suffices e.record? db key field = some r' by
    cases this.symm.trans hrecord
    exact hr'
  by_cases hplain : r.IsPlain
  · obtain ⟨evs, haccounted⟩ := accounted_perform hanchored h.primary hplain
    obtain ⟨d, hd, hrecord'⟩ := Option.bind_eq_some_iff.mp hrecord'
    obtain ⟨d', hd', hcourse⟩ := haccounted.accounts.source hd
    rw [record?_of_getElem? hd']
    refine hcourse.record?_of_some (fun ev hm => ?_) hrecord'
    exact Request.isStore_of_may hw (haccounted.may _ (mem_eventsOf.mp hm))
  · exact (h.kept hplain).symm.trans hrecord'

/-- What a request makes of the version of a field that it leaves undisturbed. -/
theorem Undisturbed.climbs {l : Layout} (hanchored : ∀ d ∈ e.databases, d.Anchored l)
    (h : e.Undisturbed db key field r) {old : Record} (hold : e.live? db key field = some old) :
    (∃ r', (e.after r).live? db key field = some r' ∧
      Version.Climbs old.version (e.versions db key field r) r'.version) ∧
    ∀ a, e.result? r = some a → r.Wrote db key field a → e.versions db key field r ≠ [] := by
  have hother (hw : ¬r.IsWrite) (hvs : e.versions db key field r = []) :
      ∃ r', (e.after r).live? db key field = some r' ∧
        Version.Climbs old.version (e.versions db key field r) r'.version :=
    ⟨old, h.live?_eq hanchored hw hold, hvs ▸ .nil _⟩
  cases r with
  | write other w => exact h.climbs_write (fun d hd => (hanchored d hd).tidy) hold
  | _ => exact ⟨hother id rfl, fun _ _ hwrote => hwrote.elim⟩

theorem Since.reaches (h : Since db key field e vs wrote f) :
    e.Reaches (fun _ _ => True) f := by
  induction h with
  | refl => exact .refl
  | step r _ _ ih => exact .step r ih trivial

/-- From what was read on, the field stays live, and its version climbs as it is written. -/
theorem Since.climbs {l : Layout}
    (hanchored : ∀ f, e.Reaches (fun _ _ => True) f → ∀ d ∈ f.databases, d.Anchored l)
    (h : Since db key field e vs wrote f) {old : Record} (hold : e.live? db key field = some old) :
    (∃ r, f.live? db key field = some r ∧ Version.Climbs old.version vs r.version) ∧
      (wrote → vs ≠ []) := by
  -- the invariant is that the field is live and its version has climbed from the one read
  induction h with
  | refl => exact ⟨⟨old, hold, .nil _⟩, False.elim⟩
  | @step _ vs wrote f r h hr ih =>
    obtain ⟨⟨mid, hmid, hup⟩, hwrote⟩ := ih
    obtain ⟨⟨r', hr', hup'⟩, hwrote'⟩ := hr.climbs (hanchored f h.reaches) hmid
    refine ⟨⟨r', hr', hup.append hup'⟩, ?_⟩
    rintro (hbefore | ⟨a, hresult, ha⟩)
    · exact List.append_ne_nil_of_left_ne_nil (hwrote hbefore) _
    · exact List.append_ne_nil_of_right_ne_nil _ (hwrote' a hresult ha)

/-- A field set without an expiry time stays live, and the command tells its version. -/
theorem Since.set (value : Bytes) (rule : WriteRule) (version : UInt64)
    (h : ∃ wrote, Since db key field e vs wrote f) (hp : f.role = .primary)
    (hforces : rule.version.forces = false)
    (hmet : f.result? (.write db (.set key field value rule)) = some .updated)
    (hlive : ((f.after (.write db (.set key field value rule))).live? db key field).isSome = true)
    (htold : f.told (.write db (.set key field value rule)) =
      [(db, .set key field value version 0)]) :
    ∃ wrote, wrote ∧ Since db key field e (vs ++ [version]) wrote
      (f.after (.write db (.set key field value rule))) := by
  obtain ⟨_, h⟩ := h
  have hvs : f.versions db key field (.write db (.set key field value rule)) = [version] := by
    simp [versions_of_told [.set key field value version 0] htold, Command.versions,
      Command.version?]
  have hundisturbed : f.Undisturbed db key field (.write db (.set key field value rule)) := by
    refine ⟨hp, hlive, fun c hc => ?_, fun hf => ?_, fun hno => absurd trivial hno⟩
    · rw [htold, List.mem_singleton] at hc
      cases hc
      rintro ⟨-, -, hx⟩
      cases hx
    · cases hforces.symm.trans hf.2.2.2
  have hstep := Since.step _ h hundisturbed
  rw [hvs] at hstep
  exact ⟨_, .inr ⟨_, hmet, rfl, rfl, rfl, by decide⟩, hstep⟩

/-- Whoever reads a version might have read all of the field. -/
theorem Reads.exists_get (h : e.Reads db key field v f) :
    ∃ view, (Request.read db (.get key field)).perform.run e = .ok view f ∧ view.version = v := by
  cases h with
  | get h hv => exact ⟨_, run_of_result? h, hv⟩
  | version h =>
    have hversion := run_of_result? h
    rw [Request.perform] at hversion
    obtain ⟨d, w', hd, hrun, hafter⟩ := ok_of_onDatabase hversion
    obtain ⟨view, w'', hget, hrest⟩ := ok_of_run_bind hrun
    cases hrest
    refine ⟨view, ?_, rfl⟩
    rw [Request.perform, hafter]
    exact run_onDatabase_of_run (.ok view) hd hget

theorem Reads.reaches (h : e.Reads db key field v f) : e.Reaches (fun _ _ => True) f := by
  obtain ⟨view, hrun, -⟩ := h.exists_get
  have hafter : e.after (.read db (.get key field)) = f := after_of_run hrun
  exact hafter ▸ .step _ .refl trivial

/-- What was read is the version of the live record, which reading leaves as it is. -/
theorem Reads.live? (ht : ∀ d ∈ e.databases, d.keys.Tidy) (h : e.Reads db key field v f) :
    ∃ old, f.live? db key field = some old ∧ old.version = v := by
  obtain ⟨view, hget, rfl⟩ := h.exists_get
  rw [Request.perform] at hget
  obtain ⟨d, w', hd, hrun, rfl⟩ := ok_of_onDatabase hget
  have htidy := ht d (List.mem_of_getElem? hd)
  have ho : d.keys.Open key := by
    by_contra ho
    have hmistypes : Mistypes key ((e.scope db).getField key field) :=
      (Mistypes.liveField (e.scope db) key field).bind _
    cases hrun.symm.trans (hmistypes { database := d } htidy ho)
  obtain ⟨w₁, hlive, hswept⟩ := swept_liveField (w := { database := d }) (e.scope db) htidy ho field
  obtain ⟨found, w₂, hfound, hview⟩ := ok_of_run_bind hrun
  cases hlive.symm.trans hfound
  cases hold : (Work.fieldsAt { database := d } key).live? field (e.scope db).now with
  | none =>
    rw [hold] at hview
    cases hview
  | some old =>
    rw [hold] at hview
    cases hview
    exact ⟨old, (live?_absorb_self hd w').trans (hswept.live? hold), rfl⟩

/-- A request that demands another version than that of a live record answers as it must and leaves
the record as it is. -/
theorem perform_stale (ht : ∀ d ∈ e.databases, d.keys.Tidy) {old : Record}
    (hold : e.live? db key field = some old) (h0 : v ≠ 0) (hne : old.version ≠ v)
    (hr : r.Demands db key field v) :
    ∃ f, r.perform.run e = outcomeIn f (r.staleAnswer old) ∧ f.live? db key field = some old := by
  obtain ⟨d, hd, hlive⟩ := exists_of_live? hold
  have htidy := ht d (List.mem_of_getElem? hd)
  -- what happens in the database happens in the engine
  have hreplies (action : Scope → DatabaseM α) {answer : Except HashError α}
      (h : Replies (e.scope db) key field old answer (action (e.scope db))) :
      ∃ f, (onDatabase db action).run e = outcomeIn f answer ∧ f.live? db key field = some old := by
    obtain ⟨w', hswept, hrun⟩ := h { database := d } htidy hlive
    exact ⟨e.absorb db w', run_onDatabase_of_run answer hd hrun,
      (live?_absorb_self hd w').trans (hswept.live? hlive)⟩
  cases r with
  | write other w =>
    obtain ⟨rfl, hdemands⟩ := hr
    have hrun : (Request.write other w).perform.run e =
        (MonadExcept.ofExcept w.validate >>= fun _ => onDatabase other fun s => w.action s).run e := rfl
    rw [hrun, run_ofExcept_bind, Request.staleAnswer]
    cases hv : w.validate with
    | error err => exact ⟨e, rfl, hold⟩
    | ok => exact hreplies (fun s => w.action s) (replies_write h0 hne hv hdemands)
  | delete other deletion =>
    obtain ⟨rfl, hdemands⟩ := hr
    cases deletion with
    | one k f version =>
      obtain ⟨rfl, rfl, rfl⟩ := hdemands
      exact hreplies (fun s => s.deleteField k f (.matching v))
        (replies_delete (d := .one k f (.matching v)) h0 hne ⟨rfl, rfl, rfl⟩)
    | all => cases hdemands
    | allChecked => cases hdemands
  | _ => cases hr

/-- A batch of deletes that names another version for a field passes it over. -/
theorem perform_stale_batch (ht : ∀ d ∈ e.databases, d.keys.Tidy) {old : Record}
    (hold : e.live? db key field = some old) (h0 : v ≠ 0) (hne : old.version ≠ v)
    {entries : List (Bytes × UInt64)} (hentries : ∀ entry ∈ entries, entry.1 = field → entry.2 = v) :
    ∃ n f, (Request.delete db (.allChecked key entries)).perform.run e = .ok n f ∧
      f.live? db key field = some old := by
  obtain ⟨d, hd, hlive⟩ := exists_of_live? hold
  have hendures : Endures (e.scope db) key field old
      ((FieldDelete.allChecked key entries).action (e.scope db)) := by
    refine endures_deleteFieldsChecked h0 hne (fun _ hm => ?_) fun _ hm hfield => ?_
    all_goals obtain ⟨entry, hentry, rfl⟩ := List.mem_map.mp hm
    · rfl
    · exact congrArg _ (hentries entry hentry hfield)
  obtain ⟨n, w', hrun, -, hold'⟩ := hendures { database := d } (ht d (List.mem_of_getElem? hd)) hlive
  refine ⟨n, e.absorb db w', ?_, (live?_absorb_self hd w').trans hold'⟩
  have hperform : (Request.delete db (.allChecked key entries)).perform =
      onDatabase db fun s => (FieldDelete.allChecked key entries).action s := rfl
  rw [hperform]
  exact run_onDatabase_of_run (.ok n) hd hrun

/-- A client of a primary reads a version of a live field, not 0. Afterwards the field is neither
deleted, expired, replaced by a request about keys, a load or a replicated command, nor is a version
forced on it, but some write of it succeeds. Unless the versions that writes have stored in it since
have gone round all words, once or more, and are back at the version read, a write or delete that
demands that version leaves the record as it is: it is refused for its version, or for what is looked
at before the version, or its condition is not met. A batch of deletes passes the field over. -/
theorem stale_demand_refused {config : Config} {now : UInt64}
    (he : (new config now).Reaches (fun _ _ => True) e) (hread : e.Reads db key field v f)
    (hsince : Since db key field f vs wrote g) (hwrote : wrote) (h0 : v ≠ 0)
    (hround : ∀ k, Version.climb v vs ≠ (k + 1) * UInt64.size) :
    ∃ old, g.live? db key field = some old ∧ old.version ≠ v ∧
      (∀ {α : Type} (r : Request α), r.Demands db key field v →
        ∃ g', r.perform.run g = outcomeIn g' (r.staleAnswer old) ∧
          g'.live? db key field = some old) ∧
      ∀ entries : List (Bytes × UInt64), (∀ entry ∈ entries, entry.1 = field → entry.2 = v) →
        ∃ n g', (Request.delete db (.allChecked key entries)).perform.run g = .ok n g' ∧
          g'.live? db key field = some old := by
  have hf := he.trans hread.reaches
  have ht := tidy_of_reaches (hf.trans hsince.reaches)
  obtain ⟨r₀, hr₀, rfl⟩ := hread.live? (tidy_of_reaches he)
  obtain ⟨⟨old, hold, hup⟩, hne⟩ :=
    hsince.climbs (fun g hg => anchored_of_reaches (hf.trans hg)) hr₀
  have hne := hup.ne (hne hwrote) hround
  exact ⟨old, hold, hne, fun r hr => perform_stale ht hold h0 hne hr,
    fun entries hentries => perform_stale_batch ht hold h0 hne hentries⟩

/-- The greatest version is read, and the next two writes of others store 0 and 9. The value is no
number, which is found out before the version is looked at. -/
theorem stale_demand_refused_wrapped :
    let set (value : Bytes) (version : VersionPolicy) : Request SetOutcome :=
      .write 0 (.set [1] [10] value { version })
    let e := (new {} 1000).after (set [97] (.greater 18446744073709551615))
    let f := e.after (.read 0 (.version [1] [10]))
    let g := (f.after (set [98] .next)).after (set [99] (.greater 9))
    let r : Request Int := .write 0 (.incrBy [1] [10] 5 {} (.matching 18446744073709551615) .keep)
    let r' : Request Bool := .delete 0 (.one [1] [10] (.matching 18446744073709551615))
    (new {} 1000).Reaches (fun _ _ => True) e ∧ e.Reads 0 [1] [10] 18446744073709551615 f ∧
      (∃ wrote, wrote ∧ Since 0 [1] [10] f [0, 9] wrote g) ∧
      Version.climb 18446744073709551615 [0, 9] = 10 ∧
      (∃ g', r.perform.run g = .error .notInteger g' ∧ g'.live? 0 [1] [10] = some ⟨[99], 9, 0⟩) ∧
      ∃ g', r'.perform.run g = .error .versionConflict g' ∧
        g'.live? 0 [1] [10] = some ⟨[99], 9, 0⟩ := by
  intro set e f g r r'
  have he : (new {} 1000).Reaches (fun _ _ => True) e := .step _ .refl trivial
  have hread : e.Reads 0 [1] [10] 18446744073709551615 f :=
    .version (by decide +kernel)
  obtain ⟨_, -, hfirst⟩ : ∃ wrote, wrote ∧ Since 0 [1] [10] f [0] wrote (f.after (set [98] .next)) :=
    Since.set [98] {} 0 ⟨_, .refl⟩ rfl rfl (by decide +kernel) (by decide +kernel)
      (by decide +kernel)
  obtain ⟨wrote, hwrote, hsince⟩ : ∃ wrote, wrote ∧ Since 0 [1] [10] f [0, 9] wrote g :=
    Since.set [99] { version := .greater 9 } 9 ⟨_, hfirst⟩ rfl rfl (by decide +kernel)
      (by decide +kernel) (by decide +kernel)
  have hclimb : Version.climb 18446744073709551615 [0, 9] = 10 := rfl
  have hround (k : Nat) : Version.climb 18446744073709551615 [0, 9] ≠ (k + 1) * UInt64.size := by
    rw [hclimb, UInt64.size]
    omega
  obtain ⟨old, hold, -, hrefused, -⟩ :=
    stale_demand_refused he hread hsince hwrote (by decide) hround
  obtain rfl : ⟨[99], 9, 0⟩ = old := Option.some.inj (.trans (by decide +kernel) hold)
  exact ⟨he, hread, ⟨wrote, hwrote, hsince⟩, hclimb, hrefused r ⟨rfl, rfl, rfl, rfl⟩,
    hrefused r' ⟨rfl, rfl, rfl, rfl⟩⟩

/-- Versions that have gone all the way round, in three writes, are back at 5, which was read. A
version 0 that was read is demanded of no record. A condition that is not met declines a write before
its version is looked at. -/
theorem stale_demand_met :
    let set (value : Bytes) (version : VersionPolicy) : Request SetOutcome :=
      .write 0 (.set [1] [10] value { version })
    let e := (new {} 1000).after (set [97] (.greater 5))
    let f := e.after (.read 0 (.version [1] [10]))
    let g := ((f.after (set [98] (.greater 18446744073709551615))).after (set [99] .next)).after
      (set [100] (.greater 5))
    let zero := ((new {} 1000).after (set [97] (.greater 18446744073709551615))).after (set [98] .next)
    let zero' := zero.after (.read 0 (.version [1] [10]))
    let one := zero'.after (set [99] .next)
    let absent : Request SetOutcome :=
      .write 0 (.set [1] [10] [101] { condition := .ifAbsent, version := .matching 5 })
    ((new {} 1000).Reaches (fun _ _ => True) e ∧ e.Reads 0 [1] [10] 5 f ∧
      (∃ vs wrote, wrote ∧ Since 0 [1] [10] f vs wrote g) ∧
      g.result? (set [101] (.matching 5)) = some .updated ∧
      (g.after (set [101] (.matching 5))).live? 0 [1] [10] = some ⟨[101], 6, 0⟩) ∧
    ((new {} 1000).Reaches (fun _ _ => True) zero ∧ zero.Reads 0 [1] [10] 0 zero' ∧
      (∃ vs wrote, wrote ∧ Since 0 [1] [10] zero' vs wrote one) ∧
      one.result? (set [101] (.matching 0)) = some .updated ∧
      (one.after (set [101] (.matching 0))).live? 0 [1] [10] = some ⟨[101], 2, 0⟩) ∧
    (∃ vs wrote, wrote ∧ Since 0 [1] [10] f vs wrote (f.after (set [98] .next))) ∧
      (f.after (set [98] .next)).result? absent = some .conditionNotMet := by
  intro set e f g zero zero' one absent
  refine ⟨⟨.step _ .refl trivial, .version (by decide +kernel),
      ⟨[18446744073709551615, 0, 5], ?_⟩, by decide +kernel, by decide +kernel⟩,
    ⟨.step _ (.step _ .refl trivial) trivial, .version (by decide +kernel), ⟨[1], ?_⟩,
      by decide +kernel, by decide +kernel⟩, ⟨[6], ?_⟩, by decide +kernel⟩
  · have hfirst : ∃ wrote, wrote ∧ Since 0 [1] [10] f [18446744073709551615] wrote
        (f.after (set [98] (.greater 18446744073709551615))) :=
      Since.set [98] { version := .greater _ } _ ⟨_, .refl⟩ rfl rfl (by decide +kernel)
        (by decide +kernel) (by decide +kernel)
    have hsecond : ∃ wrote, wrote ∧ Since 0 [1] [10] f [18446744073709551615, 0] wrote
        ((f.after (set [98] (.greater 18446744073709551615))).after (set [99] .next)) :=
      Since.set [99] {} 0 (hfirst.imp fun _ h => h.2) rfl rfl (by decide +kernel)
        (by decide +kernel) (by decide +kernel)
    exact Since.set [100] { version := .greater 5 } 5 (hsecond.imp fun _ h => h.2) rfl rfl
      (by decide +kernel) (by decide +kernel) (by decide +kernel)
  · exact Since.set [99] {} 1 ⟨_, .refl⟩ rfl rfl (by decide +kernel) (by decide +kernel)
      (by decide +kernel)
  · exact Since.set [98] {} 6 ⟨_, .refl⟩ rfl rfl (by decide +kernel) (by decide +kernel)
      (by decide +kernel)

end Engine

end ExpiringHash
