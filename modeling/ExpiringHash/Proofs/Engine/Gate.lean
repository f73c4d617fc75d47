import ExpiringHash.Proofs.Database.Gate
import ExpiringHash.Proofs.Engine.Batches

/-!
# Whatever writes goes through one gate

The requests that take a version policy check it in places of their own. All of them agree with the
policy applied in one step to the version of the live record, and so versions that are set because they
are greater go up for as long as a field stays live.
-/
namespace ExpiringHash

variable {α : Type} {p : VersionPolicy} {key field : Bytes}

namespace Request

/-- The request goes through the gate of a policy on a field. -/
def Gated (db : Nat) (key field : Bytes) (p : VersionPolicy) : Request α → Prop
  | .write other w => other = db ∧ w.Gated key field p
  | .delete other d => other = db ∧ d.Gated key field p
  | _ => False

/-- The answer says that a field was deleted. -/
def Deleted : ∀ {α : Type}, Request α → α → Prop
  | _, .delete _ (.one ..), deleted => deleted = true
  | _, _, _ => False

end Request

namespace Engine

variable {e : Engine} {db : Nat} {r : Request α}

/-- A request agrees with a policy that is applied to the version of a live field. If it writes the
field, the version that the policy gives is stored, and told by the only command that tells of a
record; if it deletes the field, the policy lets it. It is refused for the version only if the policy
refuses that of a live record, and for a malformed policy before anything is looked at. -/
structure Agrees (e : Engine) (db : Nat) (key field : Bytes) (p : VersionPolicy) (r : Request α) :
    Prop where
  wrote : ∀ {a}, e.result? r = some a → r.Wrote db key field a →
    ∃ v c, p.apply ((e.live? db key field).map (·.version)) = .ok v ∧
      ((e.after r).record? db key field).map (·.version) = some v ∧
      (e.told r).filter (·.2.isVersioned) = [(db, c)] ∧ c.version? key field = some v
  deleted : ∀ {a}, e.result? r = some a → r.Deleted a →
    ∃ v, p.apply ((e.live? db key field).map (·.version)) = .ok v
  refused : ∀ {e'}, r.perform.run e = .error .versionConflict e' →
    ∃ old, e.live? db key field = some old ∧ p.apply (some old.version) = .error .versionConflict
  malformed : p = .absolute 0 ∨ p = .greater 0 → r.perform.run e = .error .badOption e

/-- A record that is stored in a database has the version that the only command of its kind tells. -/
theorem version_of_stores {d : Database} (hd : e.databases[db]? = some d) {w₁ w : Work} {v : UInt64}
    (hswept : Work.Swept e.now key { database := d } w₁) (h : w₁.Stores e.now key field v w)
    (hafter : e.after r = e.absorb db w) :
    ((e.after r).record? db key field).map (·.version) = some v ∧
      ∃ c, (e.told r).filter (·.2.isVersioned) = [(db, c)] ∧ c.version? key field = some v := by
  obtain ⟨c, hc, hlogs⟩ := h
  obtain ⟨hevent, rfl, hfield, hversioned, hversion⟩ := Command.of_version? hc
  constructor
  · have hstored := hlogs.happens
    rw [hevent] at hstored
    obtain ⟨name, r', hname, hr'⟩ := hstored.of_stored
    cases hname.symm.trans hfield
    have hrecord := hlogs.happens.record?_event hfield
    rw [hafter, record?_of_getElem? (getElem?_absorb_self hd w), hr', Option.map_some,
      hversion (hrecord.symm.trans hr')]
  · obtain ⟨cs, htold, hnone⟩ := told_of_stored hafter hswept (hevent ▸ hlogs)
    have hquiet : cs.filter (·.2.isVersioned) = [] :=
      List.filter_eq_nil_iff.mpr fun c' hm => Bool.eq_false_iff.mp (hnone c' hm)
    refine ⟨c, ?_, hc⟩
    rw [htold, List.filter_append, hquiet, List.nil_append]
    exact List.filter_eq_self.mpr (List.forall_mem_singleton.mpr hversioned)

/-- An action that agrees with a policy in its database does so in the engine. -/
theorem guarded_onDatabase (action : Scope → DatabaseM α) {done : α → Prop}
    {left : Work → UInt64 → Work → Prop} (ht : ∀ d ∈ e.databases, d.keys.Tidy)
    (hm : Mistypes key (action (e.scope db)))
    (hg : Guards (e.scope db) key field p done left (action (e.scope db))) :
    (∀ {a f}, (onDatabase db action).run e = .ok a f → done a → ∃ d v w₁ w,
      e.databases[db]? = some d ∧ p.apply ((e.live? db key field).map (·.version)) = .ok v ∧
        Work.Swept e.now key { database := d } w₁ ∧ left w₁ v w ∧ f = e.absorb db w) ∧
    ∀ {f}, (onDatabase db action).run e = .error .versionConflict f →
      p.apply ((e.live? db key field).map (·.version)) = .error .versionConflict := by
  rcases refused_or_open action ht hm with ⟨err, hrun, herr⟩ | ⟨d, hd, ho⟩
  · refine ⟨fun hrun' => (nomatch hrun.symm.trans hrun'), fun hrun' => ?_⟩
    cases hrun.symm.trans hrun'
    rcases herr with h | h <;> cases h
  · have h := hg { database := d } (ht d (List.mem_of_getElem? hd)) ho
    rw [run_onDatabase, hd, live?_of_getElem? hd]
    dsimp only
    revert h
    generalize (action (e.scope db)).run { database := d } = res
    intro h
    cases h with
    | ok h =>
      refine ⟨fun hrun hdone => ?_, nofun⟩
      cases hrun
      obtain ⟨v, w₁, happly, hswept, hleft⟩ := h hdone
      exact ⟨d, v, w₁, _, rfl, happly, hswept, hleft, rfl⟩
    | error h =>
      refine ⟨nofun, fun hrun => ?_⟩
      cases hrun
      exact h rfl

/-- A live record is behind what is refused for its version. -/
theorem exists_live?_of_conflict
    (h : p.apply ((e.live? db key field).map (·.version)) = .error .versionConflict) :
    ∃ old, e.live? db key field = some old ∧ p.apply (some old.version) = .error .versionConflict := by
  obtain ⟨v, hv⟩ := VersionPolicy.exists_of_conflict h
  obtain ⟨old, hold, rfl⟩ := Option.map_eq_some_iff.mp hv
  exact ⟨old, hold, hv ▸ h⟩

/-- A malformed policy is refused before anything is looked at. -/
theorem Agrees.of_malformed (hrun : r.perform.run e = .error .badOption e) :
    e.Agrees db key field p r := by
  have hresult : e.result? r = none := by rw [result?, hrun]
  refine ⟨fun h => ?_, fun h => ?_, fun h => ?_, fun _ => hrun⟩
  · cases hresult.symm.trans h
  · cases hresult.symm.trans h
  · cases hrun.symm.trans h

theorem agrees_write (ht : ∀ d ∈ e.databases, d.keys.Tidy) {w : FieldWrite α}
    (hg : w.Gated key field p) : e.Agrees db key field p (.write db w) := by
  have hrun : (Request.write db w).perform.run e =
      (MonadExcept.ofExcept w.validate >>= fun _ => onDatabase db fun s => w.action s).run e := rfl
  rw [run_ofExcept_bind] at hrun
  cases hm : p.isMalformed with
  | true =>
    rw [FieldWrite.validate_of_isMalformed hg hm] at hrun
    exact .of_malformed hrun
  | false =>
    obtain ⟨hpasses, hrefuses⟩ := guarded_onDatabase (fun s => w.action s) ht
      (FieldWrite.key_of_gated hg ▸ mistypes_write (e.scope db) w)
      (guards_write (e.scope db) hm hg)
    refine ⟨fun h hwrote => ?_, fun _ h => h.elim, fun h => ?_, fun h => ?_⟩
    · have hok := run_of_result? h
      cases hv : w.validate with
      | error err =>
        rw [hv] at hrun
        cases hrun.symm.trans hok
      | ok =>
        rw [hv] at hrun
        obtain ⟨d, v, w₁, w', hd, happly, hswept, hstores, hafter⟩ :=
          hpasses (hrun.symm.trans hok) hwrote.2
        obtain ⟨hrecord, c, htold, hc⟩ := version_of_stores hd hswept hstores hafter
        exact ⟨v, c, happly, hrecord, htold, hc⟩
    · refine exists_live?_of_conflict ?_
      cases hv : w.validate with
      | error err =>
        rw [hv] at hrun
        cases hrun.symm.trans h
        exact absurd hv (FieldWrite.validate_ne_conflict hg)
      | ok =>
        rw [hv] at hrun
        exact hrefuses (hrun.symm.trans h)
    · cases hm.symm.trans (VersionPolicy.isMalformed_of_zero h)

theorem agrees_delete (ht : ∀ d ∈ e.databases, d.keys.Tidy) {d : FieldDelete α}
    (hg : d.Gated key field p) : e.Agrees db key field p (.delete db d) := by
  cases d with
  | all => cases hg
  | allChecked => cases hg
  | one k f version =>
    obtain ⟨rfl, rfl, rfl⟩ := hg
    have hrun : (Request.delete db (.one k f version)).perform.run e =
        (MonadExcept.ofExcept (discard version.validate) >>= fun _ =>
          onDatabase db fun s => s.deleteField k f version).run e := rfl
    rw [run_ofExcept_bind] at hrun
    cases hm : version.isMalformed with
    | true =>
      rw [VersionPolicy.validate_of_isMalformed hm] at hrun
      exact .of_malformed hrun
    | false =>
      rw [VersionPolicy.validate_of_wellFormed hm] at hrun
      obtain ⟨hpasses, hrefuses⟩ := guarded_onDatabase (fun s => s.deleteField k f version) ht
        ((Mistypes.checkType k).bind _) (guards_deleteField (e.scope db) k f hm)
      refine ⟨fun _ h => h.elim, fun h hdeleted => ?_, fun h => ?_, fun h => ?_⟩
      · obtain ⟨d, v, w₁, w, hd, happly, -⟩ :=
          hpasses (hrun.symm.trans (run_of_result? h)) hdeleted
        exact ⟨v, happly⟩
      · exact exists_live?_of_conflict (hrefuses (hrun.symm.trans h))
      · cases hm.symm.trans (VersionPolicy.isMalformed_of_zero h)

theorem agrees_of_gated (ht : ∀ d ∈ e.databases, d.keys.Tidy) (hr : r.Gated db key field p) :
    e.Agrees db key field p r := by
  cases r with
  | write other w =>
    obtain ⟨rfl, hg⟩ := hr
    exact agrees_write ht hg
  | delete other d =>
    obtain ⟨rfl, hg⟩ := hr
    exact agrees_delete ht hg
  | _ => cases hr

/-- A field stays live, and the versions that greater ones have set in it, one request after the other.
Whatever else is asked in between leaves its version. -/
inductive Ascent (db : Nat) (key field : Bytes) (e : Engine) : List UInt64 → Engine → Prop
  | refl : Ascent db key field e [] e
  | write {α : Type} {vs : List UInt64} {f : Engine} {r : Request α} {a : α} {v : UInt64}
      {new : Record} (h : Ascent db key field e vs f) (hr : r.Gated db key field (.greater v))
      (hdone : f.result? r = some a) (hwrote : r.Wrote db key field a)
      (hlive : (f.after r).live? db key field = some new) :
      Ascent db key field e (vs ++ [new.version]) (f.after r)
  | other {α : Type} {vs : List UInt64} {f : Engine} {r : Request α} (h : Ascent db key field e vs f)
      (hkept : ((f.after r).live? db key field).map (·.version) =
        (f.live? db key field).map (·.version)) :
      Ascent db key field e vs (f.after r)

namespace Ascent

variable {vs : List UInt64} {f : Engine}

theorem reaches (h : Ascent db key field e vs f) : e.Reaches (fun _ _ => True) f := by
  induction h with
  | refl => exact .refl
  | write _ _ _ _ _ ih => exact .step _ ih trivial
  | other _ _ ih => exact .step _ ih trivial

/-- The versions go up, and none is greater than the last. -/
theorem strict (h : Ascent db key field e vs f)
    (ht : ∀ g, e.Reaches (fun _ _ => True) g → ∀ d ∈ g.databases, d.keys.Tidy) {old : Record}
    (hold : e.live? db key field = some old) :
    (old.version :: vs).Pairwise (· < ·) ∧
      ∃ v, (f.live? db key field).map (·.version) = some v ∧ ∀ u ∈ old.version :: vs, u ≤ v := by
  induction h with
  | refl =>
    refine ⟨List.pairwise_singleton _ _, old.version, by rw [hold, Option.map_some], ?_⟩
    exact List.forall_mem_singleton.mpr (UInt64.le_refl _)
  | other _ hkept ih =>
    obtain ⟨hup, v, hv, hle⟩ := ih
    exact ⟨hup, v, hkept.trans hv, hle⟩
  | @write _ vs f r a v new h hr hdone hwrote hlive ih =>
    obtain ⟨hup, last, hlast, hle⟩ := ih
    obtain ⟨v', c, happly, hrecord, -⟩ :=
      (agrees_of_gated (ht f h.reaches) hr).wrote hdone hwrote
    -- the version stored is that of the record that is live now
    rw [(live?_eq_some_iff.mp hlive).1, Option.map_some] at hrecord
    cases hrecord
    rw [hlast] at happly
    have hlt := VersionPolicy.lt_of_apply_greater happly
    have hall : ∀ u ∈ old.version :: vs, u < new.version := fun u hu =>
      UInt64.lt_of_le_of_lt (hle u hu) hlt
    rw [← List.cons_append]
    refine ⟨?_, new.version, by rw [hlive, Option.map_some], ?_⟩
    · refine List.pairwise_append.mpr ⟨hup, List.pairwise_singleton _ _, fun u hu w hw => ?_⟩
      exact List.mem_singleton.mp hw ▸ hall u hu
    · refine List.forall_mem_append.mpr ⟨fun u hu => UInt64.le_of_lt (hall u hu), ?_⟩
      exact List.forall_mem_singleton.mpr (UInt64.le_refl _)

end Ascent

/-- In any state and role, every request that takes a version policy agrees with that policy applied to
the version of the live record, or to none. So while a field stays live, the versions that greater ones
set in it go up. -/
theorem writes_gated {config : Config} {now : UInt64}
    (he : (new config now).Reaches (fun _ _ => True) e) :
    (∀ {α : Type} (r : Request α) (db : Nat) (key field : Bytes) (p : VersionPolicy),
      r.Gated db key field p → e.Agrees db key field p r) ∧
    ∀ {db : Nat} {key field : Bytes} {old : Record} {vs : List UInt64} {f : Engine},
      e.live? db key field = some old → Ascent db key field e vs f →
        (old.version :: vs).Pairwise (· < ·) :=
  ⟨fun _ _ _ _ _ => agrees_of_gated (tidy_of_reaches he), fun hold h =>
    (h.strict (fun _ hg => tidy_of_reaches (he.trans hg)) hold).1⟩

/-- On a replica, where a field has expired, a sum starts from no version at all. A change of expiry, a
delete and a malformed policy follow, the last for a database that there is not, and two greater versions
one after the other. -/
theorem writes_gated_replica :
    let set (field : Bytes) (rule : WriteRule) : Request SetOutcome := .write 0 (.set [1] field [53] rule)
    let e := ((((new {} 1000).after (set [10] { version := .greater 5 })).after
      (set [11] { ttl := .set (.after 9), version := .absolute 8 })).after (.setRole .replica)).after
        (.setClock 2000)
    let add : Request Int := .write 0 (.incrBy [1] [11] 2 {} (.matching 3) .keep)
    let amend : Request Bool := .write 0 (.setExpiry [1] [10] (.after 60) (.greater 9))
    let delete : Request Bool := .delete 0 (.one [1] [10] (.greater 5))
    let malformed : Request Bool := .delete 99 (.one [1] [10] (.absolute 0))
    let f := ((e.after (set [10] { version := .greater 7 })).after (.setClock 2500)).after amend
    (new {} 1000).Reaches (fun _ _ => True) e ∧
      (e.live? 0 [1] [11] = none ∧
        ((e.after add).record? 0 [1] [11]).map (·.version) = some 1 ∧
        e.told add = [(0, .set [1] [11] [50] 1 0)]) ∧
      (e.result? amend = some true ∧ e.told amend = [(0, .expireAt [1] [10] 2060 9)]) ∧
      (delete.perform.run e = .error .versionConflict (e.after delete) ∧
        ∃ old, e.live? 0 [1] [10] = some old ∧
          (VersionPolicy.greater 5).apply (some old.version) = .error .versionConflict) ∧
      malformed.perform.run e = .error .badOption e ∧
      Ascent 0 [1] [10] e [7, 9] f ∧ [5, 7, 9].Pairwise fun u v : UInt64 => u < v := by
  intro set e add amend delete malformed f
  have he : (new {} 1000).Reaches (fun _ _ => True) e :=
    .step _ (.step _ (.step _ (.step _ .refl trivial) trivial) trivial) trivial
  obtain ⟨hagrees, hascends⟩ := writes_gated he
  have hnone : e.live? 0 [1] [11] = none := by decide +kernel
  have hlive : e.live? 0 [1] [10] = some ⟨[53], 5, 0⟩ := by decide +kernel
  have hadd : e.result? add = some 2 := by decide +kernel
  obtain ⟨v, -, happly, hrecord, -⟩ := (hagrees add 0 [1] [11] (.matching 3) ⟨rfl, rfl, rfl, rfl⟩).wrote
    hadd ⟨rfl, rfl, rfl⟩
  rw [hnone] at happly
  obtain rfl : 1 = v := Except.ok.inj happly
  have hdelete : delete.perform.run e = .error .versionConflict (e.after delete) := by rfl
  have hrefused := (hagrees delete 0 [1] [10] (.greater 5) ⟨rfl, rfl, rfl, rfl⟩).refused hdelete
  have hmalformed := (hagrees malformed 99 [1] [10] (.absolute 0) ⟨rfl, rfl, rfl, rfl⟩).malformed
    (.inl rfl)
  have hseven : (e.after (set [10] { version := .greater 7 })).live? 0 [1] [10] = some ⟨[53], 7, 0⟩ := by
    decide +kernel
  have hnine : f.live? 0 [1] [10] = some ⟨[53], 9, 2560⟩ := by decide +kernel
  have hset : Ascent 0 [1] [10] e [7] (e.after (set [10] { version := .greater 7 })) :=
    .write (r := set [10] { version := .greater 7 }) (v := 7) (a := .updated) .refl
      ⟨rfl, rfl, rfl, rfl⟩ (by decide +kernel) ⟨rfl, rfl, rfl, nofun⟩ hseven
  have hup : Ascent 0 [1] [10] e [7, 9] f :=
    .write (r := amend) (v := 9) (a := true) (.other hset (by decide +kernel)) ⟨rfl, rfl, rfl, rfl⟩
      (by decide +kernel) ⟨rfl, rfl, rfl, rfl⟩ hnine
  exact ⟨he, ⟨hnone, hrecord, by decide +kernel⟩, ⟨by decide +kernel, by decide +kernel⟩,
    ⟨hdelete, hrefused⟩, hmalformed, hup, hascends hlive hup⟩

end Engine

end ExpiringHash
