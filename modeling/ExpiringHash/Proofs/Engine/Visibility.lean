import ExpiringHash.Proofs.Database.LiveTwins
import ExpiringHash.Proofs.Engine.Keys

/-!
# Expired fields are invisible

When and by whom an expired field is deleted is nobody's concern: whatever two engines have come to,
in either role, if they show the same live records at a time then every command on fields is answered
alike by both and leaves them showing the same.
-/
namespace ExpiringHash

open DatabaseM

variable {α : Type}

namespace Query

/-- A question about the live fields of a container. -/
def IsOfLiveFields : Query α → Prop
  | .liveSize _ => True
  | .names _ => True
  | .values _ => True
  | .fields _ => True
  | .rebuild _ => True
  | _ => False

/-- The key that a question about live fields is about, and how its answer is read off them. -/
def reading? : ∀ {α : Type}, Query α → Option (Bytes × (SortedMap Bytes Record → α))
  | _, .liveSize key => some (key, fun live => live.toList.length)
  | _, .names key => some (key, fun live => live.toList.map (·.1))
  | _, .values key => some (key, fun live => live.toList.map (·.2.value))
  | _, .fields key => some (key, fun live => live.toList.map fun r => (r.1, r.2.view))
  | _, .rebuild key => some (key, fun live => live.toList.map fun r =>
      .set key r.1 r.2.value r.2.version r.2.expireAt)
  | _, _ => none

theorem exists_reading {q : Query α} (h : q.IsOfLiveFields) :
    ∃ key out, q.reading? = some (key, out) := by
  cases q with
  | liveSize | names | values | fields | rebuild => exact ⟨_, _, rfl⟩
  | _ => cases h

end Query

namespace Request

/-- A command on the fields of a container, scans aside. -/
def IsOfFields : Request α → Prop
  | .write .. => True
  | .delete .. => True
  | .read _ r => r.IsOfFields
  | .query _ q => q.IsOfLiveFields
  | _ => False

/-- The answers are the same, a missing key and a missing field taken as one. -/
def SameAnswer : Request α → α → α → Prop
  | .read _ r => r.SameAnswer
  | _ => (· = ·)

end Request

namespace Database

variable {d d' : Database} {key : Bytes} {now : UInt64}

/-- What is read off the live records of a container is read off what its key shows. -/
theorem ofContainer_eq {f : Container → α} {g : SortedMap Bytes Record → α} (ht : d.keys.Tidy)
    (hf : ∀ fields : Fields, fields.Consistent → f ⟨key, fields⟩ = g (fields.liveRecords now)) :
    d.ofContainer key (g ∅) f = (d.keys.live now key).records?.map g := by
  unfold ofContainer
  cases ht.slot key with
  | foreign type payload hs =>
    rw [KeySpace.container?_foreign hs, KeySpace.live_of_foreign hs]
    rfl
  | absent hs =>
    rw [KeySpace.container?_absent hs, KeySpace.live, hs]
    rfl
  | present fields hc hs =>
    rw [KeySpace.container?_present hs, KeySpace.live, hs]
    exact congrArg Except.ok (hf fields hc)

/-- Questions about live fields are answered by what the key shows. -/
theorem answer_of_reading {q : Query α} {out : SortedMap Bytes Record → α} (ht : d.keys.Tidy)
    (hq : q.reading? = some (key, out)) (db : Nat) :
    d.answer db now q = (d.keys.live now key).records?.map out := by
  have hread {β : Type} (key : Bytes) (f : Container → β) (g : SortedMap Bytes Record → β)
      (hf : ∀ fields : Fields, fields.Consistent → f ⟨key, fields⟩ = g (fields.liveRecords now)) :
      d.ofContainer key (g ∅) f = (d.keys.live now key).records?.map g := ofContainer_eq ht hf
  cases q with
  | liveSize key =>
    cases hq
    exact hread key (·.fields.liveSize now) (·.toList.length) fun _ hc => hc.liveSize_eq now
  | names key =>
    cases hq
    exact hread key (fun c => (c.fields.live now).map (·.1)) (·.toList.map (·.1)) fun _ _ => rfl
  | values key =>
    cases hq
    exact hread key (fun c => (c.fields.live now).map (·.2.value)) (·.toList.map (·.2.value))
      fun _ _ => rfl
  | fields key =>
    cases hq
    exact hread key (fun c => (c.fields.live now).map fun r => (r.1, r.2.view))
      (·.toList.map fun r => (r.1, r.2.view)) fun _ _ => rfl
  | rebuild key =>
    cases hq
    exact hread key (·.rebuild now)
      (·.toList.map fun r => .set key r.1 r.2.value r.2.version r.2.expireAt) fun _ _ => rfl
  | _ => cases hq

theorem answer_eq_of_live {q : Query α} (ht : d.keys.Tidy) (ht' : d'.keys.Tidy)
    (h : ∀ key, d'.keys.live now key = d.keys.live now key) (hq : q.IsOfLiveFields) (db : Nat) :
    d'.answer db now q = d.answer db now q := by
  obtain ⟨key, out, hreading⟩ := Query.exists_reading hq
  rw [answer_of_reading ht' hreading, answer_of_reading ht hreading, h]

end Database

namespace Engine

variable {e f : Engine} {db : Nat}

/-- What a key of a database shows; there is nothing where there is no such database. -/
def live (e : Engine) (db : Nat) (key : Bytes) : Option LiveValue :=
  (e.databases[db]?).map fun d => d.keys.live e.now key

/-- Two engines show the same at one time. -/
structure ShowsSame (e f : Engine) : Prop where
  now : f.now = e.now
  live : ∀ db key, f.live db key = e.live db key

/-- It is enough to look at the keys that there are. -/
theorem ShowsSame.of_keys (hn : f.now = e.now) (hl : f.databases.length = e.databases.length)
    (h : ∀ p ∈ e.databases.zip f.databases, ∀ key ∈ p.1.keys.keys ++ p.2.keys.keys,
      p.2.keys.live e.now key = p.1.keys.live e.now key) : ShowsSame e f := by
  refine ⟨hn, fun db key => ?_⟩
  have hnone {ks : KeySpace} (hk : key ∉ ks.keys) : ks.live e.now key = .fields ∅ := by
    cases hv : ks.get? key with
    | none => rw [KeySpace.live, hv]
    | some v => exact absurd (List.mem_map.mpr ⟨_, SortedTable.mem_of_get? hv, rfl⟩) hk
  unfold Engine.live
  rw [hn]
  by_cases hdb : db < e.databases.length
  · have hdb' : db < f.databases.length := hl ▸ hdb
    rw [List.getElem?_eq_getElem hdb, List.getElem?_eq_getElem hdb']
    have hmem : (e.databases[db], f.databases[db]) ∈ e.databases.zip f.databases := by
      rw [List.mem_iff_getElem]
      exact ⟨db, by rw [List.length_zip, hl, Nat.min_self]; exact hdb, List.getElem_zip⟩
    refine congrArg some ?_
    by_cases hk : key ∈ e.databases[db].keys.keys ++ f.databases[db].keys.keys
    · exact h _ hmem key hk
    · rw [List.mem_append, not_or] at hk
      exact (hnone hk.2).trans (hnone hk.1).symm
  · rw [List.getElem?_eq_none (Nat.not_lt.mp hdb),
      List.getElem?_eq_none (hl ▸ Nat.not_lt.mp hdb)]

/-- Two engines show the same, and their keys are tidy. -/
structure SeenAlike (e f : Engine) : Prop where
  shows : ShowsSame e f
  tidy : ∀ d ∈ e.databases, d.keys.Tidy
  tidy' : ∀ d ∈ f.databases, d.keys.Tidy

namespace SeenAlike

theorem getElem?_databases (h : SeenAlike e f) (db : Nat) :
    (e.databases[db]? = none ∧ f.databases[db]? = none) ∨
      ∃ d d', e.databases[db]? = some d ∧ f.databases[db]? = some d' ∧
        LiveTwins e.now { database := d } { database := d' } := by
  have hlive := h.shows.live db
  unfold Engine.live at hlive
  cases hd : e.databases[db]? with
  | none =>
    rw [hd] at hlive
    exact .inl ⟨rfl, Option.map_eq_none_iff.mp (hlive [])⟩
  | some d =>
    rw [hd, h.shows.now] at hlive
    obtain ⟨d', hd', -⟩ := Option.map_eq_some_iff.mp (hlive [])
    rw [hd'] at hlive
    exact .inr ⟨d, d', rfl, hd', h.tidy d (List.mem_of_getElem? hd),
      h.tidy' d' (List.mem_of_getElem? hd'), fun key => Option.some.inj (hlive key)⟩

theorem live_absorb {w : Work} {d : Database} (hd : e.databases[db]? = some d) (other : Nat)
    (key : Bytes) :
    (e.absorb db w).live other key =
      if db = other then some (w.database.keys.live e.now key) else e.live other key := by
  have hlt : db < e.databases.length := (List.getElem?_eq_some_iff.mp hd).1
  unfold Engine.live absorb setDatabase
  rw [List.getElem?_set]
  by_cases ho : db = other
  · subst ho
    rw [if_pos rfl, if_pos rfl, if_pos hlt]
    rfl
  · rw [if_neg ho, if_neg ho]

theorem absorb {w w' : Work} {d d' : Database} (h : SeenAlike e f)
    (hd : e.databases[db]? = some d) (hd' : f.databases[db]? = some d')
    (hw : LiveTwins e.now w w') : SeenAlike (e.absorb db w) (f.absorb db w') := by
  refine ⟨⟨h.shows.now, fun other key => ?_⟩, fun d hm => ?_, fun d hm => ?_⟩
  · rw [live_absorb hd, live_absorb hd', h.shows.live, h.shows.now, hw.live]
  · rcases mem_absorb hm with hm | rfl
    · exact h.tidy d hm
    · exact hw.tidy
  · rcases mem_absorb hm with hm | rfl
    · exact h.tidy' d hm
    · exact hw.tidy'

/-- Actions on a database that cannot tell twins apart cannot tell engines that show the same
apart. -/
theorem onDatabase {S : α → α → Prop} (db : Nat) {action : Scope → DatabaseM α}
    (h : ∀ s t : Scope, t.now = s.now → Related (LiveTwins s.now) S (action s) (action t)) :
    Related SeenAlike S (onDatabase db action) (Engine.onDatabase db action) := by
  intro e f hp
  rcases hp.getElem?_databases db with ⟨hd, hd'⟩ | ⟨d, d', hd, hd', hw⟩
  · rw [run_onDatabase, run_onDatabase, hd, hd']
    exact .error _ hp
  · have hm := h (e.scope db) (f.scope db) hp.shows.now _ _ hw
    exact matches_onDatabase hd hd' hm fun _ _ => hp.absorb hd hd'

theorem query {q : Query α} (hq : q.IsOfLiveFields) (db : Nat) :
    Related SeenAlike (· = ·) (Request.query db q).perform (Request.query db q).perform := by
  refine Related.bind Related.get fun e f h => ?_
  have ha : f.answer db q = e.answer db q := by
    unfold answer database
    rcases h.getElem?_databases db with ⟨hd, hd'⟩ | ⟨d, d', hd, hd', hw⟩
    · rw [hd, hd']
      rfl
    · rw [hd, hd', h.shows.now]
      exact Database.answer_eq_of_live hw.tidy hw.tidy' hw.live hq db
  rw [ha]
  exact Related.ofExcept _

/-- Commands on fields cannot tell engines that show the same apart. -/
theorem perform {r : Request α} (hr : r.IsOfFields) :
    Related SeenAlike r.SameAnswer r.perform r.perform := by
  cases r with
  | write db w =>
    exact Related.ofExcept_bind fun _ hv => onDatabase db fun _ _ hn =>
      (LiveTwins.congruent hn).write hv
  | delete db d =>
    exact Related.ofExcept_bind fun _ hv => onDatabase db fun _ _ hn =>
      (LiveTwins.congruent hn).delete hv
  | read db r => exact onDatabase db fun _ _ hn => LiveTwins.read hn hr
  | query db q => exact query hr db
  | _ => cases hr

end SeenAlike

theorem keeps_tidy_relocate (r : Relocation) (e : Engine) :
    Keeps (fun d => d.keys.Tidy) e (relocate r e) := by
  have hrefl := refl_of (Keeps fun d => d.keys.Tidy) e
  unfold relocate
  cases hd : e.databases[r.toDb]? with
  | none => exact hrefl
  | some d =>
    rw [Option.bind_some]
    cases hv : d.keys.get? r.toKey with
    | none => exact hrefl
    | some v =>
      cases v with
      | foreign type payload => exact hrefl
      | container c =>
        intro h
        have hc : c.fields.Consistent := (h d (List.mem_of_getElem? hd) _ _ hv).2
        refine ⟨rfl, ?_, forall_mem_modify (forall_mem_modify h fun _ ht => ht) fun _ ht =>
          ht.put ⟨rfl, hc⟩⟩
        exact (List.length_modify ..).trans (List.length_modify ..)

/-- No request makes keys untidy, not even a stray notice. -/
theorem keeps_tidy_perform (r : Request α) : Leads (Keeps fun d => d.keys.Tidy) r.perform :=
  keeps_perform_of_relocate Database.lasting_tidy keeps_tidy_relocate r

theorem tidy_of_reaches {config : Config} {now : UInt64}
    (h : (Engine.new config now).Reaches (fun _ _ => True) e) : ∀ d ∈ e.databases, d.keys.Tidy :=
  (keeps_reaches (fun _ r _ => keeps_tidy_perform r) h (forall_mem_new now .empty)).2.2

/-- Whatever two engines have come to, if they show the same then every command on fields has the
same outcome in both, and they show the same again. -/
theorem expired_fields_invisible {config config' : Config} {start start' : UInt64}
    (he : (Engine.new config start).Reaches (fun _ _ => True) e)
    (hf : (Engine.new config' start').Reaches (fun _ _ => True) f) (h : ShowsSame e f)
    {r : Request α} (hr : r.IsOfFields) :
    Matches ShowsSame r.SameAnswer (r.perform.run e) (r.perform.run f) :=
  (SeenAlike.perform hr e f ⟨h, tidy_of_reaches he, tidy_of_reaches hf⟩).mono (fun _ _ h => h.shows)
    fun _ _ ha => ha

/-- A primary has deleted the field that a replica of another layout still holds, and both add to it
as to a new one. -/
theorem expired_fields_invisible_replica :
    let e := (((new {} 1000).after (.write 0 (.set [1] [10] [52] { ttl := .set (.after 5) }))).after
      (.setClock 2000)).after (.expire 0 9)
    let f := (((new { layout := .fine } 7).after (.apply 0 (.set [1] [10] [52] 3 1500))).after
      (.setRole .replica)).after (.setClock 2000)
    let r : Request Int := .write 0 (.incrBy [1] [10] 5 {} (.matching 1) .keep)
    (new {} 1000).Reaches (fun _ _ => True) e ∧
      (new { layout := .fine } 7).Reaches (fun _ _ => True) f ∧ ShowsSame e f ∧ r.IsOfFields ∧
      e.answer 0 (.size [1]) = .ok 0 ∧ f.answer 0 (.size [1]) = .ok 1 ∧
      Matches ShowsSame (· = ·) (r.perform.run e) (r.perform.run f) := by
  intro e f r
  have he : (new {} 1000).Reaches (fun _ _ => True) e :=
    .step _ (.step _ (.step _ .refl trivial) trivial) trivial
  have hf : (new { layout := .fine } 7).Reaches (fun _ _ => True) f :=
    .step _ (.step _ (.step _ .refl trivial) trivial) trivial
  have hs : ShowsSame e f := .of_keys rfl rfl (by decide +kernel)
  exact ⟨he, hf, hs, trivial, rfl, rfl,
    expired_fields_invisible he hf hs (r := r) trivial⟩

end Engine

end ExpiringHash
