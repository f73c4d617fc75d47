import ExpiringHash.Proofs.Database.Endings
import ExpiringHash.Proofs.Database.Leading
import ExpiringHash.Proofs.Database.LiveTwins

/-!
# Replicas hide and keep what has expired

A replica deletes nothing by itself. A read leaves its database as it is and answers as if the expired
fields were not there; a write stores records and sends the commands that tell of them, and does
nothing else, not even with an expired field that it overwrites.
-/
namespace ExpiringHash

open DatabaseM

variable {α β : Type} {s : Scope} {w w' : Work} {key field : Bytes} {now : UInt64}

section Still

variable {R : Work → Work → Prop} [IsPreorder Work R] (hp : s.isPrimary = false)

include hp

theorem still_sweep (key : Bytes) : Leads R (s.sweep key) := by
  rw [Scope.sweep, hp]
  exact Leads.pure _

theorem still_expireIfDue (key field : Bytes) : Leads R (s.expireIfDue key field) := by
  refine Leads.bind (leads_container? key) fun c => ?_
  rw [hp]
  dsimp only
  rw [Bool.and_false]
  exact Leads.pure _

/-- What clears expired fields away leaves a replica as it is. -/
theorem clearing_still : ClearingLeads R s where
  sweep := still_sweep hp
  expireIfDue := still_expireIfDue hp
  reclaimAll h := absurd h (hp ▸ Bool.false_ne_true)

end Still

/-- What a read replies, given the live records under its key: a field without one is not there. A scan
that asks for more room than there can be may break off instead. -/
def FieldRead.Shows (now : UInt64) (live : SortedMap Bytes Record) :
    ∀ {α : Type}, FieldRead α → Except HashError α → Prop
  | _, .get _ field, reply => reply = (live.get? field).elim (.error .notFound) fun r => .ok r.view
  | _, .getAll _ fields, reply =>
    reply = .ok (fields.map fun field => (live.get? field).map Record.view)
  | _, .version _ field, reply =>
    reply = (live.get? field).elim (.error .notFound) fun r => .ok r.version
  | _, .exist _ field, reply => reply = .ok (live.get? field).isSome
  | _, .valueLength _ field, reply =>
    reply = .ok (((live.get? field).map (·.value.length)).getD 0)
  | _, .timeLeft _ field unit, reply =>
    reply.map TtlStatus.merged = .ok (.ofLive now unit (live.get? field))
  | _, .scan _ cursor pattern count, reply =>
    (∃ next found, reply = .ok (next, found) ∧
      ∀ field value, (field, value) ∈ found ↔ pattern.all (·.isMatch field) = true ∧
        (∃ r, live.get? field = some r ∧ r.value = value) ∧
        cursor ≤ Fields.position field ∧ (next = 0 ∨ Fields.position field < next)) ∨
    (2 ^ 60 ≤ count ∧ reply = .error .noRoom)

/-- A reply about a key: a value of another type is refused, and fields are told of by what is live
among them. -/
def LiveValue.Tells (tell : SortedMap Bytes Record → Except HashError α → Prop)
    (reply : Except HashError α) : LiveValue → Prop
  | .foreign .. => reply = .error .typeMismatch
  | .fields live => tell live reply

section Replies

variable (hp : s.isPrimary = false)

include hp

/-- Reading a field of a replica gives its live record. -/
theorem run_liveField_still (ht : w.database.keys.Tidy) (ho : w.database.keys.Open key)
    (field : Bytes) :
    (s.liveField key field).run w = .ok ((w.fieldsAt key).live? field s.now) w := by
  obtain ⟨w', hrun, -⟩ := swept_liveField s ht ho field
  have hstill : w = _ := (clearing_still hp).liveField key field w
  rw [hrun] at hstill ⊢
  exact hstill ▸ rfl

theorem run_getField_still (ht : w.database.keys.Tidy) (ho : w.database.keys.Open key)
    (field : Bytes) :
    (s.getField key field).run w = outcomeIn w
      (((w.fieldsAt key).live? field s.now).elim (.error .notFound) fun r => .ok r.view) := by
  rw [Scope.getField, EStateM.run_bind, run_liveField_still hp ht ho]
  cases (w.fieldsAt key).live? field s.now <;> rfl

/-- A read of a key that holds no value of another type replies by what is live. -/
theorem shows_read {r : FieldRead α} (hk : r.key = key) (ht : w.database.keys.Tidy)
    (ho : w.database.keys.Open key) :
    ∃ reply, (r.action s).run w = outcomeIn w reply ∧
      r.Shows s.now ((w.fieldsAt key).liveRecords s.now) reply := by
  have hsame {a : α} {w' : Work} (hrun : (r.action s).run w = .ok a w') : w' = w := by
    have hstill : w = _ := (clearing_still hp).read r w
    rw [hrun] at hstill
    exact hstill.symm
  cases r with
  | get k field =>
    obtain rfl : k = key := hk
    refine ⟨_, run_getField_still hp ht ho field, ?_⟩
    rw [FieldRead.Shows, Fields.get?_liveRecords]
  | version k field =>
    obtain rfl : k = key := hk
    refine ⟨_, ?_, rfl⟩
    rw [FieldRead.action, EStateM.run_bind, run_getField_still hp ht ho, Fields.get?_liveRecords]
    cases (w.fieldsAt k).live? field s.now <;> rfl
  | getAll k fields =>
    obtain rfl : k = key := hk
    refine ⟨_, ?_, rfl⟩
    rw [FieldRead.action, Scope.getFields, EStateM.run_bind, run_checkType, ho]
    refine run_mapM fun field _ => ?_
    rw [EStateM.run_bind, run_liveField_still hp ht ho, Fields.get?_liveRecords]
    rfl
  | exist k field =>
    obtain rfl : k = key := hk
    refine ⟨_, ?_, rfl⟩
    rw [FieldRead.action, Scope.fieldExists, EStateM.run_bind, run_liveField_still hp ht ho,
      Fields.get?_liveRecords]
    rfl
  | valueLength k field =>
    obtain rfl : k = key := hk
    refine ⟨_, ?_, rfl⟩
    rw [FieldRead.action, Scope.valueLength, EStateM.run_bind, run_liveField_still hp ht ho,
      Fields.get?_liveRecords]
    rfl
  | timeLeft k field unit =>
    obtain rfl : k = key := hk
    obtain ⟨status, w', hrun, hstatus, -⟩ := clears_timeLeft s ht ho field unit
    refine ⟨.ok status, hsame hrun ▸ hrun, ?_⟩
    rw [FieldRead.Shows, Fields.get?_liveRecords]
    exact congrArg Except.ok hstatus
  | scan k cursor pattern count =>
    obtain rfl : k = key := hk
    obtain ⟨next, found, w', hrun, -, hpage⟩ | ⟨hc, hrun⟩ := scan_cases s ht ho cursor pattern count
    · refine ⟨.ok (next, found), hsame hrun ▸ hrun, .inl ⟨next, found, rfl, fun field value => ?_⟩⟩
      rw [Fields.get?_liveRecords]
      exact hpage.mem_found
    · exact ⟨.error .noRoom, hrun, .inr ⟨hc, rfl⟩⟩

/-- A read of a replica leaves it as it is and tells of nothing that has expired. -/
theorem tells_read (r : FieldRead α) (ht : w.database.keys.Tidy) :
    ∃ reply, (r.action s).run w = outcomeIn w reply ∧
      (w.database.keys.live s.now r.key).Tells (r.Shows s.now) reply := by
  by_cases ho : w.database.keys.Open r.key
  · rw [KeySpace.live_of_open ho]
    exact shows_read hp rfl ht ho
  · obtain ⟨type, payload, hs⟩ := Scope.foreign_of_not_open ht ho
    rw [KeySpace.live_of_foreign hs]
    exact ⟨.error .typeMismatch, mistypes_read s r w ht ho, rfl⟩

end Replies

namespace Command

/-- Whether a command says that a field or a key is gone. -/
def isRemoval : Command → Bool
  | .delete .. | .deleteKey _ => true
  | _ => false

theorem event_eq_stored {c : Command} (h : c.isDelete = false) : c.event = .stored c := by
  cases c with
  | delete => cases h
  | _ => rfl

theorem Suits.isRemoval_eq {c : Command} {current : Option Record} {text : Bytes → Prop}
    (h : c.Suits current key field text) (hd : c.isDelete = false) : c.isRemoval = false := by
  cases h with
  | delete => cases hd
  | _ => rfl

end Command

namespace Work

/-- From tidy keys, records are stored and the commands sent that tell of them, and nothing else is
done. -/
def StoresOnly (now : UInt64) (w w' : Work) : Prop :=
  w.database.keys.Tidy → ∃ cs : List Command,
    w.Logs now (cs.map .stored) w' ∧ ∀ c ∈ cs, c.isRemoval = false

instance : IsPreorder Work (Work.StoresOnly now) where
  refl w _ := ⟨[], .nil now w, nofun⟩
  trans w w' w'' h h' ht := by
    obtain ⟨cs, hlogs, hcs⟩ := h ht
    obtain ⟨cs', hlogs', hcs'⟩ := h' (hlogs.tidy ht)
    refine ⟨cs ++ cs', ?_, List.forall_mem_append.mpr ⟨hcs, hcs'⟩⟩
    rw [List.map_append]
    exact hlogs.append hlogs'

end Work

section Writes

/-- A write that is decided by a live record stores one, or does nothing. -/
theorem Decides.stores {x : Scope → DatabaseM α} {text : Bytes → Prop} {shown : α → β}
    {plan : Option Record → Except HashError (β × Option Command)}
    (h : Decides x key field s.now text shown plan) (hplan : Stores plan) :
    Leads (Work.StoresOnly s.now) (x s) := by
  intro w ht
  by_cases ho : w.database.keys.Open key
  · have hrun := h.run s w rfl ht ho
    cases hp : plan ((w.fieldsAt key).live? field s.now) with
    | error err =>
      rw [hp] at hrun
      rw [hrun]
      exact refl_of (Work.StoresOnly s.now) w ht
    | ok out =>
      obtain ⟨b, c⟩ := out
      rw [hp] at hrun
      cases c with
      | none =>
        obtain ⟨a, hx, -⟩ := hrun
        rw [hx]
        exact refl_of (Work.StoresOnly s.now) w ht
      | some c =>
        obtain ⟨a, w', hx, -, happly⟩ := hrun
        have hsuits := h.suits _ _ _ hp
        obtain ⟨w'', happly', hlogs⟩ := logs_apply ht ho hsuits
        cases happly.symm.trans happly'
        rw [Command.event_eq_stored (hplan.keeps hp)] at hlogs
        rw [hx]
        exact ⟨[c], hlogs, List.forall_mem_singleton.mpr (hsuits.isRemoval_eq (hplan.keeps hp))⟩
  · rw [h.foreign s w ho ht]
    exact refl_of (Work.StoresOnly s.now) w ht

theorem stores_writing (hp : s.isPrimary = false) :
    WritingLeads (fun _ => True) (Work.StoresOnly s.now) s where
  toClearingLeads := clearing_still hp
  decided h hplan _ _ _ := h.stores hplan

/-- A write on a replica stores records and does nothing else. -/
theorem stores_write (hp : s.isPrimary = false) {wr : FieldWrite α} (hv : wr.validate = .ok ()) :
    Leads (Work.StoresOnly s.now) (wr.action s) :=
  (stores_writing hp).write ⟨fun _ _ => trivial, fun _ => trivial⟩ (fun _ _ => trivial) hv

end Writes

end ExpiringHash
