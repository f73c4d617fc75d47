import ExpiringHash.Proofs.Database.Owed
import ExpiringHash.Proofs.Fields.Changes

/-!
# Following the shifts of a container

What a change of fields reports to an index. Whatever the change, it stores one record, takes one out
or moves no expiry at all, so that the shift it reports tells all that became of the fields that
expire. An index that follows it holds what the records of the changed container call for.
-/
namespace ExpiringHash

namespace Fields

variable {f g : Fields} {now : UInt64} {key : Bytes} {s : ExpiryShift}

/-- The shift that a change reports, if any. -/
def reported (f : Fields) (now : UInt64) : FieldsChange → Option ExpiryShift
  | .put field record => some (f.put field record).1
  | .remove field => (f.remove field).1.map Prod.snd
  | .putExpiry field expiry => (f.putExpiry field expiry).1
  | .set field value rule => ((f.set field value rule now).toOption.bind Prod.fst).map Written.shift
  | .incrBy field delta bounds version ttl =>
    (f.incrBy field delta bounds version ttl now).toOption.map fun answer => answer.1.2.shift
  | .incrByFloat field delta bounds version ttl =>
    (f.incrByFloat field delta bounds version ttl now).toOption.map fun answer => answer.1.2.shift
  | .delete field version => ((f.delete field version now).toOption.bind Prod.fst).map Prod.snd
  | .setExpiry field time version =>
    ((f.setExpiry field time version now).toOption.bind Prod.fst).map Written.shift
  | .persist field => (f.persist field now).1
  | .setVersion _ _ => none

/-- What a change can leave, with what it reports. -/
inductive Reports (f : Fields) : Option ExpiryShift → Fields → Prop
  | unmoved (g : Fields) : g.expiring = f.expiring → Reports f none g
  | stored (field : Bytes) (r : Record) : Reports f (some (f.put field r).1) (f.put field r).2
  | removed (field : Bytes) (r : Record) (s : ExpiryShift) :
    (f.remove field).1 = some (r, s) → Reports f (some s) (f.remove field).2

theorem reports_update (f : Fields) (field : Bytes) (change : Record → Record) :
    f.Reports (f.update field change).1 (f.update field change).2 := by
  cases hr : f.get? field with
  | none =>
    rw [update_of_get?_none change hr]
    exact .unmoved f rfl
  | some r =>
    rw [update_of_get? change hr]
    exact .stored field (change r)

theorem reports_remove (f : Fields) (field : Bytes) :
    f.Reports ((f.remove field).1.map Prod.snd) (f.remove field).2 := by
  cases hr : f.get? field with
  | none =>
    rw [remove_of_get?_none hr]
    exact .unmoved f rfl
  | some r =>
    have hremove := congrArg Prod.fst (remove_of_get? hr)
    rw [hremove]
    exact .removed field r _ hremove

theorem reports_setVersion (f : Fields) (field : Bytes) (version now : UInt64) :
    f.Reports none (f.settle (f.setVersion field version now)) := by
  refine .unmoved _ (settle_cases (motive := fun g => g.expiring = f.expiring) rfl fun _ _ h => ?_)
  unfold setVersion at h
  split at h
  · cases h
  · split at h <;> cases h <;> rfl

/-- Every change tells by its report what it leaves. -/
theorem reports_changed (f : Fields) (now : UInt64) (c : FieldsChange) :
    f.Reports (f.reported now c) (f.changed now c) := by
  cases c with
  | put field r => exact .stored field r
  | remove field => exact f.reports_remove field
  | putExpiry field expiry => exact f.reports_update field _
  | set field value rule =>
    rw [reported, changed, set_eq]
    rcases setPlan value rule now (f.live? field now) with _ | _ | r
    · exact .unmoved f rfl
    · exact .unmoved f rfl
    · exact .stored field r
  | incrBy field delta bounds version ttl =>
    rw [reported, changed, incrBy_eq]
    rcases incrByPlan delta bounds version ttl now (f.live? field now) with _ | ⟨_, r⟩
    · exact .unmoved f rfl
    · exact .stored field r
  | incrByFloat field delta bounds version ttl =>
    rw [reported, changed, incrByFloat_eq]
    rcases incrByFloatPlan delta bounds version ttl now (f.live? field now) with _ | ⟨_, r⟩
    · exact .unmoved f rfl
    · exact .stored field r
  | delete field version =>
    rw [reported, changed, delete_eq]
    rcases deletePlan version (f.live? field now) with _ | _ | _
    · exact .unmoved f rfl
    · exact .unmoved f rfl
    · exact f.reports_remove field
  | setExpiry field time version =>
    rw [reported, changed, setExpiry_eq]
    rcases setExpiryPlan time version now (f.live? field now) with _ | _ | r
    · exact .unmoved f rfl
    · exact .unmoved f rfl
    · exact .stored field r
  | persist field =>
    rw [reported, changed, persist_eq]
    split
    · exact .unmoved f rfl
    · exact .stored field _
  | setVersion field version => exact f.reports_setVersion field version now

/-- A shift that is reported tells what became of the fields that expire. -/
theorem Consistent.shifted_of_reports (hf : f.Consistent) (h : f.Reports (some s) g) :
    f.Shifted g s := by
  cases h with
  | stored field r => exact hf.shifted_put field r
  | removed field r _ hr => exact hf.shifted_remove hr

theorem expiring_of_reports_none (h : f.Reports none g) : g.expiring = f.expiring := by
  cases h with
  | unmoved _ hg => exact hg

end Fields

namespace ExpiryIndex

variable {f g : Fields} {i : ExpiryIndex} {key : Bytes} {now : UInt64} {s : ExpiryShift}

/-- Under a key the index holds exactly the entries that the records call for. -/
def Mirrors (i : ExpiryIndex) (key : Bytes) (f : Fields) : Prop :=
  ∀ e, e.key = key → (e ∈ i.entries ↔ f.Owes i.layout key e)

/-- Follows a shift, unless no expiry moved. -/
def follow (i : ExpiryIndex) (key : Bytes) (s : ExpiryShift) : ExpiryIndex :=
  if s.isTrivial then i else i.apply key s

theorem follow_eq_apply (i : ExpiryIndex) (key : Bytes) (s : ExpiryShift) :
    i.follow key s = i.apply key s := by
  unfold follow
  split
  · next h => exact (i.apply_of_isTrivial key h).symm
  · rfl

theorem mirrors_iff_files (hf : f.Consistent) : i.Mirrors key f ↔ i.Files key f.expiring :=
  forall_congr' fun _ => imp_congr_right fun _ => iff_congr Iff.rfl hf.mem_owed_iff.symm

/-- An index mirrors a container once the entries of its key are those that it calls for. -/
theorem Refiled.mirrors {j : ExpiryIndex} (hg : g.Consistent) (h : i.Refiled key g.expiring j) :
    j.Mirrors key g :=
  (mirrors_iff_files hg).mpr h.files_self

theorem Refiled.mem_of_ne {j : ExpiryIndex} {expiring : DeadlineSet Bytes} {e : IndexEntry}
    (h : i.Refiled key expiring j) (hne : e.key ≠ key) : e ∈ j.entries ↔ e ∈ i.entries := by
  rw [h.mem]
  constructor
  · rintro (howed | ⟨-, he⟩)
    · exact absurd (Layout.key_of_mem_owed howed) hne
    · exact he
  · exact fun he => .inr ⟨hne, he⟩

/-- To drop a container and to take it in as it is now exchanges its entries too. -/
theorem Files.refiled_reattach (h : i.Files key f.expiring) :
    i.Refiled key g.expiring ((i.detach key f.expiring.toList).attach key g.expiring.toList) := by
  have hdetach := refiled_detach h
  have hattach : (i.detach key f.expiring.toList).Refiled key g.expiring _ :=
    refiled_attach hdetach.files_self
  refine ⟨hattach.layout.trans hdetach.layout, fun e => ?_⟩
  rw [hattach.mem, hdetach.layout]
  refine or_congr_right (and_congr_right fun hne => ?_)
  exact hdetach.mem_of_ne hne

/-- An index is determined by what it was refiled from. -/
theorem Refiled.unique {j k : ExpiryIndex} {expiring : DeadlineSet Bytes}
    (hj : i.Refiled key expiring j) (hk : i.Refiled key expiring k) : j = k :=
  ext_entries (hj.layout.trans hk.layout.symm) fun e => (hj.mem e).trans (hk.mem e).symm

theorem refiled_follow (hi : i.Files key f.expiring) (hs : f.Shifted g s) :
    i.Refiled key g.expiring (i.follow key s) := by
  rw [follow_eq_apply]
  exact refiled_apply hi hs

/-- The index once it has followed all that a series of changes reports. -/
def followAll (i : ExpiryIndex) (key : Bytes) (f : Fields) :
    List (UInt64 × FieldsChange) → ExpiryIndex
  | [] => i
  | (now, c) :: rest =>
    ((f.reported now c).elim i (i.follow key)).followAll key (f.changed now c) rest

theorem mirrors_report (hf : f.Consistent) (hi : i.Mirrors key f) (now : UInt64)
    (c : FieldsChange) :
    ((f.reported now c).elim i (i.follow key)).Mirrors key (f.changed now c) := by
  have hg := hf.changed now c
  have hreports := f.reports_changed now c
  rw [mirrors_iff_files hf] at hi
  cases hs : f.reported now c with
  | none =>
    rw [hs] at hreports
    rw [mirrors_iff_files hg, Fields.expiring_of_reports_none hreports]
    exact hi
  | some s =>
    rw [hs] at hreports
    exact (refiled_follow hi (hf.shifted_of_reports hreports)).mirrors hg

/-- An index that follows every report of a series of changes holds what the records call for at its
end. -/
theorem mirrors_followAll (hf : f.Consistent) (hi : i.Mirrors key f)
    (changes : List (UInt64 × FieldsChange)) :
    (i.followAll key f changes).Mirrors key
      (changes.foldl (fun g change => g.changed change.1 change.2) f) := by
  induction changes generalizing f i with
  | nil => exact hi
  | cons change rest ih =>
    exact ih (hf.changed change.1 change.2) (mirrors_report hf hi change.1 change.2)

/-- An index that holds what the records of a container call for follows whatever change of them is
reported: it then holds what the new records call for, its entries of other keys are the same, and it
is what dropping the old container and taking in the new one would have made of it. -/
theorem follow_reported {c : FieldsChange} (hf : f.Consistent) (hi : i.Mirrors key f)
    (hs : f.reported now c = some s) :
    (i.follow key s).layout = i.layout ∧
    (i.follow key s).Mirrors key (f.changed now c) ∧
    (∀ e, e.key ≠ key → (e ∈ (i.follow key s).entries ↔ e ∈ i.entries)) ∧
    (i.detach key f.expiring.toList).attach key (f.changed now c).expiring.toList =
      i.follow key s := by
  have hfiles := (mirrors_iff_files hf).mp hi
  have hshifted := hf.shifted_of_reports (hs ▸ f.reports_changed now c)
  have hfollow := refiled_follow hfiles hshifted
  refine ⟨hfollow.layout, hfollow.mirrors (hf.changed now c), fun e hne => ?_, ?_⟩
  · exact hfollow.mem_of_ne hne
  · exact hfiles.refiled_reattach.unique hfollow

/-- Of three fields that expire, two at one time, the first is deleted. The coarse index keeps its
entry, for the minimum stays, and the fine index loses one. -/
theorem follow_reported_tie :
    let f := Fields.ofList [([1], ⟨[9], 1, 50⟩), ([2], ⟨[9], 1, 50⟩), ([3], ⟨[9], 1, 90⟩)]
    let s : ExpiryShift := ⟨[1], 50, 0, some 50, some 50⟩
    let i := fun l => ((ExpiryIndex.new l).attach [8] [⟨20, [1]⟩]).attach [7] f.expiring.toList
    let c := FieldsChange.delete [1] (.matching 1)
    (f.Consistent ∧ f.reported 10 c = some s ∧ ∀ l, (i l).Mirrors [7] f) ∧
    (∀ l, ((i l).follow [7] s).Mirrors [7] (f.changed 10 c)) ∧
    ((i .coarse).follow [7] s).entries = [⟨20, [8], none⟩, ⟨50, [7], none⟩] ∧
    ((i .fine).follow [7] s).entries =
      [⟨20, [8], some [1]⟩, ⟨50, [7], some [2]⟩, ⟨90, [7], some [3]⟩] := by
  intro f s i c
  have hf : f.Consistent := (Fields.Reached.empty.foldl_put _).consistent
  have hs : f.reported 10 c = some s := by decide +kernel
  have hfree (l : Layout) : ((ExpiryIndex.new l).attach [8] [⟨20, [1]⟩]).Files [7] ∅ := by
    rw [files_empty_iff]
    cases l <;> decide +kernel
  have hi (l : Layout) : (i l).Mirrors [7] f := (refiled_attach (hfree l)).mirrors hf
  exact ⟨⟨hf, hs, hi⟩, fun l => (follow_reported hf (hi l) hs).2.1, by decide +kernel,
    by decide +kernel⟩

end ExpiryIndex
end ExpiringHash
