import ExpiringHash.Proofs.Database.Leading
import ExpiringHash.Proofs.Database.Steps

/-!
# Every action is a sequence of steps

From tidy keys, in either role and whether it fails or not, an action does nothing but apply
commands and count expired fields. So an action leaves a database that is in step in step.
-/
namespace ExpiringHash

open DatabaseM Relation

variable {p : Bytes → Prop} {w w' : Work} {key field : Bytes} {α β : Type}

namespace Work

/-- Reclaiming a field is a step that deletes it and a step that counts it, and dropping its
container one more. -/
theorem traces_dropEmpty (s : Scope) (key : Bytes) : Leads (Traces p) (s.dropEmpty key) := by
  intro w hw
  rw [run_dropEmpty s hw.tidy]
  split
  · next h =>
    obtain ⟨c, hc, -⟩ := holdsEmpty_iff.mp (Bool.and_eq_true_iff.mp h).2
    refine .single (.apply (.deleteKey key) ?_ (run_apply_deleteKey w key))
    intro a ha
    obtain rfl := List.mem_singleton.mp ha
    exact (hw.named a c hc).1
  · exact .refl

theorem traces_reclaim (s : Scope) (key field : Bytes) (t : Trigger) :
    Leads (Traces p) (s.reclaim key field t) := by
  intro w hw
  cases hr : (w.fieldsAt key).get? field with
  | none =>
    obtain ⟨e, he⟩ := run_reclaim_missing s hw.tidy hr t
    rw [he]
    exact .refl
  | some r =>
    have hn := hw.named_fieldsAt hr
    have hdelete : w.Step p (w.withoutField key field) := by
      refine .apply (.delete key field) ?_ (run_apply_delete_of_get? hw.tidy hr)
      simpa [Command.Within, Command.texts] using hn
    have hcount : (w.withoutField key field).Step p ((w.withoutField key field).counted t) :=
      .count t
    rw [run_reclaim s hw.tidy hr]
    have hsound := hcount.sound (hdelete.sound hw)
    exact (ReflTransGen.single hdelete).trans (.head hcount (traces_dropEmpty s key _ hsound))

theorem traces_reclaimAll (s : Scope) (key : Bytes) (fields : List Bytes) :
    Leads (Traces p) (s.reclaimAll key fields) :=
  Leads.forM fun field _ => traces_reclaim s key field .passive

theorem traces_expireIfDue (s : Scope) (key field : Bytes) :
    Leads (Traces p) (s.expireIfDue key field) := by
  refine Leads.bind (leads_container? key) fun c => ?_
  dsimp only
  split
  · exact Leads.bind (traces_reclaim s key field .passive) fun _ => Leads.pure _
  · exact Leads.pure _

theorem traces_sweep (s : Scope) (key : Bytes) : Leads (Traces p) (s.sweep key) := by
  unfold Scope.sweep
  split
  · refine Leads.bind (leads_container? key) fun c => ?_
    cases c with
    | none => exact Leads.pure _
    | some c => exact traces_reclaimAll s key _
  · exact Leads.pure _

theorem traces_fieldOf (s : Scope) (e : IndexEntry) : Leads (Traces p) (s.fieldOf e) := by
  unfold Scope.fieldOf
  split
  · exact Leads.pure _
  · refine Leads.bind (Leads.bind Leads.get fun _ => Leads.pure _) fun d => ?_
    dsimp only
    split
    · split
      · exact Leads.pure _
      · exact Leads.throw _
    · exact Leads.throw _

theorem traces_drain (s : Scope) (budget : Nat) : Leads (Traces p) (s.drain budget) := by
  induction budget with
  | zero => exact Leads.pure _
  | succ budget ih =>
    refine Leads.bind (Leads.bind Leads.get fun _ => Leads.pure _) fun d => ?_
    split
    · exact Leads.pure _
    · next e _ =>
      split
      · exact Leads.pure _
      · exact Leads.bind (traces_fieldOf s e) fun field =>
          Leads.bind (traces_reclaim s e.key field .active) fun _ =>
            Leads.bind ih fun _ => Leads.pure _

theorem traces_apply {c : Command} (hc : c.Within p) : Leads (Traces p) (Scope.apply c) := by
  intro w hw
  rcases hw.effect_apply hc with he | ⟨w', hok, -⟩
  · rw [he]
    exact .refl
  · rw [hok]
    exact .single (.apply c hc hok)

end Work

open Work

/-- A write that is decided by a live record is one step, or none. -/
theorem Decides.traces {x : Scope → DatabaseM α} {text : Bytes → Prop} {shown : α → β}
    {plan : Option Record → Except HashError (β × Option Command)} {s : Scope}
    (h : Decides x key field s.now text shown plan) (hk : p key) (hf : p field)
    (ht : ∀ a, text a → p a) : Leads (Traces p) (x s) := by
  intro w hw
  by_cases ho : w.database.keys.Open key
  · have hrun := h.run s w rfl hw.tidy ho
    cases hp : plan ((w.fieldsAt key).live? field s.now) with
    | error e =>
      rw [hp] at hrun
      rw [hrun]
      exact .refl
    | ok out =>
      obtain ⟨b, c?⟩ := out
      rw [hp] at hrun
      cases c? with
      | none =>
        obtain ⟨a, hx, -⟩ := hrun
        rw [hx]
        exact .refl
      | some c =>
        obtain ⟨a, w', hx, -, hc⟩ := hrun
        rw [hx]
        refine .single (.apply c ?_ hc)
        cases h.suits _ _ _ hp <;> simp_all [Command.Within, Command.texts]
  · rw [h.foreign s w ho hw.tidy]
    exact .refl

namespace Work

theorem traces_clearing (s : Scope) : ClearingLeads (Traces p) s where
  sweep := traces_sweep s
  expireIfDue := traces_expireIfDue s
  reclaimAll _ := traces_reclaimAll s

theorem traces_writing (s : Scope) : WritingLeads p (Traces p) s where
  toClearingLeads := traces_clearing s
  decided h _ := h.traces

/-- A write that is not malformed in itself is traced by steps. -/
theorem traces_write (s : Scope) {wr : FieldWrite α} (hn : HasNumerals p)
    (hw : ∀ a ∈ wr.texts, p a) (hv : wr.validate = .ok ()) : Leads (Traces p) (wr.action s) :=
  (traces_writing s).write hn hw hv

/-- A read is traced by steps: it may clear away expired fields that it meets. -/
theorem traces_read (s : Scope) (r : FieldRead α) : Leads (Traces p) (r.action s) :=
  (traces_clearing s).read r

theorem traces_liveField (s : Scope) (key field : Bytes) :
    Leads (Traces p) (s.liveField key field) :=
  (traces_clearing s).liveField key field

end Work

namespace FieldDelete

/-- The names that a delete is given. -/
def texts : FieldDelete α → List Bytes
  | .one key field _ => [key, field]
  | .all key fields => key :: fields
  | .allChecked key entries => key :: entries.map (·.1)

end FieldDelete

namespace Work

theorem traces_deleteOne (s : Scope) {version : VersionPolicy} (hk : p key) (hf : p field)
    (hv : version.isMalformed = false) : Leads (Traces p) (s.deleteOne key field version) := by
  have h := Scope.deleteLive_decides key field hv s.now
  exact (traces_clearing s).unlessDue key field false (h.traces hk hf nofun)

theorem traces_deleteIfMatching (s : Scope) {version : VersionPolicy} (hk : p key) (hf : p field)
    (hv : version.isMalformed = false) :
    Leads (Traces p) (s.deleteIfMatching key field version) := by
  refine Leads.tryCatch (Leads.bind (traces_deleteOne s hk hf hv) fun _ => Leads.pure _) fun e => ?_
  split
  · exact Leads.pure _
  · exact Leads.throw _

theorem traces_deleteFieldsChecked (s : Scope) {entries : List (Bytes × VersionPolicy)}
    (hk : p key) (he : ∀ e ∈ entries, p e.1 ∧ e.2.isMalformed = false) :
    Leads (Traces p) (s.deleteFieldsChecked key entries) := by
  refine Leads.bind (leads_checkType key) fun _ => Leads.bind (Leads.mapM fun e hm => ?_) fun _ =>
    Leads.bind (traces_dropEmpty s key) fun _ => Leads.pure _
  exact traces_deleteIfMatching s hk (he e hm).1 (he e hm).2

/-- A delete that is not malformed in itself is traced by steps. -/
theorem traces_delete (s : Scope) {d : FieldDelete α} (hd : ∀ a ∈ d.texts, p a)
    (hv : d.validate = .ok ()) : Leads (Traces p) (d.action s) := by
  cases d with
  | one key field version =>
    have hm := VersionPolicy.isMalformed_of_validate hv
    simp only [FieldDelete.texts, List.mem_cons, List.not_mem_nil, forall_eq_or_imp] at hd
    exact Leads.bind (leads_checkType key) fun _ =>
      Leads.bind (traces_deleteOne s hd.1 hd.2.1 hm) fun _ =>
        Leads.bind (traces_dropEmpty s key) fun _ => Leads.pure _
  | all key fields =>
    refine traces_deleteFieldsChecked s (hd key (.head _)) fun e he => ?_
    obtain ⟨field, hf, rfl⟩ := List.mem_map.mp he
    exact ⟨hd field (.tail _ hf), rfl⟩
  | allChecked key entries =>
    refine traces_deleteFieldsChecked s (hd key (.head _)) fun e he => ?_
    obtain ⟨entry, hm, rfl⟩ := List.mem_map.mp he
    exact ⟨hd _ (.tail _ (List.mem_map.mpr ⟨entry, hm, rfl⟩)), rfl⟩

end Work

end ExpiringHash
