import ExpiringHash.Proofs.Database.Congruence
import ExpiringHash.Proofs.Database.Traces

/-!
# Actions do not look at the index

Apart from the active expiry, no action depends on what the index holds: from two databases with the
same keys, it gives the same answer, sends the same commands and leaves the same keys, whatever the
two indexes are. Where fields are reclaimed the tallies agree too.
-/
namespace ExpiringHash

open DatabaseM

variable {T : Tally → Tally → Prop} {E : List Command → List Command → Prop} {key field : Bytes} {α β : Type} {w w' : Work}

/-- The keys are the same, and the tallies and the commands sent are related. -/
structure SameKeys (T : Tally → Tally → Prop) (E : List Command → List Command → Prop)
    (w w' : Work) : Prop where
  keys : w'.database.keys = w.database.keys
  tally : T w.database.tally w'.database.tally
  emitted : E w.emitted w'.emitted

namespace SameKeys

theorem database :
    Related (SameKeys T E) (fun d d' => d'.keys = d.keys) database database :=
  fun _ _ h => .ok h.keys h

theorem change {f g : Database → Database}
    (h : ∀ d d', d'.keys = d.keys → T d.tally d'.tally →
      (g d').keys = (f d).keys ∧ T (f d).tally (g d').tally) :
    Related (SameKeys T E) (· = ·) (change f) (DatabaseM.change g) := by
  refine Related.modifies fun w w' hw => ?_
  obtain ⟨hk, ht⟩ := h _ _ hw.keys hw.tally
  exact ⟨hk, ht, hw.emitted⟩

theorem emit (c : Command) (hE : ∀ l l', E l l' → E (c :: l) (c :: l')) :
    Related (SameKeys T E) (· = ·) (DatabaseM.emit c) (DatabaseM.emit c) :=
  Related.modifies fun _ _ h => ⟨h.keys, h.tally, hE _ _ h.emitted⟩

theorem emit_eq (c : Command) :
    Related (SameKeys T Eq) (· = ·) (DatabaseM.emit c) (DatabaseM.emit c) :=
  emit c fun _ _ => congrArg (c :: ·)

/-- The indexes may follow whatever they are told. -/
theorem follow (key : Bytes) (s s' : ExpiryShift) :
    Related (SameKeys T E) (· = ·) (follow key s) (DatabaseM.follow key s') :=
  SameKeys.change fun _ _ hk ht => ⟨hk, ht⟩

theorem container? (key : Bytes) :
    Related (SameKeys T E) (· = ·) (container? key) (DatabaseM.container? key) := by
  refine Related.bind database fun d d' hd => ?_
  rw [hd]
  exact Related.ofExcept _

theorem checkType (key : Bytes) :
    Related (SameKeys T E) (· = ·) (checkType key) (DatabaseM.checkType key) :=
  (container? key).discard

theorem putContainer (key : Bytes) (c : Container) :
    Related (SameKeys T E) (· = ·) (DatabaseM.change (·.putContainer key c))
      (DatabaseM.change (·.putContainer key c)) :=
  SameKeys.change fun d d' hk ht => ⟨by rw [Database.putContainer, hk]; rfl, ht⟩

theorem write (key : Bytes) (op : Fields → Except HashError (α × Fields)) :
    Related (SameKeys T E) (· = ·) (write key op) (DatabaseM.write key op) := by
  refine Related.bind_eq (container? key) fun c => ?_
  cases c with
  | none =>
    refine Related.bind_eq (Related.ofExcept _) fun a => ?_
    obtain ⟨a, fields⟩ := a
    dsimp only
    split
    · exact Related.bind_eq (putContainer key _) fun _ => Related.pure rfl
    · exact Related.pure rfl
  | some c =>
    refine Related.bind_eq (Related.ofExcept _) fun a => ?_
    exact Related.bind_eq (putContainer key _) fun _ => Related.pure rfl

theorem revise (key : Bytes) (a : α) (op : Fields → Except HashError (α × Fields)) :
    Related (SameKeys T E) (· = ·) (revise key a op) (DatabaseM.revise key a op) := by
  refine Related.bind_eq (container? key) fun c => ?_
  cases c with
  | none => exact Related.pure rfl
  | some c =>
    refine Related.bind_eq (Related.ofExcept _) fun a => ?_
    exact Related.bind_eq (putContainer key _) fun _ => Related.pure rfl

theorem followAny (key : Bytes) (shift : Option ExpiryShift) :
    Related (SameKeys T E) (· = ·) (Scope.followAny key shift) (Scope.followAny key shift) := by
  cases shift with
  | none => exact Related.pure rfl
  | some shift => exact follow key shift shift

theorem updateRecord (key field : Bytes) (f : Record → Record) :
    Related (SameKeys T E) (· = ·) (Scope.updateRecord key field f)
      (Scope.updateRecord key field f) :=
  Related.bind_eq (revise key none _) fun shift => followAny key shift

theorem keys_deleteKey {d d' : Database} (key : Bytes) (h : d'.keys = d.keys) :
    (d'.deleteKey key).2.keys = (d.deleteKey key).2.keys := by
  rw [Database.keys_deleteKey, Database.keys_deleteKey, h]

theorem tally_deleteKey (d : Database) (key : Bytes) : (d.deleteKey key).2.tally = d.tally := by
  unfold Database.deleteKey
  split <;> rfl

/-- A command that is applied does not look at the index. -/
theorem apply (c : Command) (hE : ∀ l l', E l l' → E (c :: l) (c :: l')) :
    Related (SameKeys T E) (· = ·) (Scope.apply c) (Scope.apply c) := by
  refine Related.bind_eq ?_ fun _ => emit c hE
  cases c with
  | set key field value version expiry =>
    exact Related.bind_eq (write key _) fun shift => follow key shift shift
  | delete key field =>
    exact Related.bind_eq (revise key none _) fun removed => followAny key _
  | expireAt key field expiry version => exact updateRecord key field _
  | persist key field => exact updateRecord key field _
  | setVersion key field version => exact updateRecord key field _
  | deleteKey key =>
    refine SameKeys.change fun d d' hk ht => ⟨keys_deleteKey key hk, ?_⟩
    rw [tally_deleteKey, tally_deleteKey]
    exact ht

theorem apply_eq (c : Command) : Related (SameKeys T Eq) (· = ·) (Scope.apply c) (Scope.apply c) :=
  apply c fun _ _ => congrArg (c :: ·)

theorem dropEmpty (s : Scope) (key : Bytes) :
    Related (SameKeys T Eq) (· = ·) (s.dropEmpty key) (s.dropEmpty key) := by
  refine Related.bind database fun d d' hd => ?_
  rw [hd]
  dsimp only
  split
  · exact Related.bind_eq (SameKeys.change fun _ _ _ ht => ⟨rfl, ht⟩) fun _ => emit_eq _
  · exact Related.pure rfl

theorem reclaim (s : Scope) (key field : Bytes) (t : Trigger) :
    Related (SameKeys Eq Eq) (· = ·) (s.reclaim key field t) (s.reclaim key field t) := by
  refine Related.bind database fun d d' hd => ?_
  rw [hd]
  cases (d.keys.get? key).bind Value.container? with
  | none => exact Related.throw _
  | some c =>
    dsimp only
    split
    · exact Related.throw _
    · next shift fields _ =>
      refine Related.bind_eq (putContainer key _) fun _ =>
        Related.bind_eq (follow key shift shift) fun _ => Related.bind_eq ?_ fun _ =>
          Related.bind_eq (emit_eq _) fun _ => dropEmpty s key
      exact SameKeys.change fun _ _ hk ht => ⟨hk, congrArg (Tally.count · t) ht⟩

theorem reclaimAll (s : Scope) (key : Bytes) (fields : List Bytes) :
    Related (SameKeys Eq Eq) (· = ·) (s.reclaimAll key fields) (s.reclaimAll key fields) :=
  Related.forM fun field => reclaim s key field .passive

theorem expireIfDue (s : Scope) (key field : Bytes) :
    Related (SameKeys Eq Eq) (· = ·) (s.expireIfDue key field) (s.expireIfDue key field) := by
  refine Related.bind_eq (container? key) fun c => ?_
  dsimp only
  split
  · exact Related.bind_eq (reclaim s key field .passive) fun _ => Related.pure rfl
  · exact Related.pure rfl

theorem liveField (s : Scope) (key field : Bytes) :
    Related (SameKeys Eq Eq) (· = ·) (s.liveField key field) (s.liveField key field) := by
  refine Related.bind_eq (expireIfDue s key field) fun expired => ?_
  split
  · exact Related.pure rfl
  · exact Related.bind_eq (container? key) fun _ => Related.pure rfl

theorem sweep (s : Scope) (key : Bytes) :
    Related (SameKeys Eq Eq) (· = ·) (s.sweep key) (s.sweep key) := by
  unfold Scope.sweep
  split
  · refine Related.bind_eq (container? key) fun c => ?_
    cases c with
    | none => exact Related.pure rfl
    | some c => exact reclaimAll s key _
  · exact Related.pure rfl

theorem scan (s : Scope) (key : Bytes) (cursor : UInt64) (pattern : Option Glob) (count : Nat) :
    Related (SameKeys Eq Eq) (· = ·) (s.scan key cursor pattern count)
      (s.scan key cursor pattern count) := by
  refine Related.bind_eq (container? key) fun c => ?_
  cases c with
  | none => exact Related.pure rfl
  | some c =>
    refine Related.bind_eq (Related.ofExcept _) fun page => ?_
    dsimp only
    split
    · exact Related.bind_eq (reclaimAll s key _) fun _ => Related.pure rfl
    · exact Related.pure rfl

theorem timeLeft (s : Scope) (key field : Bytes) (unit : TimeUnit) :
    Related (SameKeys Eq Eq) (· = ·) (s.timeLeft key field unit) (s.timeLeft key field unit) := by
  refine Related.bind_eq (container? key) fun c => ?_
  cases c with
  | none => exact Related.pure rfl
  | some c =>
    refine Related.bind_eq (liveField s key field) fun record => ?_
    cases record with
    | none => exact Related.pure rfl
    | some r =>
      dsimp only
      split <;> exact Related.pure rfl

end SameKeys

/-- The keys, the tallies and the commands sent are the same, and the keys are tidy. -/
def TidyTwins (w w' : Work) : Prop :=
  SameKeys Eq Eq w w' ∧ w.database.keys.Tidy ∧ w'.database.keys.Tidy

namespace TidyTwins

theorem of_traces {S : α → β → Prop} {x : DatabaseM α} {y : DatabaseM β}
    (h : Related (SameKeys Eq Eq) S x y) (hx : Leads (Work.Traces fun _ => True) x)
    (hy : Leads (Work.Traces fun _ => True) y) : Related TidyTwins S x y :=
  h.and_leads (Work.keeps_tidy hx) (Work.keeps_tidy hy)

/-- A write that a live record decides is decided alike, and then applies the same command. -/
theorem decided {x : Scope → DatabaseM α} {text : Bytes → Prop} {shown : α → β}
    {plan : Option Record → Except HashError (β × Option Command)} {s : Scope}
    (h : Decides x key field s.now text shown plan) :
    Related TidyTwins (fun a b => shown a = shown b) (x s) (x s) := by
  rintro w w' ⟨hw, ht, ht'⟩
  by_cases ho : w.database.keys.Open key
  · have ho' : w'.database.keys.Open key := hw.keys ▸ ho
    have hf : w'.fieldsAt key = w.fieldsAt key := by rw [Work.fieldsAt, hw.keys]; rfl
    have hrun := h.run s w rfl ht ho
    have hrun' := h.run s w' rfl ht' ho'
    rw [hf] at hrun'
    cases hp : plan ((w.fieldsAt key).live? field s.now) with
    | error e =>
      rw [hp] at hrun hrun'
      rw [hrun, hrun']
      exact .error e ⟨hw, ht, ht'⟩
    | ok out =>
      obtain ⟨b, c?⟩ := out
      rw [hp] at hrun hrun'
      cases c? with
      | none =>
        obtain ⟨a, hx, ha⟩ := hrun
        obtain ⟨a', hx', ha'⟩ := hrun'
        rw [hx, hx']
        exact .ok (ha.trans ha'.symm) ⟨hw, ht, ht'⟩
      | some c =>
        obtain ⟨a, w₁, hx, ha, hc⟩ := hrun
        obtain ⟨a', w₁', hx', ha', hc'⟩ := hrun'
        have happly := Work.traces_apply (c := c) (p := fun _ => True) fun _ _ => trivial
        have hm := of_traces (SameKeys.apply_eq c) happly happly w w' ⟨hw, ht, ht'⟩
        rw [hc, hc'] at hm
        rw [hx, hx']
        exact .ok (ha.trans ha'.symm) hm.state
  · have ho' : ¬w'.database.keys.Open key := hw.keys ▸ ho
    rw [h.foreign s w ho ht, h.foreign s w' ho' ht']
    exact .error _ ⟨hw, ht, ht'⟩

/-- All actions on fields but the active expiry do not look at the index. -/
theorem congruent (s : Scope) : Congruent TidyTwins s s where
  now := rfl
  checked key :=
    of_traces (SameKeys.checkType key) (leads_checkType key) (leads_checkType key)
  opened key := by
    have hx : Leads (Work.Traces fun _ => True) (do checkType key; s.sweep key) :=
      Leads.bind (leads_checkType key) fun _ => Work.traces_sweep s key
    exact of_traces (Related.bind_eq (SameKeys.checkType key) fun _ => SameKeys.sweep s key) hx hx
  expired key field := by
    have hx := Work.traces_expireIfDue (p := fun _ => True) s key field
    exact (of_traces (SameKeys.expireIfDue s key field) hx hx).imp fun _ _ _ => trivial
  live key field :=
    of_traces (SameKeys.liveField s key field) (Work.traces_liveField s key field)
      (Work.traces_liveField s key field)
  dropped key :=
    of_traces (SameKeys.dropEmpty s key) (Work.traces_dropEmpty s key)
      (Work.traces_dropEmpty s key)
  decided h := decided h
  unlessDue {x key field text plan} h _ := by
    have hx := Work.traces_expireIfDue (p := fun _ => True) s key field
    refine Related.bind_eq (of_traces (SameKeys.expireIfDue s key field) hx hx) fun expired => ?_
    cases expired with
    | true => exact Related.pure rfl
    | false => exact decided h

/-- Reads do not look at the index either. -/
theorem read (s : Scope) (r : FieldRead α) : Related TidyTwins (· = ·) (r.action s) (r.action s) := by
  have h := congruent s
  have hread := Work.traces_read (p := fun _ => True) s r
  cases r with
  | get key field => exact h.getField key field
  | getAll key fields => exact h.getFields key fields
  | version key field => exact Related.bind_eq (h.getField key field) fun _ => Related.pure rfl
  | exist key field => exact h.fieldExists key field
  | valueLength key field => exact h.valueLength key field
  | timeLeft key field unit => exact of_traces (SameKeys.timeLeft s key field unit) hread hread
  | scan key cursor pattern count =>
    exact of_traces (SameKeys.scan s key cursor pattern count) hread hread

end TidyTwins

end ExpiringHash
