import ExpiringHash.Proofs.Database.Clearing
import ExpiringHash.Proofs.Database.Congruence

/-!
# What has expired is not seen

Databases that show the same at a time cannot be told apart by the fields that have expired: every
write, delete and read of fields gives the same answer and leaves them showing the same, in
whatever role and with whatever budget it takes place in either.
-/
namespace ExpiringHash

open DatabaseM

variable {α β : Type} {now : UInt64} {key field : Bytes} {w w' v v' : Work} {s t : Scope}

/-- Tidy keys that show the same. -/
structure LiveTwins (now : UInt64) (w w' : Work) : Prop where
  tidy : w.database.keys.Tidy
  tidy' : w'.database.keys.Tidy
  live : ∀ key, w'.database.keys.live now key = w.database.keys.live now key

namespace LiveTwins

theorem clears (h : LiveTwins now w w') (hw : w.Clears now v) (hw' : w'.Clears now v') :
    LiveTwins now v v' :=
  ⟨hw.tidy, hw'.tidy, fun key => by rw [hw'.live, h.live, hw.live]⟩

theorem open_of_open (h : LiveTwins now w w') (ho : w.database.keys.Open key) :
    w'.database.keys.Open key :=
  KeySpace.open_of_live ((h.live key).trans (KeySpace.live_of_open ho))

theorem open_iff (h : LiveTwins now w w') :
    w'.database.keys.Open key ↔ w.database.keys.Open key :=
  ⟨fun ho => KeySpace.open_of_live ((h.live key).symm.trans (KeySpace.live_of_open ho)),
    h.open_of_open⟩

theorem live?_eq (h : LiveTwins now w w') (ho : w.database.keys.Open key) (field : Bytes) :
    (w'.fieldsAt key).live? field now = (w.fieldsAt key).live? field now := by
  have hlive := h.live key
  rw [KeySpace.live_of_open ho, KeySpace.live_of_open (h.open_of_open ho)] at hlive
  exact Fields.liveRecords_eq_iff.mp (LiveValue.fields.inj hlive) field

end LiveTwins

/-- The records to be seen; a value of another type is refused. -/
def LiveValue.records? : LiveValue → Except HashError (SortedMap Bytes Record)
  | .foreign .. => .error .typeMismatch
  | .fields records => .ok records

/-- From tidy keys, the answer is read off what the key shows, and what the keys show stays as it
is. -/
def Sees (now : UInt64) (key : Bytes) (x : DatabaseM α) (out : SortedMap Bytes Record → α) : Prop :=
  ∀ w, w.database.keys.Tidy → ∃ w', w.Clears now w' ∧
    x.run w = match (w.database.keys.live now key).records? with
      | .error e => .error e w'
      | .ok records => .ok (out records) w'

namespace Sees

variable {x y : DatabaseM α} {out : SortedMap Bytes Record → α}

theorem of_open
    (hforeign : ∀ w, (∃ type payload, w.database.keys.get? key = some (.foreign type payload)) →
      x.run w = .error .typeMismatch w)
    (hopen : ∀ w, w.database.keys.Tidy → w.database.keys.Open key → ∃ w',
      x.run w = .ok (out ((w.fieldsAt key).liveRecords now)) w' ∧ w.Clears now w') :
    Sees now key x out := by
  intro w ht
  by_cases ho : w.database.keys.Open key
  · obtain ⟨w', hrun, hclears⟩ := hopen w ht ho
    rw [KeySpace.live_of_open ho]
    exact ⟨w', hclears, hrun⟩
  · obtain ⟨type, payload, hs⟩ := Scope.foreign_of_not_open ht ho
    rw [KeySpace.live_of_foreign hs]
    exact ⟨w, .refl ht, hforeign w ⟨type, payload, hs⟩⟩

/-- Two actions that read the same off what they see cannot tell twins apart. -/
theorem related (hx : Sees now key x out) (hy : Sees now key y out) :
    Related (LiveTwins now) (· = ·) x y := by
  intro w w' h
  obtain ⟨v, hv, hrun⟩ := hx w h.tidy
  obtain ⟨v', hv', hrun'⟩ := hy w' h.tidy'
  rw [h.live] at hrun'
  rw [hrun, hrun']
  cases (w.database.keys.live now key).records? with
  | error e => exact .error e (h.clears hv hv')
  | ok records => exact .ok rfl (h.clears hv hv')

theorem checkType (now : UInt64) (key : Bytes) : Sees now key (checkType key) fun _ => () := by
  refine .of_open (fun w ⟨_, _, hs⟩ => ?_) fun w ht ho => ⟨w, ?_, .refl ht⟩
  · rw [DatabaseM.checkType, run_discard, run_container?_foreign hs]
  · rw [run_checkType, ho]

/-- A check of the type refuses what an action that follows it would refuse. -/
theorem checked (hx : ∀ w, w.database.keys.Tidy → w.database.keys.Open key → ∃ w',
      x.run w = .ok (out ((w.fieldsAt key).liveRecords now)) w' ∧ w.Clears now w') :
    Sees now key (do DatabaseM.checkType key; x) out := by
  refine .of_open (fun w ⟨_, _, hs⟩ => ?_) fun w ht ho => ?_
  · rw [EStateM.run_bind, DatabaseM.checkType, run_discard, run_container?_foreign hs]
  · rw [EStateM.run_bind, run_checkType, ho]
    exact hx w ht ho

theorem sweep (s : Scope) (key : Bytes) :
    Sees s.now key (do DatabaseM.checkType key; s.sweep key) fun _ => () :=
  checked fun _ ht ho => clears_sweep s ht ho

theorem expireIfDue (s : Scope) (key field : Bytes) :
    Sees s.now key (discard (s.expireIfDue key field)) fun _ => () := by
  refine .of_open (fun w ⟨_, _, hs⟩ => ?_) fun w ht ho => ?_
  · rw [run_discard, Scope.expireIfDue, EStateM.run_bind, run_container?_foreign hs]
  · obtain ⟨w', hrun, hclears, -⟩ := clears_expireIfDue s ht ho field
    refine ⟨w', ?_, hclears⟩
    rw [run_discard, hrun]

theorem liveField (s : Scope) (key field : Bytes) :
    Sees s.now key (s.liveField key field) fun records => records.get? field := by
  refine .of_open (fun w ⟨_, _, hs⟩ => ?_) fun w ht ho => ?_
  · rw [Scope.liveField, EStateM.run_bind, Scope.expireIfDue, EStateM.run_bind,
      run_container?_foreign hs]
  · rw [Fields.get?_liveRecords]
    exact clears_liveField s ht ho field

end Sees

namespace LiveTwins

theorem dropEmpty (now : UInt64) (s t : Scope) (key : Bytes) :
    Related (LiveTwins now) (· = ·) (s.dropEmpty key) (t.dropEmpty key) := by
  intro w w' h
  obtain ⟨v, hrun, hv⟩ := clears_dropEmpty s h.tidy now key
  obtain ⟨v', hrun', hv'⟩ := clears_dropEmpty t h.tidy' now key
  rw [hrun, hrun']
  exact .ok rfl (h.clears hv hv')

theorem of_discard {R : Work → Work → Prop} {S : PUnit → PUnit → Prop} {x : DatabaseM α}
    {y : DatabaseM β} (h : Related R S (discard x) (discard y)) :
    Related R (fun _ _ => True) x y := by
  intro w w' hw
  have hm := h w w' hw
  rw [run_discard, run_discard] at hm
  cases hr : x.run w <;> cases hr' : y.run w' <;> rw [hr, hr'] at hm <;> cases hm
  · next hw => exact .ok trivial hw
  · next hw => exact .error _ hw

end LiveTwins

namespace LiveTwins

/-- A command that suits what twins show is applied to both, and they show the same again. -/
theorem apply {c : Command} {text : Bytes → Prop} (h : LiveTwins now w w')
    (ho : w.database.keys.Open key)
    (hc : c.Suits ((w.fieldsAt key).live? field now) key field text)
    (hrun : (Scope.apply c).run w = .ok () v) (hrun' : (Scope.apply c).run w' = .ok () v') :
    LiveTwins now v v' := by
  have ho' := h.open_of_open ho
  have heq := h.live?_eq ho
  obtain ⟨u, happly, hlogs⟩ := logs_apply h.tidy ho hc
  obtain ⟨u', happly', hlogs'⟩ := logs_apply h.tidy' ho' ((heq field).symm ▸ hc)
  cases happly.symm.trans hrun
  cases happly'.symm.trans hrun'
  have hev := hlogs.happens
  have hev' := hlogs'.happens
  obtain rfl := hc.key_eq
  refine ⟨hlogs.tidy h.tidy, hlogs'.tidy h.tidy', fun other => ?_⟩
  by_cases hk : other = c.key
  · subst hk
    rw [KeySpace.live_of_open ((hlogs.open_iff _).mpr ho),
      KeySpace.live_of_open ((hlogs'.open_iff _).mpr ho')]
    refine congrArg _ (Fields.liveRecords_eq_iff.mpr fun name => ?_)
    by_cases hn : name = field
    · subst hn
      have heq := congrArg c.outcome (heq name)
      exact Fields.live?_congr
        ((hev'.record?_event hc.field?_eq).trans (heq.trans (hev.record?_event hc.field?_eq).symm))
    · have hkept {d d' : Database} (hev : d.Happens now c.event d') :
          d'.record? c.key name = d.record? c.key name :=
        hev.record?_of_ne (.inr fun he => hn (Option.some.inj (he.trans (c.field?_event ▸ hc.field?_eq))))
      exact (Fields.live?_congr (hkept hev')).trans
        ((heq name).trans (Fields.live?_congr (hkept hev)).symm)
  · have hkept {d d' : Database} (hev : d.Happens now c.event d') :
        d'.keys.live now other = d.keys.live now other :=
      KeySpace.live_congr (hev.get?_of_ne fun he => hk (he.trans c.key_event))
    rw [hkept hev, hkept hev', h.live]

end LiveTwins

/-- After some clearing, an action does what a plan says by the live record of a field. -/
def Follows (plan : Option Record → Except HashError (β × Option Command)) (key field : Bytes)
    (now : UInt64) (shown : α → β) (x : DatabaseM α) (w : Work) : Prop :=
  ∃ w₁, w.Clears now w₁ ∧ match plan ((w.fieldsAt key).live? field now) with
    | .error e => x.run w = .error e w₁
    | .ok (b, none) => ∃ a, x.run w = .ok a w₁ ∧ shown a = b
    | .ok (b, some c) =>
      ∃ a w', x.run w = .ok a w' ∧ shown a = b ∧ (Scope.apply c).run w₁ = .ok () w'

namespace LiveTwins

variable {x : Scope → DatabaseM α} {text : Bytes → Prop} {shown : α → β}
  {plan : Option Record → Except HashError (β × Option Command)} {y z : DatabaseM α}

/-- Actions that follow one plan cannot tell twins apart. -/
theorem of_follows (h : LiveTwins now w w') (ho : w.database.keys.Open key)
    (hplan : ∀ current b c, plan current = .ok (b, some c) → c.Suits current key field text)
    (hy : Follows plan key field now shown y w) (hz : Follows plan key field now shown z w') :
    Matches (LiveTwins now) (fun a b => shown a = shown b) (y.run w) (z.run w') := by
  obtain ⟨v, hv, hy⟩ := hy
  obtain ⟨v', hv', hz⟩ := hz
  rw [h.live?_eq ho] at hz
  have hvv := h.clears hv hv'
  cases hp : plan ((w.fieldsAt key).live? field now) with
  | error e =>
    rw [hp] at hy hz
    rw [hy, hz]
    exact .error e hvv
  | ok out =>
    obtain ⟨b, c?⟩ := out
    rw [hp] at hy hz
    cases c? with
    | none =>
      obtain ⟨a, hy, ha⟩ := hy
      obtain ⟨a', hz, ha'⟩ := hz
      rw [hy, hz]
      exact .ok (ha.trans ha'.symm) hvv
    | some c =>
      obtain ⟨a, u, hy, ha, hu⟩ := hy
      obtain ⟨a', u', hz, ha', hu'⟩ := hz
      have hwv : LiveTwins now w v := ⟨h.tidy, hv.tidy, hv.live⟩
      have hsuits := hplan _ _ _ hp
      rw [← hwv.live?_eq ho] at hsuits
      rw [hy, hz]
      exact .ok (ha.trans ha'.symm) (hvv.apply (hwv.open_of_open ho) hsuits hu hu')

end LiveTwins

/-- The answer about a missing key is taken as that about a missing field. -/
def TtlStatus.merged : TtlStatus → TtlStatus
  | .keyMissing => .fieldMissing
  | status => status

/-- The time that a live record has left. -/
def TtlStatus.ofLive (now : UInt64) (unit : TimeUnit) : Option Record → TtlStatus
  | none => .fieldMissing
  | some r => match r.remaining? now with
    | none => .noExpiry
    | some ms => .remaining (unit.ofMillis ms)

theorem clears_timeLeft (s : Scope) (ht : w.database.keys.Tidy) (ho : w.database.keys.Open key)
    (field : Bytes) (unit : TimeUnit) :
    ∃ a w', (s.timeLeft key field unit).run w = .ok a w' ∧
      a.merged = .ofLive s.now unit ((w.fieldsAt key).live? field s.now) ∧ w.Clears s.now w' := by
  cases ht.slot key with
  | foreign _ _ hs => exact absurd ho (KeySpace.not_open_of_foreign hs)
  | absent hs =>
    refine ⟨.keyMissing, w, ?_, ?_, .refl ht⟩
    · rw [Scope.timeLeft, EStateM.run_bind, run_container?_absent hs]
      rfl
    · rw [Work.fieldsAt, KeySpace.fieldsAt_of_get?_none hs]
      rfl
  | present f _ hs =>
    obtain ⟨w', hrun, hclears⟩ := clears_liveField s ht ho field
    refine ⟨.ofLive s.now unit ((w.fieldsAt key).live? field s.now), w', ?_, ?_, hclears⟩
    · rw [Scope.timeLeft, EStateM.run_bind, run_container?_present hs]
      dsimp only
      rw [EStateM.run_bind, hrun]
      cases (w.fieldsAt key).live? field s.now with
      | none => rfl
      | some r =>
        dsimp only [TtlStatus.ofLive]
        cases r.remaining? s.now <;> rfl
    · cases (w.fieldsAt key).live? field s.now with
      | none => rfl
      | some r =>
        dsimp only [TtlStatus.ofLive]
        cases r.remaining? s.now <;> rfl

namespace FieldRead

/-- A read of single fields, rather than a scan. -/
def IsOfFields : FieldRead α → Prop
  | .scan .. => False
  | _ => True

/-- The answers are the same, a missing key and a missing field taken as one. -/
def SameAnswer : ∀ {α : Type}, FieldRead α → α → α → Prop
  | _, .timeLeft .., a, b => a.merged = b.merged
  | _, _, a, b => a = b

end FieldRead

namespace Decides

variable {x : Scope → DatabaseM α} {text : Bytes → Prop} {shown : α → β}
  {plan : Option Record → Except HashError (β × Option Command)}

theorem follows (h : Decides x key field now text shown plan) (hs : s.now = now)
    (ht : w.database.keys.Tidy) (ho : w.database.keys.Open key) :
    Follows plan key field now shown (x s) w :=
  ⟨w, .refl ht, h.run s w hs ht ho⟩

/-- A field that has expired counts as absent, whether it is cleared away or not. -/
theorem follows_unlessDue {x : Scope → DatabaseM Bool}
    {plan : Option Record → Except HashError (Bool × Option Command)}
    (h : Decides x key field s.now text id plan) (hnone : plan none = .ok (false, none))
    (ht : w.database.keys.Tidy) (ho : w.database.keys.Open key) :
    Follows plan key field s.now id (do if ← s.expireIfDue key field then return false else x s)
      w := by
  obtain ⟨w₁, hrun, hclears, hkept⟩ := clears_expireIfDue s ht ho field
  refine ⟨w₁, hclears, ?_⟩
  rw [EStateM.run_bind, hrun]
  cases hx : ((w.fieldsAt key).get? field).any (·.isExpired s.now) with
  | true =>
    obtain ⟨r, hr, hexpired⟩ := (Option.any_eq_true _ _).mp hx
    rw [Fields.live?_of_isExpired hr hexpired, hnone]
    exact ⟨false, rfl, rfl⟩
  | false =>
    rw [hkept hx]
    exact h.run s w rfl ht ho

end Decides

namespace LiveTwins

theorem of_not_open {x y : DatabaseM α} {S : α → α → Prop} (h : LiveTwins now w w')
    (ho : ¬w.database.keys.Open key)
    (hx : ∀ w, ¬w.database.keys.Open key → w.database.keys.Tidy → x.run w = .error .typeMismatch w)
    (hy : ∀ w, ¬w.database.keys.Open key → w.database.keys.Tidy → y.run w = .error .typeMismatch w) :
    Matches (LiveTwins now) S (x.run w) (y.run w') := by
  rw [hx w ho h.tidy, hy w' (fun ho' => ho (h.open_iff.mp ho')) h.tidy']
  exact .error _ h

/-- Twins cannot be told apart by actions at one time, whatever their roles and budgets are. -/
theorem congruent (hn : t.now = s.now) : Congruent (LiveTwins s.now) s t where
  now := hn
  checked key := (Sees.checkType s.now key).related (.checkType s.now key)
  opened key := (Sees.sweep s key).related (hn ▸ .sweep t key)
  expired key field := of_discard ((Sees.expireIfDue s key field).related (hn ▸ .expireIfDue t key field))
  live key field := (Sees.liveField s key field).related (hn ▸ .liveField t key field)
  dropped key := dropEmpty s.now s t key
  decided {_ _ x key _ _ _ _} h := by
    intro w w' hw
    by_cases ho : w.database.keys.Open key
    · exact hw.of_follows ho h.suits (h.follows rfl hw.tidy ho)
        (h.follows hn hw.tidy' (hw.open_of_open ho))
    · exact hw.of_not_open ho (h.foreign s) (h.foreign t)
  unlessDue {x key field _ _} h hnone := by
    intro w w' hw
    by_cases ho : w.database.keys.Open key
    · exact hw.of_follows ho h.suits (h.follows_unlessDue hnone hw.tidy ho)
        (hn ▸ (hn ▸ h).follows_unlessDue hnone hw.tidy' (hw.open_of_open ho))
    · have hforeign (s : Scope) (w : Work) (ho : ¬w.database.keys.Open key)
          (ht : w.database.keys.Tidy) :
          (do if ← s.expireIfDue key field then return false else x s : DatabaseM Bool).run w =
            .error .typeMismatch w := by
        obtain ⟨type, payload, hs⟩ := Scope.foreign_of_not_open ht ho
        rw [EStateM.run_bind, Scope.expireIfDue, EStateM.run_bind, run_container?_foreign hs]
      exact hw.of_not_open ho (hforeign s) (hforeign t)

theorem timeLeft (hn : t.now = s.now) (key field : Bytes) (unit : TimeUnit) :
    Related (LiveTwins s.now) (fun a b => a.merged = b.merged) (s.timeLeft key field unit)
      (t.timeLeft key field unit) := by
  intro w w' hw
  by_cases ho : w.database.keys.Open key
  · obtain ⟨a, v, hrun, ha, hv⟩ := clears_timeLeft s hw.tidy ho field unit
    obtain ⟨a', v', hrun', ha', hv'⟩ := clears_timeLeft t hw.tidy' (hw.open_of_open ho) field unit
    rw [hn, hw.live?_eq ho] at ha'
    rw [hrun, hrun']
    exact .ok (ha.trans ha'.symm) (hw.clears hv (hn ▸ hv'))
  · have hforeign (s : Scope) (w : Work) (ho : ¬w.database.keys.Open key)
        (ht : w.database.keys.Tidy) : (s.timeLeft key field unit).run w = .error .typeMismatch w := by
      obtain ⟨type, payload, hs⟩ := Scope.foreign_of_not_open ht ho
      rw [Scope.timeLeft, EStateM.run_bind, run_container?_foreign hs]
    exact hw.of_not_open ho (hforeign s) (hforeign t)

/-- Reads of single fields see live records only. -/
theorem read {r : FieldRead α} (hn : t.now = s.now) (hr : r.IsOfFields) :
    Related (LiveTwins s.now) r.SameAnswer (r.action s) (r.action t) := by
  have h := congruent hn
  cases r with
  | get key field => exact h.getField key field
  | getAll key fields => exact h.getFields key fields
  | version key field => exact Related.bind_eq (h.getField key field) fun _ => Related.pure rfl
  | exist key field => exact h.fieldExists key field
  | valueLength key field => exact h.valueLength key field
  | timeLeft key field unit => exact timeLeft hn key field unit
  | scan => cases hr

end LiveTwins

end ExpiringHash
