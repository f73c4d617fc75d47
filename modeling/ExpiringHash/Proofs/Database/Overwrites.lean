import ExpiringHash.Proofs.Database.Endings
import ExpiringHash.Proofs.Database.Sparing
import ExpiringHash.Proofs.Fields.Climbing

/-!
# What writes make of a version

A write leaves a live record as it is or moves its version up, as often as the commands tell that it
sends, unless they tell that the record has gone in between or that a version was forced on it. If it
answers that it has written the field, it has told so.
-/
namespace ExpiringHash

open DatabaseM Version

namespace Command

/-- The version of the record that the command stores in a field, if it stores one there. -/
def version? (key field : Bytes) : Command → Option UInt64
  | .set k f _ version _ | .expireAt k f _ version =>
    if k = key ∧ f = field then some version else none
  | .delete .. | .persist .. | .setVersion .. | .deleteKey .. => none

/-- The versions that commands store in a field. -/
def versions (key field : Bytes) (cs : List Command) : List UInt64 :=
  cs.filterMap (version? key field)

/-- Whether the command tells of a record that a write has stored, with its version. -/
def isVersioned : Command → Bool
  | .set .. | .expireAt .. => true
  | .delete .. | .persist .. | .setVersion .. | .deleteKey .. => false

/-- The command takes the record of a field away, or stores one there that has expired. -/
def Clears (now : UInt64) (key field : Bytes) : Command → Prop
  | .set k f value version expiry =>
    k = key ∧ f = field ∧ Record.isExpired ⟨value, version, expiry⟩ now = true
  | .expireAt k f expiry version =>
    k = key ∧ f = field ∧ Record.isExpired ⟨[], version, expiry⟩ now = true
  | .delete k f => k = key ∧ f = field
  | .deleteKey k => k = key
  | .persist .. | .setVersion .. => False

/-- The command is about a field whose version is forced, or takes its record away. -/
def Disturbs (forced : Prop) (now : UInt64) (key field : Bytes) (c : Command) : Prop :=
  c.Clears now key field ∨ forced ∧ c.key = key ∧ c.field? = some field

/-- The command moves the version of a record up or leaves it. -/
def Raises (old : Record) : Command → Prop
  | .set _ _ _ version _ | .expireAt _ _ _ version => Rises old.version version
  | .persist .. => True
  | .delete .. | .setVersion .. | .deleteKey .. => False

end Command

namespace FieldWrite

variable {α : Type}

/-- The write sets the version of a field whatever it was. -/
def Forces (key field : Bytes) : FieldWrite α → Prop
  | .set k f _ rule => k = key ∧ f = field ∧ rule.version.forces = true
  | .incrBy k f _ _ version _ => k = key ∧ f = field ∧ version.forces = true
  | .incrByFloat k f _ _ version _ => k = key ∧ f = field ∧ version.forces = true
  | .setExpiry k f _ version => k = key ∧ f = field ∧ version.forces = true
  | .setVersion k f _ => k = key ∧ f = field
  | .setAll .. | .setAllChecked .. | .persist .. => False

/-- The answer says that a record was stored in a field. -/
def Wrote (key field : Bytes) : ∀ {α : Type}, FieldWrite α → α → Prop
  | _, .set k f _ _, outcome => k = key ∧ f = field ∧ outcome ≠ .conditionNotMet
  | _, .setAll k entries, _ => k = key ∧ ∃ e ∈ entries, e.1 = field
  | _, .setAllChecked k updates, _ => k = key ∧ ∃ u ∈ updates, u.field = field
  | _, .incrBy k f .., _ => k = key ∧ f = field
  | _, .incrByFloat k f .., _ => k = key ∧ f = field
  | _, .setExpiry k f .., done => k = key ∧ f = field ∧ done = true
  | _, .setVersion .., _ => False
  | _, .persist .., _ => False

end FieldWrite

variable {α β : Type} {s : Scope} {now : UInt64} {key field k f : Bytes} {w w' w'' : Work}
  {vs vs' : List UInt64} {forced : Prop}

theorem Event.isVersioned_of_isReclaim {ev : Event} {t : Trigger} (h : ev.isReclaim t = true) {c : Command}
    (hc : c ∈ ev.commands) : c.isVersioned = false := by
  cases ev with
  | reclaimed _ _ _ last =>
    cases last with
    | false => exact List.mem_singleton.mp hc ▸ rfl
    | true =>
      rcases List.mem_cons.mp hc with rfl | hc
      · rfl
      · exact List.mem_singleton.mp hc ▸ rfl
  | _ => cases h

/-- Reclaiming expired fields tells of no record that is stored. -/
theorem Work.Swept.told (h : w.Swept now k w') :
    ∃ cs : List Command, w'.emitted = cs.reverse ++ w.emitted ∧ ∀ c ∈ cs, c.isVersioned = false := by
  obtain ⟨evs, hlogs, hevs⟩ := h
  refine ⟨_, hlogs.emitted, fun c hc => ?_⟩
  obtain ⟨ev, hev, hc⟩ := List.mem_flatMap.mp hc
  exact Event.isVersioned_of_isReclaim (hevs ev hev).2 hc

/-- Reclaiming expired fields changes nothing that is live. -/
theorem Work.Swept.live?_eq (h : w.Swept now k w') (key field : Bytes) :
    (w'.fieldsAt key).live? field now = (w.fieldsAt key).live? field now := by
  obtain ⟨evs, hlogs, hevs⟩ := h
  have hspares := (hlogs.course.spares (t := .passive) fun ev hm => (hevs ev hm).2).1
  rcases hspares.record key field with he | ⟨hnone, r, hr, hx⟩
  · exact Fields.live?_congr he
  · exact (Fields.live?_of_get?_none hnone).trans (Fields.live?_of_isExpired hr hx).symm

theorem Work.Swept.live? {old : Record} (h : w.Swept now k w')
    (hold : (w.fieldsAt key).live? field now = some old) :
    (w'.fieldsAt key).live? field now = some old :=
  (h.live?_eq key field).trans hold

/-- Commands are sent that store these versions in a field. Unless they tell that its record has gone in
between or has had a version forced on it, a live record stays, and its version climbs by them. -/
structure Work.Tells (forced : Prop) (now : UInt64) (key field : Bytes) (w : Work) (vs : List UInt64)
    (w' : Work) : Prop where
  tidy : w.database.keys.Tidy → w'.database.keys.Tidy
  opens : ∀ k, w'.database.keys.Open k ↔ w.database.keys.Open k
  told : ∃ cs, w'.emitted = cs.reverse ++ w.emitted ∧ Command.versions key field cs = vs ∧
    ∀ old, (w.fieldsAt key).live? field now = some old →
      (∀ c ∈ cs, ¬c.Disturbs forced now key field) →
      ∃ r, (w'.fieldsAt key).live? field now = some r ∧ Climbs old.version vs r.version

namespace Work.Tells

theorem refl (w : Work) : w.Tells forced now key field [] w :=
  ⟨id, fun _ => Iff.rfl, [], rfl, rfl, fun old hold _ => ⟨old, hold, .nil _⟩⟩

theorem trans (h : w.Tells forced now key field vs w') (h' : w'.Tells forced now key field vs' w'') :
    w.Tells forced now key field (vs ++ vs') w'' := by
  obtain ⟨cs, hemitted, hvs, hclimbs⟩ := h.told
  obtain ⟨cs', hemitted', hvs', hclimbs'⟩ := h'.told
  refine ⟨h'.tidy ∘ h.tidy, fun k => (h'.opens k).trans (h.opens k), cs ++ cs', ?_, ?_, ?_⟩
  · rw [hemitted', hemitted, List.reverse_append, List.append_assoc]
  · rw [Command.versions, List.filterMap_append, ← hvs, ← hvs']
    rfl
  · intro old hold hcalm
    obtain ⟨hfirst, hlater⟩ := List.forall_mem_append.mp hcalm
    obtain ⟨mid, hmid, hup⟩ := hclimbs old hold hfirst
    obtain ⟨r, hr, hup'⟩ := hclimbs' mid hmid hlater
    exact ⟨r, hr, hup.append hup'⟩

/-- Expired fields are reclaimed and nothing is stored. -/
theorem of_swept (h : w.Swept now k w') : w.Tells forced now key field [] w' := by
  have hlive {old : Record} (hold : (w.fieldsAt key).live? field now = some old) := h.live? hold
  obtain ⟨evs, hlogs, hevs⟩ := h
  have htells := (hlogs.course.spares (t := .passive) fun ev hm => (hevs ev hm).2).2
  refine ⟨hlogs.tidy, hlogs.open_iff, _, hlogs.emitted, List.filterMap_eq_nil_iff.mpr fun c hc => ?_,
    fun old hold _ => ⟨old, hlive hold, .nil _⟩⟩
  cases htells c hc <;> rfl

/-- One command moves the version of its own field only. -/
theorem of_logs {c : Command} (h : w.Logs now [c.event] w') (hf : c.field? = some f)
    (hraises : ¬forced → c.key = key → f = field → ∀ old,
      (w.fieldsAt key).live? field now = some old → c.Raises old) :
    w.Tells forced now key field (c.version? key field).toList w' := by
  have hcommands : c.event.commands = [c] := by cases c <;> rfl
  refine ⟨h.tidy, h.open_iff, [c], ?_, ?_, fun old hold hcalm => ?_⟩
  · rw [h.emitted, List.flatMap_singleton, hcommands]
  · cases hv : c.version? key field with
    | none => exact List.filterMap_cons_none hv
    | some v => exact List.filterMap_cons_some hv
  have hlive (r : Record) (hr : w'.database.record? key field = some r)
      (hx : r.isExpired now = false) : (w'.fieldsAt key).live? field now = some r :=
    Fields.live?_eq_some_iff.mpr ⟨hr, hx⟩
  -- what the command is about decides whether the record is the one it stores or the one before
  by_cases hat : c.key = key ∧ f = field
  · obtain ⟨rfl, rfl⟩ := hat
    have hrecord := h.happens.record?_event hf
    rw [← Work.fieldsAt, hold] at hrecord
    obtain ⟨hclears, hfree⟩ := not_or.mp (hcalm c List.mem_cons_self)
    have hraises := hraises (fun hforced => hfree ⟨hforced, rfl, hf⟩) rfl rfl old hold
    cases c with
    | set k f value version expiry =>
      cases hf
      refine ⟨_, hlive _ hrecord (Bool.eq_false_iff.mpr fun hx => hclears ⟨rfl, rfl, hx⟩), ?_⟩
      rw [Command.version?, if_pos ⟨rfl, rfl⟩]
      exact .single hraises
    | expireAt k f expiry version =>
      cases hf
      refine ⟨_, hlive _ hrecord (Bool.eq_false_iff.mpr fun hx => hclears ⟨rfl, rfl, hx⟩), ?_⟩
      rw [Command.version?, if_pos ⟨rfl, rfl⟩]
      exact .single hraises
    | persist => exact ⟨_, hlive _ hrecord rfl, .nil _⟩
    | delete => cases hraises
    | setVersion => cases hraises
    | deleteKey => cases hraises
  · obtain ⟨hget, hx⟩ := Fields.live?_eq_some_iff.mp hold
    have hnone : c.version? key field = none := by
      cases c <;> cases hf <;> first | exact if_neg hat | rfl
    have hkept : w'.database.record? key field = w.database.record? key field := by
      refine h.happens.record?_of_ne ?_
      rw [c.key_event, c.field?_event, hf]
      exact (not_and_or.mp hat).imp (fun hne he => hne he.symm)
        fun hne he => hne (Option.some.inj he).symm
    refine ⟨old, hlive old (hkept.trans hget) hx, ?_⟩
    rw [hnone]
    exact .nil _

end Work.Tells

/-- Commands are sent that store versions in a field, and an answer agrees with them. -/
inductive Told (forced : Prop) (now : UInt64) (key field : Bytes) (agrees : α → List UInt64 → Prop)
    (w : Work) : EStateM.Result HashError Work α → Prop
  | ok {a : α} {vs : List UInt64} {w' : Work} (h : w.Tells forced now key field vs w')
      (ha : agrees a vs) :
    Told forced now key field agrees w (.ok a w')
  | error {err : HashError} {vs : List UInt64} {w' : Work} (h : w.Tells forced now key field vs w') :
    Told forced now key field agrees w (.error err w')

/-- Whether the action fails or not, it has told what it has done. -/
theorem Told.tells {agrees : α → List UInt64 → Prop} {res : EStateM.Result HashError Work α}
    (h : Told forced now key field agrees w res) :
    ∃ vs, w.Tells forced now key field vs (stateOf res) ∧ ∀ a w', res = .ok a w' → agrees a vs := by
  cases h with
  | @ok a vs w' h ha =>
    refine ⟨vs, h, fun b w'' hres => ?_⟩
    cases hres
    exact ha
  | @error err vs w' h => exact ⟨vs, h, nofun⟩

/-- From tidy keys, under a key that holds no value of another type, the action tells what versions it
stores in a field. -/
def Telling (forced : Prop) (now : UInt64) (key field k : Bytes) (agrees : α → List UInt64 → Prop)
    (x : DatabaseM α) : Prop :=
  ∀ w, w.database.keys.Tidy → w.database.keys.Open k → Told forced now key field agrees w (x.run w)

namespace Telling

variable {agrees : α → List UInt64 → Prop} {agrees' : β → List UInt64 → Prop} {x : DatabaseM α}

theorem pure {a : α} (h : agrees a []) : Telling forced now key field k agrees (Pure.pure a) :=
  fun w _ _ => .ok (.refl w) h

theorem imp {agrees' : α → List UInt64 → Prop} (h : Telling forced now key field k agrees x)
    (himp : ∀ a vs, agrees a vs → agrees' a vs) : Telling forced now key field k agrees' x := by
  intro w ht ho
  have hx := h w ht ho
  revert hx
  generalize x.run w = res
  intro hx
  cases hx with
  | ok h ha => exact .ok h (himp _ _ ha)
  | error h => exact .error h

theorem bind {next : α → DatabaseM β} (later : α → β → List UInt64 → Prop)
    {both : β → List UInt64 → Prop} (hx : Telling forced now key field k agrees x)
    (hk : ∀ a, Telling forced now key field k (later a) (next a))
    (hboth : ∀ a vs b vs', agrees a vs → later a b vs' → both b (vs ++ vs')) :
    Telling forced now key field k both (x >>= next) := by
  intro w ht ho
  have hfirst := hx w ht ho
  rw [EStateM.run_bind]
  revert hfirst
  generalize x.run w = res
  intro hfirst
  cases hfirst with
  | error h => exact .error h
  | @ok a vs w' h ha =>
    have hlater := hk a w' (h.tidy ht) ((h.opens k).mpr ho)
    dsimp only
    revert hlater
    generalize (next a).run w' = res
    intro hlater
    cases hlater with
    | ok h' hb => exact .ok (h.trans h') (hboth _ _ _ _ ha hb)
    | error h' => exact .error (h.trans h')

/-- What does nothing but reclaim expired fields may come first. -/
theorem after {next : α → DatabaseM β} {s : Scope}
    (hx : Tries s k (fun _ => false) (fun _ => 0) x)
    (hk : ∀ a, Telling forced s.now key field k agrees' (next a)) :
    Telling forced s.now key field k agrees' (x >>= next) := by
  intro w ht ho
  have h := hx w ht ho
  rw [EStateM.run_bind]
  revert h
  generalize x.run w = res
  intro h
  cases h with
  | refused hswept => exact .error (.of_swept hswept)
  | mistyped h => exact absurd ho h
  | @ok a w' evs hlogs hevs hn _ =>
    have hdid : w.Did s.now k (fun _ => false) 0 w' := ⟨evs, hlogs, hevs, hn⟩
    have hlater := hk a w' (hdid.tidy ht) (hdid.opens ho)
    dsimp only
    revert hlater
    generalize (next a).run w' = res
    intro hlater
    cases hlater with
    | ok h' hb => exact .ok (Work.Tells.trans (.of_swept hdid.swept) h') hb
    | error h' => exact .error (Work.Tells.trans (.of_swept hdid.swept) h')

/-- One after the other. -/
theorem forM {γ : Type} {l : List γ} {step : γ → DatabaseM PUnit} {at? : γ → Prop}
    (h : ∀ c ∈ l, Telling forced now key field k (fun _ vs => at? c → vs ≠ []) (step c)) :
    Telling forced now key field k (fun _ vs => (∃ c ∈ l, at? c) → vs ≠ []) (l.forM step) := by
  induction l with
  | nil => exact .pure fun ⟨_, hm, _⟩ => absurd hm List.not_mem_nil
  | cons c l ih =>
    refine .bind _ (h c List.mem_cons_self) (fun _ => ih fun c hm => h c (List.mem_cons_of_mem _ hm)) ?_
    rintro _ vs _ vs' hc hl ⟨d, hm, hd⟩
    rcases List.mem_cons.mp hm with rfl | hm
    · exact List.append_ne_nil_of_left_ne_nil (hc hd) vs'
    · exact List.append_ne_nil_of_right_ne_nil vs (hl ⟨d, hm, hd⟩)

/-- What is decided by the live record of a field is told by the command decided on. -/
theorem of_decides {x : Scope → DatabaseM α} {text : Bytes → Prop} {shown : α → β}
    {plan : Option Record → Except HashError (β × Option Command)}
    (h : Decides x k f s.now text shown plan)
    (hraises : ¬forced → k = key → f = field → ∀ old b c, plan (some old) = .ok (b, some c) →
      c.Raises old) :
    Telling forced s.now key field k (fun a vs => ∃ current c, plan current = .ok (shown a, c) ∧
      vs = (c.bind (Command.version? key field)).toList) (x s) := by
  intro w ht ho
  have hrun := h.run s w rfl ht ho
  cases hp : plan ((w.fieldsAt k).live? f s.now) with
  | error err =>
    rw [hp] at hrun
    change (x s).run w = _ at hrun
    rw [hrun]
    exact .error (.refl w)
  | ok out =>
    obtain ⟨b, c⟩ := out
    rw [hp] at hrun
    cases c with
    | none =>
      obtain ⟨a, hx, rfl⟩ := hrun
      rw [hx]
      exact .ok (.refl w) ⟨_, none, hp, rfl⟩
    | some c =>
      obtain ⟨a, w', hx, rfl, happly⟩ := hrun
      have hsuits := h.suits _ _ _ hp
      obtain ⟨w'', happly', hlogs⟩ := logs_apply ht ho hsuits
      cases happly.symm.trans happly'
      rw [hx]
      refine .ok (.of_logs hlogs hsuits.field?_eq fun hfree hkey hfield old hold => ?_)
        ⟨_, some c, hp, rfl⟩
      obtain rfl : k = key := hsuits.key_eq.symm.trans hkey
      subst hfield
      rw [hold] at hp
      exact hraises hfree rfl rfl old _ c hp

end Telling

section Plans

variable {old : Record} {c : Command} {version : VersionPolicy} {ttl : TtlUpdate}
  {current : Option Record}

theorem Command.toList_version?_ne_nil {key field : Bytes} {c : Option Command} {v : UInt64}
    (h : c.bind (version? key field) = some v) : (c.bind (version? key field)).toList ≠ [] := by
  rw [h]
  exact List.cons_ne_nil _ _

namespace Scope

theorem raises_of_storePlan {value : Bytes} {rule : WriteRule} {b : Option Bool}
    (hf : rule.version.forces = false)
    (h : storePlan key field value rule now (some old) = .ok (b, some c)) : c.Raises old := by
  obtain ⟨r?, hp, h⟩ := ok_of_map h
  cases r? with
  | none => cases h
  | some r =>
    cases h
    exact Fields.rises_of_setPlan hf hp

/-- A value that is stored is told of. -/
theorem version?_of_storePlan {value : Bytes} {rule : WriteRule} {created : Bool} {c : Option Command}
    (h : storePlan key field value rule now current = .ok (some created, c)) :
    (c.bind (Command.version? key field)).toList ≠ [] := by
  obtain ⟨r?, hp, h⟩ := ok_of_map h
  cases r? with
  | none => cases h
  | some r =>
    cases h
    exact Command.toList_version?_ne_nil (if_pos ⟨rfl, rfl⟩)

theorem raises_of_addIntPlan {delta sum : Int} {bounds : Bounds Int} (hf : version.forces = false)
    (h : addIntPlan key field delta bounds version ttl now (some old) = .ok (sum, some c)) :
    c.Raises old := by
  obtain ⟨⟨sum, r⟩, hp, h⟩ := ok_of_map h
  cases h
  exact Fields.rises_of_incrByPlan hf hp

theorem version?_of_addIntPlan {delta sum : Int} {bounds : Bounds Int} {c : Option Command}
    (h : addIntPlan key field delta bounds version ttl now current = .ok (sum, c)) :
    (c.bind (Command.version? key field)).toList ≠ [] := by
  obtain ⟨⟨sum, r⟩, -, h⟩ := ok_of_map h
  cases h
  exact Command.toList_version?_ne_nil (if_pos ⟨rfl, rfl⟩)

theorem raises_of_addFloatPlan {delta : Float} {text : Bytes} {bounds : Bounds Float}
    (hf : version.forces = false)
    (h : addFloatPlan key field delta bounds version ttl now (some old) = .ok (text, some c)) :
    c.Raises old := by
  obtain ⟨⟨sum, r⟩, hp, h⟩ := ok_of_map h
  cases h
  exact Fields.rises_of_incrByFloatPlan hf hp

theorem version?_of_addFloatPlan {delta : Float} {text : Bytes} {bounds : Bounds Float}
    {c : Option Command}
    (h : addFloatPlan key field delta bounds version ttl now current = .ok (text, c)) :
    (c.bind (Command.version? key field)).toList ≠ [] := by
  obtain ⟨⟨sum, r⟩, -, h⟩ := ok_of_map h
  cases h
  exact Command.toList_version?_ne_nil (if_pos ⟨rfl, rfl⟩)

theorem raises_of_amendExpiryPlan {time : ExpireTime} {b : Bool} (hf : version.forces = false)
    (h : amendExpiryPlan key field time version now (some old) = .ok (b, some c)) :
    c.Raises old := by
  obtain ⟨r?, hp, h⟩ := ok_of_map h
  cases r? with
  | none => cases h
  | some r =>
    cases h
    exact Fields.rises_of_setExpiryPlan hf hp

theorem version?_of_amendExpiryPlan {time : ExpireTime} {c : Option Command}
    (h : amendExpiryPlan key field time version now current = .ok (true, c)) :
    (c.bind (Command.version? key field)).toList ≠ [] := by
  obtain ⟨r?, -, h⟩ := ok_of_map h
  cases r? with
  | none => cases h
  | some r =>
    cases h
    exact Command.toList_version?_ne_nil (if_pos ⟨rfl, rfl⟩)

theorem raises_of_dropExpiryPlan {b : Bool}
    (h : dropExpiryPlan key field (some old) = .ok (b, some c)) : c.Raises old := by
  unfold dropExpiryPlan at h
  cases hc : (some old).filter (·.hasTtl) <;> rw [hc] at h <;> cases h
  exact trivial

end Scope

end Plans

section Writes

/-- A value that a write stores is told of. -/
theorem telling_store (s : Scope) (key field k f value : Bytes) {rule : WriteRule}
    (hf : ¬forced → k = key → f = field → rule.version.forces = false) :
    Telling forced s.now key field k (fun a vs => k = key → f = field → a.isSome → vs ≠ [])
      (s.store k f value rule) := by
  refine (Telling.of_decides (Scope.store_decides k f value rule s.now)
    fun hfree hkey hfield old b c => Scope.raises_of_storePlan (hf hfree hkey hfield)).imp ?_
  rintro a vs ⟨current, c, hp, rfl⟩ rfl rfl ha
  obtain ⟨w, rfl⟩ := Option.isSome_iff_exists.mp ha
  exact Scope.version?_of_storePlan hp

/-- A write of a batch always stores its value. -/
theorem telling_storeAlways (s : Scope) (key field k f value : Bytes) (ttl : TtlUpdate) :
    Telling forced s.now key field k (fun _ vs => k = key ∧ f = field → vs ≠ [])
      (discard (s.store k f value { ttl })) := by
  have hstore : Telling forced s.now key field k (fun _ vs => k = key ∧ f = field → vs ≠ [])
      (s.store k f value { ttl }) := by
    refine (Telling.of_decides (Scope.store_decides k f value { ttl } s.now)
      fun _ _ _ old b c => Scope.raises_of_storePlan rfl).imp ?_
    rintro a vs ⟨current, c, hp, rfl⟩ ⟨rfl, rfl⟩
    have halways : Scope.storePlan k f value { ttl } s.now current =
        .ok (some current.isNone, some (.set k f value
          (Fields.committed value .next ttl current s.now).version
          (Fields.committed value .next ttl current s.now).expireAt)) := by
      cases current <;> rfl
    obtain ⟨-, rfl⟩ := Prod.mk.inj (Except.ok.inj (hp.symm.trans halways))
    exact Command.toList_version?_ne_nil (if_pos ⟨rfl, rfl⟩)
  refine .bind (fun _ _ vs => vs = []) hstore (fun _ => .pure rfl) ?_
  rintro _ vs _ _ hvs rfl
  rwa [List.append_nil]

theorem telling_setField (s : Scope) (key field k f value : Bytes) {rule : WriteRule}
    (hf : ¬forced → k = key → f = field → rule.version.forces = false) :
    Telling forced s.now key field k
      (fun outcome vs => k = key ∧ f = field ∧ outcome ≠ .conditionNotMet → vs ≠ [])
      (s.setField k f value rule) := by
  refine .after (Manages.prepare s k f _).tries fun _ =>
    .bind (fun a b vs => vs = [] ∧ (a = none → b = .conditionNotMet))
      (telling_store s key field k f value hf) (fun a => ?_) ?_
  · cases a with
    | none => exact .pure ⟨rfl, fun _ => rfl⟩
    | some w => exact .pure ⟨rfl, nofun⟩
  · rintro a vs b _ hvs ⟨rfl, hnone⟩ ⟨hkey, hfield, hmet⟩
    rw [List.append_nil]
    refine hvs hkey hfield (Option.isSome_iff_ne_none.mpr fun he => hmet (hnone he))

theorem telling_setFields (s : Scope) (key field k : Bytes) (entries : List (Bytes × Bytes)) :
    Telling forced s.now key field k (fun _ vs => (∃ e ∈ entries, k = key ∧ e.1 = field) → vs ≠ [])
      (s.setFields k entries) :=
  .after (Manages.checkType s.now k _).tries fun _ => .after (Manages.sweep s k _).tries fun _ =>
    .forM fun e _ => .after (Manages.expireIfDue s k e.1 _).discard.tries fun _ =>
      telling_storeAlways s key field k e.1 e.2 .keep

theorem telling_setFieldsChecked (s : Scope) (key field k : Bytes) (updates : List FieldUpdate) :
    Telling forced s.now key field k (fun _ vs => (∃ u ∈ updates, k = key ∧ u.field = field) → vs ≠ [])
      (s.setFieldsChecked k updates) :=
  .after (Manages.checkType s.now k _).tries fun _ => .after (Manages.sweep s k _).tries fun _ =>
    .after (.forM fun u _ => tries_checkVersion s k u) fun _ => .forM fun u _ =>
      telling_storeAlways s key field k u.field u.value _

/-- A field that has expired is not there to be amended. -/
theorem telling_unlessDue {s : Scope} {key field k f : Bytes} {agrees : Bool → List UInt64 → Prop}
    {x : DatabaseM Bool} (hfalse : agrees false []) (hx : Telling forced s.now key field k agrees x) :
    Telling forced s.now key field k agrees (do if ← s.expireIfDue k f then return false else x) := by
  refine .after (Manages.expireIfDue s k f _).tries fun expired => ?_
  cases expired with
  | true => exact .pure hfalse
  | false => exact hx

/-- A write tells what versions it stores in a field. -/
theorem telling_write (s : Scope) (key field : Bytes) {wr : FieldWrite α}
    (hv : wr.validate = .ok ()) :
    Telling (wr.Forces key field) s.now key field wr.key
      (fun a vs => wr.Wrote key field a → vs ≠ []) (wr.action s) := by
  have hforces {k f : Bytes} {version : VersionPolicy}
      (hf : ¬(k = key ∧ f = field ∧ version.forces = true)) (hkey : k = key) (hfield : f = field) :
      version.forces = false := Bool.eq_false_iff.mpr fun h => hf ⟨hkey, hfield, h⟩
  cases wr with
  | set k f value rule => exact telling_setField s key field k f value hforces
  | setAll k entries =>
    exact (telling_setFields s key field k entries).imp fun _ vs hvs ⟨hkey, e, hm, he⟩ =>
      hvs ⟨e, hm, hkey, he⟩
  | setAllChecked k updates =>
    exact (telling_setFieldsChecked s key field k updates).imp fun _ vs hvs ⟨hkey, u, hm, hu⟩ =>
      hvs ⟨u, hm, hkey, hu⟩
  | incrBy k f delta bounds version ttl =>
    refine .after (Manages.prepare s k f _).tries fun _ => (Telling.of_decides
      (Scope.addInt_decides k f delta bounds version ttl s.now) fun hf hkey hfield _ _ _ =>
        Scope.raises_of_addIntPlan (hforces hf hkey hfield)).imp ?_
    rintro a vs ⟨current, c, hp, rfl⟩ ⟨rfl, rfl⟩
    exact Scope.version?_of_addIntPlan hp
  | incrByFloat k f delta bounds version ttl =>
    refine .after (Manages.prepare s k f _).tries fun _ => (Telling.of_decides
      (Scope.addFloat_decides k f delta bounds version ttl s.now) fun hf hkey hfield _ _ _ =>
        Scope.raises_of_addFloatPlan (hforces hf hkey hfield)).imp ?_
    rintro a vs ⟨current, c, hp, rfl⟩ ⟨rfl, rfl⟩
    exact Scope.version?_of_addFloatPlan hp
  | setExpiry k f time version =>
    refine telling_unlessDue (fun h => nomatch h.2.2) ((Telling.of_decides
      (Scope.amendExpiry_decides k f time (VersionPolicy.isMalformed_of_validate hv) s.now)
      fun hf hkey hfield _ _ _ => Scope.raises_of_amendExpiryPlan (hforces hf hkey hfield)).imp ?_)
    rintro a vs ⟨current, c, hp, rfl⟩ ⟨rfl, rfl, rfl⟩
    exact Scope.version?_of_amendExpiryPlan hp
  | setVersion k f version =>
    have hne : version ≠ 0 := by
      rintro rfl
      cases hv
    refine .after (Manages.checkType s.now k _).tries fun _ => .after (Manages.sweep s k _).tries
      fun _ => telling_unlessDue nofun ((Telling.of_decides (Scope.amendVersion_decides k f hne s.now)
        fun hf hkey hfield => absurd ⟨hkey, hfield⟩ hf).imp ?_)
    exact fun _ _ _ h => h.elim
  | persist k f =>
    refine telling_unlessDue nofun ((Telling.of_decides (Scope.dropExpiry_decides k f s.now)
      fun _ _ _ _ _ _ => Scope.raises_of_dropExpiryPlan).imp ?_)
    exact fun _ _ _ h => h.elim

/-- So it does if the key holds a value of another type, for then it does nothing. -/
theorem told_write (s : Scope) (key field : Bytes) {wr : FieldWrite α} (hv : wr.validate = .ok ())
    (ht : w.database.keys.Tidy) :
    Told (wr.Forces key field) s.now key field (fun a vs => wr.Wrote key field a → vs ≠ []) w
      ((wr.action s).run w) := by
  by_cases ho : w.database.keys.Open wr.key
  · exact telling_write s key field hv w ht ho
  · rw [mistypes_write s wr w ht ho]
    exact .error (.refl w)

end Writes

end ExpiringHash
