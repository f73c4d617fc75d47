import ExpiringHash.Proofs.Dump.Payloads
import ExpiringHash.Proofs.Engine.Strays
import ExpiringHash.Proofs.Fields.Live
import ExpiringHash.Proofs.Replication.Entries
import ExpiringHash.Proofs.Replication.Redelivery
import Mathlib.Data.List.Perm.Basic

/-!
# Containers built anew

The commands that build a container anew store its live records one after the other. They travel as
arguments, and whoever applies them, in whatever order, to a database without keys comes to the same
container: it has the key it was found under and just the records that had not expired, and the index
holds what it calls for.
-/
namespace ExpiringHash

/-- A list in another order than the image of one is the image of that one in another order. -/
theorem exists_perm_of_perm_map {α β : Type} {f : α → β} {l : List β} {m : List α}
    (h : l.Perm (m.map f)) : ∃ m' : List α, m'.Perm m ∧ l = m'.map f := by
  have hrel : List.Forall₂ (fun b a => b = f a) (m.map f) m :=
    List.forall₂_map_left_iff.mpr (List.forall₂_same.mpr fun _ _ => rfl)
  obtain ⟨m', hrel', hperm⟩ := List.perm_comp_forall₂ h hrel
  have heq : List.Forall₂ (· = ·) l (m'.map f) := List.forall₂_map_right_iff.mpr hrel'
  rw [List.forall₂_eq_eq_eq] at heq
  exact ⟨m', hperm, heq⟩

/-- The commands that store records under a key. -/
def Command.storing (key : Bytes) (rows : List (Bytes × Record)) : List Command :=
  rows.map fun row => .set key row.1 row.2.value row.2.version row.2.expireAt

namespace KeySpace

/-- There is a container under a key that holds given records, and no other key; if there are no
records, there is no key at all. -/
structure HoldsJust (ks : KeySpace) (key : Bytes) (record? : Bytes → Option Record) : Prop where
  others : ∀ other, other ≠ key → ks.get? other = none
  absent : (∀ field, record? field = none) → ks.get? key = none
  present : ∀ {field : Bytes} {r : Record}, record? field = some r →
    ∃ f : Fields, ks.get? key = some (.container ⟨key, f⟩) ∧ ∀ name, f.get? name = record? name

/-- Fields are all that there is, under one key, if there are any. -/
inductive Solitary (key : Bytes) : KeySpace → Fields → Prop
  | nothing : Solitary key ∅ ∅
  | container {f : Fields} (h : f.isEmpty = false) :
      Solitary key ((∅ : KeySpace).putContainer key ⟨key, f⟩) f

namespace Solitary

variable {key : Bytes} {ks : KeySpace} {f : Fields}

theorem opens (h : Solitary key ks f) : ks.Open key := by
  cases h with
  | nothing => exact open_of_absent rfl
  | container => exact open_of_present (SortedTable.get?_put_self _ _ _)

theorem fieldsAt (h : Solitary key ks f) : ks.fieldsAt key = f := by
  cases h with
  | nothing => exact fieldsAt_of_get?_none rfl
  | container => exact fieldsAt_putContainer_self ..

theorem put (h : Solitary key ks f) (field : Bytes) (r : Record) :
    Solitary key (ks.putContainer key ⟨key, (f.put field r).2⟩) (f.put field r).2 := by
  have hempty := Fields.isEmpty_put f field r
  cases h with
  | nothing => exact .container hempty
  | container =>
    rw [putContainer, putContainer, SortedTable.put_put]
    exact .container hempty

theorem holdsJust (h : Solitary key ks f) : ks.HoldsJust key f.get? := by
  cases h with
  | nothing => exact ⟨fun _ _ => rfl, fun _ => rfl, fun hr => by cases hr⟩
  | container he =>
    have hself := SortedTable.get?_put_self (∅ : KeySpace) key (.container ⟨key, f⟩)
    refine ⟨fun other ho => SortedTable.get?_put_of_ne ho, fun hnone => ?_,
      fun _ => ⟨f, hself, fun _ => rfl⟩⟩
    rw [Fields.isEmpty_iff_get?.mpr hnone] at he
    cases he

end Solitary

end KeySpace

namespace Fields

variable {f : Fields} {now : UInt64} {rows : List (Bytes × Record)}

/-- Fields made from live records, in any order, hold what is live. -/
theorem get?_putAll_of_perm_live (h : rows.Perm (f.live now)) (field : Bytes) :
    ((∅ : Fields).putAll rows).get? field = f.live? field now := by
  have hlive : (f.live now).Sublist f.records.toList := List.filter_sublist
  have hnodup : (rows.map Prod.fst).Nodup :=
    (h.map _).nodup_iff.mpr (f.nodup_names.sublist (hlive.map _))
  rw [← get?_liveRecords]
  refine Option.ext fun r => ?_
  rw [get?, SortedTable.get?_eq_some_iff, SortedTable.get?_eq_some_iff, ← SortedTable.mem_toList,
    ← (perm_putAll hnodup).mem_iff, h.mem_iff]
  rfl

end Fields

namespace Engine

variable {e : Engine} {db : Nat} {key : Bytes} {f : Fields} {l : Layout} {d : Database}

/-- A record that is stored joins those that are all there is. -/
theorem run_apply_storing (hd : e.databases[db]? = some d) (hstep : d.InStep l)
    (hs : d.keys.Solitary key f) (row : Bytes × Record) :
    ∃ e' d', (Request.apply db
        (.set key row.1 row.2.value row.2.version row.2.expireAt)).perform.run e = .ok () e' ∧
      e'.databases[db]? = some d' ∧ d'.InStep l ∧ d'.keys.Solitary key (f.put row.1 row.2).2 := by
  obtain ⟨field, r⟩ := row
  have hrun := run_apply_set (w := ⟨d, []⟩) hstep.tidy hs.opens field r.value r.version r.expireAt
  refine ⟨_, _, run_perform_apply hd hrun, getElem?_absorb_self hd _, ?_, ?_⟩
  · exact (Database.InStep.lasting l).step (w := ⟨d, []⟩) hstep (.apply _ (fun _ _ => trivial) hrun)
  · have hput := hs.put field r
    rw [← hs.fieldsAt] at hput ⊢
    exact hput

/-- Records that are stored one after the other join those that are all there is. -/
theorem run_applyEach_storing (hd : e.databases[db]? = some d) (hstep : d.InStep l)
    (hs : d.keys.Solitary key f) (rows : List (Bytes × Record)) :
    ∃ e' d', (applyEach ((Command.storing key rows).map (db, ·))).run e = .ok () e' ∧
      e'.databases[db]? = some d' ∧ d'.InStep l ∧ d'.keys.Solitary key (f.putAll rows) := by
  induction rows generalizing e d f with
  | nil => exact ⟨e, d, rfl, hd, hstep, hs⟩
  | cons row rows ih =>
    obtain ⟨e₁, d₁, hrun₁, hd₁, hstep₁, hs₁⟩ := run_apply_storing hd hstep hs row
    obtain ⟨e₂, d₂, hrun₂, hafter⟩ := ih hd₁ hstep₁ hs₁
    refine ⟨e₂, d₂, ?_, hafter⟩
    change EStateM.run (_ >>= fun _ => applyEach ((Command.storing key rows).map (db, ·))) e = _
    rw [EStateM.run_bind, hrun₁]
    exact hrun₂

/-- The commands that build a container anew are read back from their arguments. Applied in any order
to any database of an engine without keys, whatever its role, layout and clock, they never fail: the
database comes to hold the container's key and no other, under it the records that had not expired and
nothing else, and its index verifies. If all have expired, it stays without keys. -/
theorem rebuilt_from_commands {config : Config} {now : UInt64} {c : Container}
    (h : (Engine.new config now).Reaches (fun _ _ => True) e) (hd : e.databases[db]? = some d)
    (hc : d.keys.get? key = some (.container c)) :
    ∃ cs, e.answer db (.rebuild key) = .ok cs ∧ ∀ cs' : List Command, cs'.Perm cs →
      (cs'.map Command.args).mapM Command.ofArgs = .ok cs' ∧
      ∀ (config' : Config) (now' : UInt64) (role : Role) (db' : Nat), db' < config'.databases →
        ∃ g, (applyEach (cs'.map (db', ·))).run { Engine.new config' now' with role } = .ok () g ∧
          (g.keysAt db').HoldsJust key (fun field => c.fields.live? field e.now) ∧
          g.answer db' .verify = .ok () := by
  have htidy : d.keys.Tidy := (anchored_of_reaches h d (List.mem_of_getElem? hd)).tidy
  obtain rfl : c.key = key := htidy.key_eq hc
  refine ⟨c.rebuild e.now, ?_, fun cs' hperm => ⟨mapM_map_eq_ok fun c _ => c.ofArgs_args,
    fun config' now' role db' hdb => ?_⟩⟩
  · rw [answer, database, hd]
    change d.ofContainer c.key [] _ = _
    rw [Database.ofContainer, KeySpace.container?_present hc]
    rfl
  · obtain ⟨rows, hrows, rfl⟩ := exists_perm_of_perm_map hperm
    have hfresh : ({ Engine.new config' now' with role } : Engine).databases[db']? =
        some (.new config'.layout) := List.getElem?_replicate_of_lt hdb
    have hnothing : (Database.new config'.layout).keys.Solitary c.key ∅ := .nothing
    obtain ⟨g, d', hrun, hd', hstep, hs⟩ :=
      run_applyEach_storing hfresh (.new config'.layout) hnothing rows
    refine ⟨g, hrun, ?_, ?_⟩
    · rw [keysAt_of_getElem? hd', ← funext (Fields.get?_putAll_of_perm_live hrows)]
      exact hs.holdsJust
    · rw [answer, database, hd']
      exact hstep.verify_eq_ok db'

/-- A container with three fields, one of which has expired, was renamed. Its commands are applied
last one first to a replica with the other layout, on whose clock another field has expired. -/
theorem rebuilt_from_commands_reversed :
    let new := Engine.new {} 1000
    let stored := ((new.after (.write 0 (.set [1] [10] [7] {}))).after
      (.write 0 (.set [1] [11] [8] { ttl := .set (.moment 5000) }))).after
      (.write 0 (.set [1] [12] [9] { ttl := .set (.after 5) }))
    let e := (stored.after (.key (.rename 0 [1] [2]))).after (.setClock 2000)
    let fields := (e.keysAt 0).fieldsAt [2]
    let cs : List Command := [.set [2] [11] [8] 1 5000, .set [2] [10] [7] 1 0]
    new.Reaches (fun _ _ => True) e ∧ fields.size = 3 ∧
      e.answer 0 (.rebuild [2]) = .ok cs.reverse ∧
      ∃ g, (applyEach (cs.map (5, ·))).run
          { Engine.new { layout := .fine } 9000 with role := .replica } = .ok () g ∧
        (g.keysAt 5).HoldsJust [2] (fun field => fields.live? field e.now) ∧
        fields.live? [11] e.now = some ⟨[8], 1, 5000⟩ ∧ fields.live? [12] e.now = none ∧
        g.answer 5 .verify = .ok () := by
  intro new stored e fields cs
  have h : new.Reaches (fun _ _ => True) e :=
    .step _ (.step _ (.step _ (.step _ (.step _ .refl trivial) trivial) trivial) trivial) trivial
  have hanswer : e.answer 0 (.rebuild [2]) = .ok cs.reverse := by decide +kernel
  obtain ⟨d, hd⟩ : ∃ d, e.databases[0]? = some d := Option.isSome_iff_exists.mp (by decide +kernel)
  obtain ⟨c, hc, hfields⟩ : ∃ c, d.keys.get? [2] = some (.container c) ∧ c.fields = fields := by
    rw [← keysAt_of_getElem? hd]
    exact ⟨⟨[2], fields⟩, by decide +kernel, by decide +kernel⟩
  obtain ⟨cs', hcs', hrebuilt⟩ := rebuilt_from_commands h hd hc
  obtain rfl : cs.reverse = cs' := Except.ok.inj (hanswer.symm.trans hcs')
  obtain ⟨g, hrun, hholds, hverify⟩ :=
    (hrebuilt cs cs.reverse_perm.symm).2 { layout := .fine } 9000 .replica 5 (by decide)
  rw [hfields] at hholds
  exact ⟨h, by decide +kernel, hanswer, g, hrun, hholds, by decide +kernel, by decide +kernel, hverify⟩

end Engine

end ExpiringHash
