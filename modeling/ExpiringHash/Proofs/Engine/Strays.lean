import ExpiringHash.Proofs.Engine.Anchored
import ExpiringHash.Proofs.Replication.Replay

/-!
# Notices of keys that have not moved

The host may tell of a relocation that has not taken place. Notices that do not pair up are forgotten.
A pair is believed: under the first name the index is rid of the entries that the container under the
second name calls for, and under the second name it is given them. No record is touched, and as a rule
no entry either, since the container's own entries are there already and the first name has none like
them. Only where the two names belong to two containers that call for like entries, the first one
loses its own.
-/
namespace ExpiringHash

open Database

/-- The container under the new name and another one under the old name call for like entries, of the
same time and, in the fine layout, of the same field. -/
def Relocation.Collides (l : Layout) (keysAt : Nat → KeySpace) (r : Relocation) : Prop :=
  (r.fromDb, r.fromKey) ≠ (r.toDb, r.toKey) ∧ ∃ due field,
    (keysAt r.toDb).Owes l ⟨due, r.toKey, field⟩ ∧ (keysAt r.fromDb).Owes l ⟨due, r.fromKey, field⟩

/-- The relocations that notices complete, given the one that waits. -/
def PendingRelocation.completed : PendingRelocation → List Notice → List Relocation
  | _, [] => []
  | p, n :: ns => (n.receive p).1.toList ++ completed (n.receive p).2 ns

theorem PendingRelocation.completed_subset {p : PendingRelocation} {ms ns : List Notice}
    (h : ms <+: ns) : p.completed ms ⊆ p.completed ns := by
  induction ms generalizing p ns with
  | nil => exact List.nil_subset _
  | cons m ms ih =>
    obtain ⟨rest, rfl⟩ := h
    exact List.append_subset.mpr ⟨List.subset_append_left .., List.subset_append_of_subset_right _
      (ih (List.prefix_append ms rest))⟩

theorem Layout.mem_owed_rekey {l : Layout} {key : Bytes} (other : Bytes)
    {expiring : DeadlineSet Bytes} {due : UInt64} {field : Option Bytes} :
    ⟨due, key, field⟩ ∈ l.owed key expiring ↔ ⟨due, other, field⟩ ∈ l.owed other expiring := by
  cases l with
  | coarse => simp only [mem_owed_coarse, true_and]
  | fine => simp only [mem_owed_fine, true_and]

theorem Database.verify_eq_ok_iff {d : Database} {db : Nat} :
    d.verify db = .ok () ↔ d.index.entries = d.owed := by
  unfold verify
  split <;> simp [*]

/-- An anchored database that verifies is in step. -/
theorem Database.Anchored.inStep {l : Layout} {d : Database} (h : d.Anchored l)
    (howed : d.index.entries = d.owed) : d.InStep l := by
  obtain ⟨full, hfull, hk, hi⟩ := h
  have hentries : d.index.entries = full.index.entries := by
    rw [howed, hfull.entries_eq_owed, owed, owed, hk, hi.layout]
  have hindex : d.index = full.index := ExpiryIndex.ext_entries hi.layout fun e => by rw [hentries]
  refine ⟨hk ▸ hfull.tidy, hi.layout.trans hfull.layout, fun key => ?_⟩
  rw [hindex, ← hk]
  exact hfull.files key

namespace Engine

variable {e : Engine} {l : Layout} {r : Relocation} {db : Nat} {d : Database}

/-- The expiring fields of the container that a relocation finds under the new name. -/
def expiringAt (e : Engine) (r : Relocation) : DeadlineSet Bytes :=
  ((e.keysAt r.toDb).fieldsAt r.toKey).expiring

theorem relocate_eq_set (r : Relocation) (e : Engine) :
    e.relocate r = { e with databases := (e.relocate r).databases } := by
  unfold relocate
  split <;> rfl

/-- Where no container is found, nothing happens. -/
theorem relocate_of_none (h : ∀ c, (e.keysAt r.toDb).get? r.toKey ≠ some (.container c)) :
    e.relocate r = e ∧ e.expiringAt r = ∅ := by
  unfold relocate expiringAt KeySpace.fieldsAt
  cases hd : e.databases[r.toDb]? with
  | none =>
    rw [keysAt, hd]
    exact ⟨rfl, rfl⟩
  | some d =>
    rw [keysAt_of_getElem? hd] at h ⊢
    rw [Option.bind_some]
    cases hv : d.keys.get? r.toKey with
    | none => exact ⟨rfl, rfl⟩
    | some v =>
      cases v with
      | foreign type payload => exact ⟨rfl, rfl⟩
      | container c => exact absurd hv (h c)

/-- A change of one database of which the index only is seen. -/
theorem getElem?_modify_index {ds : List Database} (hd : ds[db]? = some d) (other : Nat)
    (change : Database → Database) (move : ExpiryIndex → ExpiryIndex)
    (h : other = db → change d = { d with index := move d.index }) :
    (ds.modify other change)[db]? =
      some { d with index := if other = db then move d.index else d.index } := by
  rw [List.getElem?_modify, hd]
  split
  · next heq => exact congrArg some (h heq)
  · rfl

/-- What a relocation does to a database whose containers know their keys: of its index, it takes out
what the container found calls for under the old name, and puts in what it calls for under the new
one. -/
theorem getElem?_relocate (htidy : ∀ d ∈ e.databases, d.keys.Tidy) (r : Relocation)
    (hd : e.databases[db]? = some d) :
    ∃ i, (e.relocate r).databases[db]? = some { d with index := i } ∧ i.layout = d.index.layout ∧
      ∀ x, x ∈ i.entries ↔
        (x ∈ d.index.entries ∧
          ¬ (r.fromDb = db ∧ x ∈ d.index.layout.owed r.fromKey (e.expiringAt r))) ∨
        (r.toDb = db ∧ x ∈ d.index.layout.owed r.toKey (e.expiringAt r)) := by
  by_cases hfound : ∃ c, (e.keysAt r.toDb).get? r.toKey = some (.container c)
  · obtain ⟨c, hc⟩ := hfound
    have hexpiring : e.expiringAt r = c.fields.expiring := by
      rw [expiringAt, KeySpace.fieldsAt_of_get? hc]
    cases hto : e.databases[r.toDb]? with
    | none =>
      rw [keysAt, hto] at hc
      cases hc
    | some target =>
      rw [keysAt_of_getElem? hto] at hc
      have hkey : c.key = r.toKey := (htidy target (List.mem_of_getElem? hto)).key_eq hc
      have hput (heq : r.toDb = db) : d.keys.putContainer r.toKey { c with key := r.toKey } = d.keys := by
        rw [← heq, hto] at hd
        obtain rfl := Option.some.inj hd
        rw [← hkey] at hc ⊢
        exact SortedTable.put_of_get? hc
      have hdropped := getElem?_modify_index hd r.fromDb
        (fun d => { d with index := d.index.detach r.fromKey c.fields.expiring.toList })
        (fun i => i.detach r.fromKey c.fields.expiring.toList) fun _ => rfl
      have hrefiled := getElem?_modify_index hdropped r.toDb
        (fun d => { d.putContainer r.toKey { c with key := r.toKey } with
          index := d.index.attach r.toKey c.fields.expiring.toList })
        (fun i => i.attach r.toKey c.fields.expiring.toList)
        fun heq => by rw [putContainer, hput heq]
      rw [relocate_eq hto hc, hexpiring]
      refine ⟨_, hrefiled, ?_, fun x => ?_⟩ <;> dsimp only
      · split <;> split <;> simp
      · split <;> split <;> simp [ExpiryIndex.mem_attach, ExpiryIndex.mem_detach, *]
  · obtain ⟨hnone, hempty⟩ := relocate_of_none (not_exists.mp hfound)
    refine ⟨d.index, by rw [hnone, hd], rfl, fun x => ?_⟩
    simp only [hempty, Layout.owed_empty, List.not_mem_nil, and_false, not_false_eq_true, and_true,
      or_false]

theorem length_relocate (r : Relocation) (e : Engine) :
    (e.relocate r).databases.length = e.databases.length := by
  unfold relocate
  split
  · rfl
  · exact (List.length_modify ..).trans (List.length_modify ..)

/-- A relocation leaves the keys of every database as they are. -/
theorem map_keys_relocate (htidy : ∀ d ∈ e.databases, d.keys.Tidy) (r : Relocation) :
    (e.relocate r).databases.map (·.keys) = e.databases.map (·.keys) := by
  refine List.ext_getElem? fun db => ?_
  rw [List.getElem?_map, List.getElem?_map]
  cases hd : e.databases[db]? with
  | none =>
    rw [List.getElem?_eq_none_iff, ← length_relocate r e, ← List.getElem?_eq_none_iff] at hd
    rw [hd]
  | some d =>
    obtain ⟨i, hi, -⟩ := getElem?_relocate htidy r hd
    rw [hi]
    rfl

theorem keysAt_eq_of_map_keys {e' : Engine}
    (h : e'.databases.map (·.keys) = e.databases.map (·.keys)) : e'.keysAt = e.keysAt := by
  funext db
  rw [keysAt, keysAt, ← List.getElem?_map, h, List.getElem?_map]

/-- An index in step holds the entries that are called for by the keys of its database. -/
theorem mem_entries_iff_owes_keysAt (h : ∀ d ∈ e.databases, d.InStep l)
    (hd : e.databases[db]? = some d) (x : IndexEntry) :
    x ∈ d.index.entries ↔ (e.keysAt db).Owes l x := by
  rw [keysAt_of_getElem? hd]
  exact (h d (List.mem_of_getElem? hd)).mem_entries_iff_owes x

/-- What the container under the new name calls for, said of the entries of an index in step. -/
theorem mem_owed_expiringAt (h : ∀ d ∈ e.databases, d.InStep l) {due : UInt64} {key : Bytes}
    {field : Option Bytes} :
    ⟨due, key, field⟩ ∈ l.owed key (e.expiringAt r) ↔ (e.keysAt r.toDb).Owes l ⟨due, r.toKey, field⟩ := by
  rw [Layout.mem_owed_rekey r.toKey, expiringAt]
  cases hd : e.databases[r.toDb]? with
  | none =>
    rw [keysAt, hd]
    refine iff_of_false ?_ ?_
    · rw [Option.map_none, Option.getD_none, KeySpace.fieldsAt_of_get?_none rfl,
        Fields.expiring_empty, Layout.owed_empty]
      exact List.not_mem_nil
    · rintro ⟨c, hc, -⟩
      cases hc
  | some d =>
    have hstep := h d (List.mem_of_getElem? hd)
    rw [← mem_entries_iff_owes_keysAt h hd, hstep.mem_entries_iff, keysAt_of_getElem? hd]

/-- A relocation that has not taken place changes nothing, unless it collides. -/
theorem relocate_eq_self (h : ∀ d ∈ e.databases, d.InStep l) (hr : ¬ r.Collides l e.keysAt) :
    e.relocate r = e := by
  have htidy : ∀ d ∈ e.databases, d.keys.Tidy := fun d hd => (h d hd).tidy
  have hdatabases : (e.relocate r).databases = e.databases := by
    refine List.ext_getElem? fun db => ?_
    cases hd : e.databases[db]? with
    | none =>
      rwa [List.getElem?_eq_none_iff, ← length_relocate r e, ← List.getElem?_eq_none_iff] at hd
    | some d =>
      have hstep := h d (List.mem_of_getElem? hd)
      obtain ⟨i, hi, hlayout, hmem⟩ := getElem?_relocate htidy r hd
      suffices hsame : i = d.index by rw [hi, hsame]
      refine ExpiryIndex.ext_entries hlayout fun x => ?_
      rw [hmem, hstep.layout]
      obtain ⟨due, key, field⟩ := x
      constructor
      · rintro (⟨hx, -⟩ | ⟨rfl, hx⟩)
        · exact hx
        · obtain rfl := Layout.key_of_mem_owed hx
          exact (mem_entries_iff_owes_keysAt h hd _).mpr ((mem_owed_expiringAt h).mp hx)
      · intro hx
        by_cases hgone : r.fromDb = db ∧ ⟨due, key, field⟩ ∈ l.owed r.fromKey (e.expiringAt r)
        · obtain ⟨rfl, howed⟩ := hgone
          obtain rfl := Layout.key_of_mem_owed howed
          have hfrom := (mem_entries_iff_owes_keysAt h hd _).mp hx
          have hto := (mem_owed_expiringAt h).mp howed
          -- both call for the entry, so they are one and the same container
          by_contra hlost
          refine hr ⟨fun hsame => hlost (.inr ?_), due, field, hto, hfrom⟩
          obtain ⟨hdb, hkey⟩ := Prod.mk.inj hsame
          exact ⟨hdb.symm, hkey ▸ howed⟩
        · exact .inl ⟨hx, hgone⟩
  rw [relocate_eq_set, hdatabases]

/-- A relocation that has not taken place but collides leaves an index that lacks an entry. -/
theorem exists_ne_owed_of_collides (h : ∀ d ∈ e.databases, d.InStep l) (hr : r.Collides l e.keysAt) :
    ∃ d ∈ (e.relocate r).databases, d.index.entries ≠ d.owed := by
  have htidy : ∀ d ∈ e.databases, d.keys.Tidy := fun d hd => (h d hd).tidy
  obtain ⟨hne, due, field, hto, hfrom⟩ := hr
  cases hd : e.databases[r.fromDb]? with
  | none =>
    rw [keysAt, hd] at hfrom
    obtain ⟨c, hc, -⟩ := hfrom
    cases hc
  | some d =>
    have hstep := h d (List.mem_of_getElem? hd)
    obtain ⟨i, hi, hlayout, hmem⟩ := getElem?_relocate htidy r hd
    refine ⟨_, List.mem_of_getElem? hi, fun howed => ?_⟩
    have hanchored := (keeps_anchored_relocate l r e fun d hd => .of_inStep (h d hd)).2.2
      _ (List.mem_of_getElem? hi)
    have hkeys : d.keys = e.keysAt r.fromDb := (keysAt_of_getElem? hd).symm
    rw [← hkeys] at hfrom
    have hx := ((hanchored.inStep howed).mem_entries_iff_owes _).mpr hfrom
    rcases (hmem _).mp hx with ⟨-, hkept⟩ | ⟨hdb, hnew⟩
    · rw [hstep.layout] at hkept
      exact hkept ⟨rfl, (mem_owed_expiringAt h).mpr hto⟩
    · have hkey := Layout.key_of_mem_owed hnew
      exact hne (by rw [hdb, ← hkey])

/-! ### Notices one after the other -/

/-- The index of every database holds the entries that its containers call for. -/
def Verifies (e : Engine) : Prop := ∀ db < e.databases.length, e.answer db .verify = .ok ()

/-- The engine while another relocation waits. -/
def awaiting (e : Engine) (p : PendingRelocation) : Engine := { e with pending := p }

/-- The engine once the host has given its notices. -/
def notified (e : Engine) (ns : List Notice) : Engine :=
  ns.foldl (fun e n => e.after (.notice n)) e

theorem verifies_iff : e.Verifies ↔ ∀ d ∈ e.databases, d.index.entries = d.owed := by
  have hanswer {db : Nat} {d : Database} (hd : e.databases[db]? = some d) :
      e.answer db .verify = .ok () ↔ d.index.entries = d.owed := by
    rw [answer, database, hd]
    exact Database.verify_eq_ok_iff
  constructor
  · intro h d hd
    obtain ⟨db, hdb⟩ := List.mem_iff_getElem?.mp hd
    exact (hanswer hdb).mp (h db (List.getElem?_eq_some_iff.mp hdb).1)
  · intro h db hlt
    exact (hanswer (List.getElem?_eq_getElem hlt)).mpr (h _ (List.getElem_mem hlt))

variable {n : Notice} {ns : List Notice}

theorem after_notice (hn : n.db < e.databases.length) :
    e.after (.notice n) = match (n.receive e.pending).1 with
      | none => e.awaiting (n.receive e.pending).2
      | some r => (e.awaiting (n.receive e.pending).2).relocate r := by
  rw [after_eq]
  change stateOf ((receive n).run e) = _
  rw [run_receive, List.getElem?_eq_getElem hn]
  rfl

theorem pending_after_notice (hn : n.db < e.databases.length) :
    (e.after (.notice n)).pending = (n.receive e.pending).2 := by
  rw [after_notice hn]
  split
  · rfl
  · rw [relocate_eq_set]
    rfl

/-- A notice leaves the keys of every database as they are. -/
theorem map_keys_after_notice (htidy : ∀ d ∈ e.databases, d.keys.Tidy)
    (hn : n.db < e.databases.length) :
    (e.after (.notice n)).databases.map (·.keys) = e.databases.map (·.keys) := by
  rw [after_notice hn]
  split
  · rfl
  · next r _ => exact map_keys_relocate (e := e.awaiting (n.receive e.pending).2) htidy r

/-- A notice that completes no relocation, or one that does not collide, leaves the databases as they
are. -/
theorem databases_after_notice (h : ∀ d ∈ e.databases, d.InStep l) (hn : n.db < e.databases.length)
    (hr : ∀ r, (n.receive e.pending).1 = some r → ¬ r.Collides l e.keysAt) :
    (e.after (.notice n)).databases = e.databases := by
  rw [after_notice hn]
  split
  · rfl
  · next r hcompleted =>
    rw [relocate_eq_self (e := e.awaiting (n.receive e.pending).2) h (hr r hcompleted)]
    rfl

/-- Notices leave the keys of every database as they are. -/
theorem map_keys_notified (htidy : ∀ d ∈ e.databases, d.keys.Tidy)
    (hn : ∀ n ∈ ns, n.db < e.databases.length) :
    (e.notified ns).databases.map (·.keys) = e.databases.map (·.keys) := by
  induction ns generalizing e with
  | nil => rfl
  | cons n ns ih =>
    obtain ⟨hfirst, hrest⟩ := List.forall_mem_cons.mp hn
    have hkeys := map_keys_after_notice htidy hfirst
    have hlength : (e.after (.notice n)).databases.length = e.databases.length := by
      rw [← List.length_map (·.keys), hkeys, List.length_map]
    rw [← hkeys]
    refine ih (fun d hd => ?_) (fun m hm => hlength ▸ hrest m hm)
    have hmem : d.keys ∈ e.databases.map (·.keys) := hkeys ▸ List.mem_map_of_mem hd
    obtain ⟨d', hd', he⟩ := List.mem_map.mp hmem
    exact he ▸ htidy d' hd'

/-- Notices leave the databases as they are, if no relocation that they complete collides. -/
theorem databases_notified (h : ∀ d ∈ e.databases, d.InStep l)
    (hn : ∀ n ∈ ns, n.db < e.databases.length)
    (hr : ∀ r ∈ e.pending.completed ns, ¬ r.Collides l e.keysAt) :
    (e.notified ns).databases = e.databases := by
  induction ns generalizing e with
  | nil => rfl
  | cons n ns ih =>
    obtain ⟨hfirst, hrest⟩ := List.forall_mem_cons.mp hn
    have hsame := databases_after_notice h hfirst fun r he =>
      hr r (List.mem_append_left _ (Option.mem_toList.mpr he))
    have hkeys : (e.after (.notice n)).keysAt = e.keysAt :=
      keysAt_eq_of_map_keys (congrArg _ hsame)
    rw [← hsame]
    refine ih (hsame ▸ h) (hsame ▸ hrest) fun r hmem => ?_
    rw [pending_after_notice hfirst] at hmem
    rw [hkeys]
    exact hr r (List.mem_append_right _ hmem)

/-- As soon as notices complete a relocation that collides, an index lacks an entry. -/
theorem exists_not_verifies (h : ∀ d ∈ e.databases, d.InStep l)
    (hn : ∀ n ∈ ns, n.db < e.databases.length) (hr : r ∈ e.pending.completed ns)
    (hcollides : r.Collides l e.keysAt) : ∃ ms, ms <+: ns ∧ ¬ (e.notified ms).Verifies := by
  induction ns generalizing e with
  | nil => cases hr
  | cons n ns ih =>
    obtain ⟨hfirst, hrest⟩ := List.forall_mem_cons.mp hn
    by_cases hnow : ∃ r, (n.receive e.pending).1 = some r ∧ r.Collides l e.keysAt
    · obtain ⟨r, hcompleted, hcollides⟩ := hnow
      refine ⟨[n], List.prefix_append [n] ns, fun hverifies => ?_⟩
      obtain ⟨d, hd, hbroken⟩ := exists_ne_owed_of_collides
        (e := e.awaiting (n.receive e.pending).2) h hcollides
      refine hbroken (verifies_iff.mp hverifies d ?_)
      change d ∈ (e.after (.notice n)).databases
      rw [after_notice hfirst, hcompleted]
      exact hd
    · have hsame := databases_after_notice h hfirst fun r he hc => hnow ⟨r, he, hc⟩
      have hkeys : (e.after (.notice n)).keysAt = e.keysAt :=
        keysAt_eq_of_map_keys (congrArg _ hsame)
      rcases List.mem_append.mp hr with hmem | hmem
      · exact absurd ⟨r, Option.mem_toList.mp hmem, hcollides⟩ hnow
      · obtain ⟨ms, hms, hbroken⟩ := ih (e := e.after (.notice n)) (hsame ▸ h) (hsame ▸ hrest)
          (by rwa [pending_after_notice hfirst]) (by rwa [hkeys])
        exact ⟨n :: ms, List.cons_prefix_cons.mpr ⟨rfl, hms⟩, hbroken⟩

/-- However many notices are given of keys that have not moved, and in whatever order, all records
stay. All indexes verify after each of them if no relocation that they complete collides, and only
then. -/
theorem notices_spare_unless_colliding {config : Config} {now : UInt64}
    (h : (Engine.new config now).Reaches (fun _ _ => True) e) (hv : e.Verifies)
    (hn : ∀ n ∈ ns, n.db < e.databases.length) :
    (∀ ms, ms <+: ns → (e.notified ms).databases.map (·.keys) = e.databases.map (·.keys)) ∧
    ((∀ ms, ms <+: ns → (e.notified ms).Verifies) ↔
      ∀ r ∈ e.pending.completed ns, ¬ r.Collides config.layout e.keysAt) := by
  have hanchored := anchored_of_reaches h
  have hstep : ∀ d ∈ e.databases, d.InStep config.layout := fun d hd =>
    (hanchored d hd).inStep (verifies_iff.mp hv d hd)
  refine ⟨fun ms hms => ?_, fun hall r hr hcollides => ?_, fun hr ms hms => ?_⟩
  · exact map_keys_notified (fun d hd => (hstep d hd).tidy) fun n hm => hn n (hms.subset hm)
  · obtain ⟨ms, hms, hbroken⟩ := exists_not_verifies hstep hn hr hcollides
    exact hbroken (hall ms hms)
  · have hsame : (e.notified ms).databases = e.databases := by
      refine databases_notified hstep (fun n hm => hn n (hms.subset hm)) fun r hmem => hr r ?_
      exact PendingRelocation.completed_subset hms hmem
    rw [verifies_iff, hsame]
    exact verifies_iff.mp hv

/-- Unless a second notice has been given, all indexes verify. -/
theorem inStep_of_reaches {config : Config} {now : UInt64}
    (h : (Engine.new config now).Reaches (fun _ r => ¬ r.IsSecondNotice) e) :
    ∀ d ∈ e.databases, d.InStep config.layout :=
  (keeps_reaches (fun _ _ hr => keeps_perform (InStep.lasting _) hr) h
    (forall_mem_new now (InStep.new _))).2.2

theorem mem_iff_owes_keysAt (h : ∀ d ∈ e.databases, d.InStep l) {entries : List IndexEntry}
    (he : (e.databases[db]?).map (·.index.entries) = some entries) (x : IndexEntry) :
    x ∈ entries ↔ (e.keysAt db).Owes l x := by
  obtain ⟨d, hd, rfl⟩ := Option.map_eq_some_iff.mp he
  exact mem_entries_iff_owes_keysAt h hd x

/-- One container is taken for another one that has been renamed, which expires later. -/
theorem notices_spare_later_container :
    let new := Engine.new { databases := 1 } 1000
    let e := (new.after (.write 0 (.set [1] [10] [7] { ttl := .set (.moment 5000) }))).after
      (.write 0 (.set [2] [10] [7] { ttl := .set (.moment 6000) }))
    let ns := [.renameTo 0 [1], .renameFrom 0 [1], .renameTo 0 [2]]
    e.pending.completed ns = [⟨0, [1], 0, [2]⟩] ∧
      (∀ ms, ms <+: ns → (e.notified ms).databases.map (·.keys) = e.databases.map (·.keys)) ∧
      ∀ ms, ms <+: ns → (e.notified ms).Verifies := by
  intro new e ns
  have h : new.Reaches (fun _ _ => True) e := .step _ (.step _ .refl trivial) trivial
  have hstep : ∀ d ∈ e.databases, d.InStep .coarse :=
    inStep_of_reaches (.step _ (.step _ .refl id) id)
  have hv : e.Verifies := verifies_iff.mpr fun d hd => (hstep d hd).entries_eq_owed
  have hcompleted : e.pending.completed ns = [⟨0, [1], 0, [2]⟩] := by decide +kernel
  obtain ⟨hkeys, hverifies⟩ := notices_spare_unless_colliding h hv
    (by decide +kernel : ∀ n ∈ ns, n.db < e.databases.length)
  refine ⟨hcompleted, hkeys, hverifies.mpr fun r hr hcollides => ?_⟩
  obtain rfl := List.mem_singleton.mp (hcompleted ▸ hr)
  obtain ⟨-, due, field, hto, hfrom⟩ := hcollides
  have howes := mem_iff_owes_keysAt hstep (by decide +kernel :
    (e.databases[0]?).map (·.index.entries) = some [⟨5000, [1], none⟩, ⟨6000, [2], none⟩])
  have hlater : due = 6000 ∧ field = none := by simpa using (howes _).mpr hto
  have hsooner : due = 5000 ∧ field = none := by simpa using (howes _).mpr hfrom
  exact absurd (hlater.1.symm.trans hsooner.1) (by decide)

/-- Two containers expire at the same time, and a rename of the one to the other is told that has not
taken place: the first one is missing from the index. -/
theorem not_notices_spare :
    ¬ ∀ (config : Config) (now : UInt64) (e : Engine) (ns : List Notice),
      (Engine.new config now).Reaches (fun _ _ => True) e → e.Verifies →
      (∀ n ∈ ns, n.db < e.databases.length) →
      (e.notified ns).databases.map (·.keys) = e.databases.map (·.keys) ∧
        (e.notified ns).Verifies := by
  intro h
  let new := Engine.new { databases := 1 } 1000
  let e := (new.after (.write 0 (.set [1] [10] [7] { ttl := .set (.moment 5000) }))).after
    (.write 0 (.set [2] [10] [7] { ttl := .set (.moment 5000) }))
  have hreaches : new.Reaches (fun _ _ => True) e := .step _ (.step _ .refl trivial) trivial
  have hstep : ∀ d ∈ e.databases, d.InStep .coarse :=
    inStep_of_reaches (.step _ (.step _ .refl id) id)
  have hv : e.Verifies := verifies_iff.mpr fun d hd => (hstep d hd).entries_eq_owed
  have howes := mem_iff_owes_keysAt hstep (by decide +kernel :
    (e.databases[0]?).map (·.index.entries) = some [⟨5000, [1], none⟩, ⟨5000, [2], none⟩])
  obtain ⟨d, hd, hbroken⟩ := exists_ne_owed_of_collides (r := ⟨0, [1], 0, [2]⟩) hstep
    ⟨by decide, 5000, none, (howes _).mp (by decide), (howes _).mp (by decide)⟩
  have hlost := (h _ _ e [.renameFrom 0 [1], .renameTo 0 [2]] hreaches hv (by decide +kernel)).2
  exact hbroken (verifies_iff.mp hlost d hd)

end Engine
end ExpiringHash
