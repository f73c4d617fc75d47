import ExpiringHash.Proofs.Database.Logs
import ExpiringHash.Proofs.Database.Overdue
import ExpiringHash.Proofs.Database.Traces

/-!
# Draining what is overdue

Active expiry looks at the first entry of the index, reclaims the field it stands for, and looks at
the index again, which has moved. What it reclaims are the first records that are overdue, in their
order: each reclaim takes the first one off the list and leaves the rest as it is.
-/
namespace ExpiringHash

open Std DatabaseM

namespace Database

variable {d d' : Database} {key field : Bytes} {now : UInt64}

/-- Records that one is taken out of lose that one from the list of the overdue, its first. -/
theorem overdue_eq_cons {x : Ranked FieldRef} (hx : d.Expires x) (hle : x.rank ≤ now)
    (hmin : ∀ y, d.Expires y → compare x y ≠ .gt) (hd : d'.records = d.records.erase x.item) :
    (d.overdue now).toList = x :: (d'.overdue now).toList := by
  have hself : d'.record? x.item.key x.item.field = none := by
    rw [← get?_records, hd]
    exact SortedTable.get?_erase_self _ _
  have hother {y : Ranked FieldRef} (hne : y.item ≠ x.item) :
      d'.record? y.item.key y.item.field = d.record? y.item.key y.item.field := by
    rw [← get?_records, ← get?_records, hd, SortedTable.get?_erase_of_ne hne]
  have hmem (y : Ranked FieldRef) : y ∈ d'.overdue now ↔ y ∈ d.overdue now ∧ y ≠ x := by
    rw [mem_overdue, mem_overdue]
    by_cases hy : y.item = x.item
    · rw [hy, hself]
      refine iff_of_false (fun ⟨r, hr, _⟩ => nomatch hr) ?_
      rintro ⟨⟨r, hr, he, -⟩, hne⟩
      obtain ⟨-, r', hr', he'⟩ := hx
      rw [record?, hr', Option.some.injEq] at hr
      refine hne ?_
      rw [Ranked.ext_iff, hy, ← he, ← he', hr]
      exact ⟨rfl, rfl⟩
    · rw [hother hy]
      exact (and_iff_left fun he => hy (congrArg Ranked.item he)).symm
  have hlt : ∀ y ∈ d'.overdue now, compare x y = .lt := fun y hy => by
    obtain ⟨hm, hne⟩ := (hmem y).mp hy
    cases hc : compare x y with
    | lt => rfl
    | eq => exact absurd (LawfulEqCmp.eq_of_compare hc).symm hne
    | gt => exact absurd hc (hmin y (mem_overdue_iff_expires.mp hm).1)
  have heq : d.overdue now = ⟨x :: (d'.overdue now).toList,
      List.pairwise_cons.mpr ⟨hlt, (d'.overdue now).sorted⟩⟩ := by
    refine SortedTable.ext_mem fun y => ?_
    change y ∈ d.overdue now ↔ y ∈ x :: (d'.overdue now).toList
    rw [List.mem_cons, SortedTable.mem_toList, hmem]
    by_cases hy : y = x
    · subst hy
      exact iff_of_true (mem_overdue_iff_expires.mpr ⟨hx, hle⟩) (.inl rfl)
    · exact ⟨fun hm => .inr ⟨hm, hy⟩, fun hm => (hm.resolve_left hy).1⟩
  exact congrArg SortedTable.toList heq

theorem all_key_ne_iff :
    (d.records.toList.all (·.1.key ≠ key)) = true ↔ ∀ field, d.record? key field = none := by
  simp only [List.all_eq_true, decide_eq_true_iff]
  constructor
  · intro h field
    refine Option.eq_none_iff_forall_ne_some.mpr fun r hr => ?_
    rw [← get?_records d ⟨key, field⟩] at hr
    exact h _ (SortedTable.mem_of_get? hr) rfl
  · rintro h ⟨ref, r⟩ hm rfl
    have hr := (get?_records d ref).symm.trans (SortedTable.get?_eq_some_iff.mpr hm)
    rw [h] at hr
    cases hr

/-- The reclaims of records one after the other: the last record under a key takes the key along. -/
def reclaims (rows : SortedMap FieldRef Record) : List FieldRef → List Event
  | [] => []
  | ref :: refs =>
    let left := rows.erase ref
    .reclaimed ref.key ref.field .active (left.toList.all (·.1.key ≠ ref.key)) :: reclaims left refs

theorem Happens.records_reclaimed {t : Trigger} {last : Bool}
    (h : d.Happens now (.reclaimed key field t last) d') :
    d'.records = d.records.erase ⟨key, field⟩ ∧
      last = d'.records.toList.all (·.1.key ≠ key) := by
  have hremoval : (Event.reclaimed key field t last).isRemoval = true := by cases t <;> rfl
  obtain ⟨_, r, hf, hr, hnone, -⟩ := h.of_isRemoval hremoval
  cases hf
  constructor
  · refine SortedTable.ext_get? fun ref => ?_
    rw [get?_records]
    by_cases hne : ref = ⟨key, field⟩
    · subst hne
      exact hnone.trans (SortedTable.get?_erase_self _ _).symm
    · rw [SortedTable.get?_erase_of_ne hne, get?_records]
      refine h.record?_of_ne ?_
      by_cases hk : ref.key = key
      · exact .inr fun he => hne (FieldRef.ext_iff.mpr ⟨hk, Option.some.inj he⟩)
      · exact .inl hk
  · cases last with
    | true =>
      have habsent : d'.keys.get? key = none := by
        cases h with
        | emptied => exact get?_deleteKey _ _
      refine (all_key_ne_iff.mpr fun other => ?_).symm
      rw [record?, KeySpace.fieldsAt_of_get?_none habsent]
      rfl
    | false =>
      obtain ⟨c, hc⟩ : ∃ c, d'.keys.get? key = some (.container c) := by
        cases h with
        | reclaimed => exact ⟨_, get?_rewrite_self ..⟩
      have hmore : d'.keys.holdsEmpty key = false := h.settled rfl
      refine (Bool.eq_false_iff.mpr fun hall => ?_).symm
      have he : c.fields.isEmpty = true := Fields.isEmpty_iff_get?.mpr fun field => by
        rw [← KeySpace.fieldsAt_of_get? hc]
        exact all_key_ne_iff.mp hall field
      cases hmore.symm.trans (holdsEmpty_iff.mpr ⟨c, hc, he⟩)

/-- Reclaims take their records out and no others, and touch no other keys. -/
theorem Course.records_reclaims {refs : List FieldRef}
    (h : d.Course now (reclaims d.records refs) d') :
    d'.records = d.records.select (·.1 ∉ refs) ∧
      ∀ key, (∀ ref ∈ refs, ref.key ≠ key) → d'.keys.get? key = d.keys.get? key := by
  induction refs generalizing d with
  | nil =>
    cases h
    refine ⟨SortedTable.ext_mem fun r => ?_, fun _ _ => rfl⟩
    rw [SortedTable.mem_select]
    exact (and_iff_left rfl).symm
  | cons ref refs ih =>
    cases h with
    | @cons _ d₁ _ _ _ hev hrest =>
      obtain ⟨hrecords, -⟩ := hev.records_reclaimed
      rw [← hrecords] at hrest
      obtain ⟨hleft, hkeys⟩ := ih hrest
      constructor
      · refine SortedTable.ext_mem fun r => ?_
        rw [hleft, SortedTable.mem_select, hrecords, SortedTable.mem_erase, SortedTable.mem_select]
        simp [and_assoc]
      · intro key hne
        obtain ⟨hfirst, hothers⟩ := List.forall_mem_cons.mp hne
        exact (hkeys key hothers).trans (hev.get?_of_ne hfirst.symm)

theorem countP_reclaims (rows : SortedMap FieldRef Record) (refs : List FieldRef) :
    (reclaims rows refs).countP (·.isReclaim .active) = refs.length ∧
      (reclaims rows refs).countP (·.isReclaim .passive) = 0 := by
  induction refs generalizing rows with
  | nil => exact ⟨rfl, rfl⟩
  | cons ref refs ih =>
    obtain ⟨ha, hp⟩ := ih (rows.erase ref)
    rw [reclaims, List.countP_cons, List.countP_cons, ha, hp]
    exact ⟨rfl, rfl⟩

/-- The first records that were overdue are gone, and no others. -/
structure Relieved (now : UInt64) (n : Nat) (d d' : Database) : Prop where
  records : d'.records = d.records.select (·.1 ∉ ((d.overdue now).toList.take n).map (·.item))
  overdue : (d'.overdue now).toList = (d.overdue now).toList.drop n

namespace Relieved

variable {n m : Nat} {d'' : Database}

theorem of_overdue_eq_nil (h : (d.overdue now).toList = []) (n : Nat) : Relieved now n d d where
  records := by
    refine SortedTable.ext_mem fun r => ?_
    rw [h, SortedTable.mem_select, List.take_nil]
    exact (and_iff_left rfl).symm
  overdue := by rw [h, List.drop_nil]

theorem refl (now : UInt64) (d : Database) : Relieved now 0 d d where
  records := SortedTable.ext_mem fun r => by
    rw [SortedTable.mem_select, List.take_zero]
    exact (and_iff_left rfl).symm
  overdue := rfl

theorem trans (h : Relieved now n d d') (h' : Relieved now m d' d'') :
    Relieved now (n + m) d d'' where
  records := by
    refine SortedTable.ext_mem fun r => ?_
    rw [h'.records, SortedTable.mem_select, h.records, SortedTable.mem_select,
      SortedTable.mem_select, h.overdue, List.take_add, List.map_append]
    simp [and_assoc]
  overdue := by rw [h'.overdue, h.overdue, List.drop_drop]

/-- A record that has not expired stays. -/
theorem mem_iff_of_not_expired (h : Relieved now n d d') {row : FieldRef × Record}
    (hx : row.2.isExpired now = false) : row ∈ d'.records ↔ row ∈ d.records := by
  rw [h.records, SortedTable.mem_select, and_iff_left_iff_imp]
  intro hm
  refine decide_eq_true fun hv => ?_
  obtain ⟨x, hx', hitem⟩ := List.mem_map.mp hv
  obtain ⟨r, hr, -, hexpired⟩ := mem_overdue.mp (List.mem_of_mem_take hx')
  rw [hitem, ← get?_records, SortedTable.get?_eq_some_iff.mpr hm] at hr
  obtain rfl := Option.some.inj hr
  cases hx.symm.trans hexpired

/-- As many records are gone as were overdue, up to the number. -/
theorem size_add (h : Relieved now n d d') :
    d'.records.size + min n (d.overdue now).size = d.records.size := by
  have hsplit (d : Database) : d.records.size =
      (d.overdue now).size + d.records.toList.countP fun r => !r.2.isExpired now := by
    rw [size_overdue, SortedTable.size, List.length_eq_countP_add_countP fun r => r.2.isExpired now]
    simp only [Bool.not_eq_true, Bool.decide_eq_false]
  have hkept : (d'.records.toList.countP fun r => !r.2.isExpired now) =
      d.records.toList.countP fun r => !r.2.isExpired now := by
    have hselect : d'.records.select (fun r => !r.2.isExpired now) =
        d.records.select fun r => !r.2.isExpired now := SortedTable.ext_mem fun row => by
      rw [SortedTable.mem_select, SortedTable.mem_select]
      exact and_congr_left fun hx => h.mem_iff_of_not_expired (Bool.not_eq_true' _ ▸ hx)
    rw [List.countP_eq_length_filter, List.countP_eq_length_filter]
    exact congrArg SortedTable.size hselect
  have hrest : (d'.overdue now).size = (d.overdue now).size - n := by
    rw [SortedTable.size, h.overdue, List.length_drop]
    rfl
  rw [hsplit d, hsplit d', hkept, hrest]
  omega

/-- Nothing that has expired is left if the number covers all that was overdue. -/
theorem not_expired_of_size_le (h : Relieved now n d d') (hn : (d.overdue now).size ≤ n)
    {row : FieldRef × Record} (hrow : row ∈ d'.records) : row.2.isExpired now = false := by
  refine Bool.eq_false_iff.mpr fun hx => ?_
  have hmem : ⟨row.2.expireAt, row.1⟩ ∈ (d'.overdue now).toList :=
    mem_overdue.mpr ⟨row.2, get?_records d' row.1 ▸ SortedTable.get?_eq_some_iff.mpr hrow, rfl, hx⟩
  rw [h.overdue, List.drop_eq_nil_of_le hn] at hmem
  cases hmem

end Relieved

end Database

variable {s : Scope} {w : Work} {l : Layout}

/-- The records that active expiry reclaims are the first that a scan of all records finds overdue,
in their order. -/
theorem logs_drain_overdue (hp : s.isPrimary = true) (h : w.database.InStep l) (budget : Nat) :
    ∃ w', (s.drain budget).run w = .ok (min budget (w.database.overdue s.now).size) w' ∧
      w.Logs s.now (Database.reclaims w.database.records
        (((w.database.overdue s.now).toList.take budget).map (·.item))) w' ∧
      (w'.database.overdue s.now).toList = (w.database.overdue s.now).toList.drop budget ∧
      w'.database.InStep l := by
  induction budget generalizing w with
  | zero =>
    rw [Nat.zero_min]
    exact ⟨w, rfl, .nil _ w, rfl, h⟩
  | succ budget ih =>
    rw [LayoutTwins.run_drain]
    cases he : w.database.index.first? with
    | none =>
      have hnone : (w.database.overdue s.now).toList = [] := h.overdue_eq_nil fun a ha =>
        absurd ha (ExpiryIndex.first?_eq_none_iff.mp he a)
      rw [SortedTable.size, hnone]
      exact ⟨w, rfl, .nil _ w, hnone, h⟩
    | some e =>
      dsimp only
      split
      · next hdue =>
        have hnone : (w.database.overdue s.now).toList = [] := h.overdue_eq_nil fun a ha =>
          UInt64.lt_of_lt_of_le hdue
            (IndexEntry.due_le_of_cmp ((ExpiryIndex.first?_eq_some_iff.mp he).2 a ha))
        rw [SortedTable.size, hnone]
        exact ⟨w, rfl, .nil _ w, hnone, h⟩
      · next hdue =>
        obtain ⟨field, hfield, hexp, hmin⟩ := h.run_fieldOf he s
        have hle : e.due ≤ s.now := UInt64.not_lt.mp hdue
        obtain ⟨r, hr, -, hx⟩ := Database.mem_overdue.mp
          (Database.mem_overdue_iff_expires.mpr ⟨hexp, hle⟩)
        obtain ⟨last, w₁, hrun, hlogs⟩ := logs_reclaim hp h.tidy hr hx .active
        have hkept := Work.keeps_inStep l (Work.traces_reclaim s e.key field .active) w
        rw [hrun] at hkept
        obtain ⟨hrecords, hlast⟩ := hlogs.happens.records_reclaimed
        have hcons := Database.overdue_eq_cons hexp hle hmin hrecords
        have hsize : (w.database.overdue s.now).size = (w₁.database.overdue s.now).size + 1 :=
          congrArg List.length hcons
        obtain ⟨w₂, hrun', hlogs', hrest, hstep⟩ := ih (w := w₁) (hkept h)
        refine ⟨w₂, ?_, ?_, ?_, hstep⟩
        · rw [EStateM.run_bind, hfield]
          dsimp only
          rw [LayoutTwins.drainAt, EStateM.run_bind, hrun]
          dsimp only
          rw [EStateM.run_bind, hrun', hsize, Nat.add_min_add_right]
          rfl
        · rw [hcons, List.take_succ_cons, List.map_cons, Database.reclaims, ← hrecords, ← hlast]
          exact hlogs.append hlogs'
        · rw [hcons, List.drop_succ_cons]
          exact hrest

end ExpiringHash
