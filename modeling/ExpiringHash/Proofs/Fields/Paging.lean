import ExpiringHash.Fields.Scan
import ExpiringHash.Proofs.Fields.Live
import Mathlib.Algebra.GroupWithZero.Nat
import Mathlib.Data.List.TakeDrop

/-!
# Pages of a scan

A page holds the fields that stand from its cursor on and before the cursor of the next page, or to
the end if there is none. So pages that follow one another share the positions out among them,
whatever the fields are when each of them is taken. Only a scan that asks for more room than there
can be has no page.
-/
namespace ExpiringHash

/-- Dropping what holds of a first part of a list only leaves what it does not hold of. -/
theorem dropWhile_eq_filter {α : Type} {p : α → Bool} {l : List α}
    (h : l.Pairwise fun a b => p b = true → p a = true) : l.dropWhile p = l.filter (!p ·) := by
  induction l with
  | nil => rfl
  | cons a l ih =>
    obtain ⟨ha, hl⟩ := List.pairwise_cons.mp h
    by_cases hp : p a = true
    · rw [List.dropWhile_cons_of_pos hp, ih hl, List.filter_cons_of_neg (by simp [hp])]
    · rw [List.dropWhile_cons_of_neg hp, List.filter_cons_of_pos (by simp [hp])]
      refine congrArg (a :: ·) (List.filter_eq_self.mpr fun b hb => ?_).symm
      exact (Bool.not_eq_true' _).mpr (Bool.eq_false_iff.mpr fun hpb => hp (ha b hb hpb))

namespace Fields

variable {f : Fields} {cursor now : UInt64} {count : Nat} {pattern : Option Glob} {field : Bytes}

section Cut

variable {ahead : List (Ranked Bytes)}

theorem append_cutPage (count : Nat) (ahead : List (Ranked Bytes)) :
    (cutPage count ahead).1 ++ (cutPage count ahead).2 = ahead := by
  unfold cutPage
  rw [List.splitAt_eq]
  dsimp only
  split
  · exact List.take_append_drop count ahead
  · rw [List.span_eq_takeWhile_dropWhile]
    dsimp only
    rw [List.append_assoc, List.takeWhile_append_dropWhile, List.take_append_drop]

/-- A page takes something as long as there is anything left. -/
theorem cutPage_ne_nil (hc : 0 < count) (h : ahead ≠ []) : (cutPage count ahead).1 ≠ [] := by
  have htake : ahead.take count ≠ [] := by
    rw [ne_eq, List.take_eq_nil_iff, not_or]
    exact ⟨Nat.pos_iff_ne_zero.mp hc, h⟩
  unfold cutPage
  rw [List.splitAt_eq]
  dsimp only
  split
  · next hlast => exact absurd (List.getLast?_eq_none_iff.mp hlast) htake
  · exact List.append_ne_nil_of_left_ne_nil htake _

/-- A page ends between two positions. -/
theorem rank_lt_of_cutPage (hs : ahead.Pairwise fun a b => a.rank ≤ b.rank)
    {a b : Ranked Bytes} (ha : a ∈ (cutPage count ahead).1) (hb : b ∈ (cutPage count ahead).2) :
    a.rank < b.rank := by
  obtain ⟨hpage, hrest, hacross⟩ := List.pairwise_append.mp ((List.take_append_drop count ahead) ▸ hs)
  unfold cutPage at ha hb
  rw [List.splitAt_eq] at ha hb
  dsimp only at ha hb
  split at ha
  · next hlast =>
    rw [List.getLast?_eq_none_iff.mp hlast] at ha
    cases ha
  · next last hlast =>
    simp only [hlast, List.span_eq_takeWhile_dropWhile] at ha hb
    have hmem : last ∈ ahead.take count := List.mem_of_getLast? hlast
    have hle : a.rank ≤ last.rank := by
      rcases List.mem_append.mp ha with ha | ha
      · obtain ⟨front, hfront⟩ := List.getLast?_eq_some_iff.mp hlast
        rw [hfront, List.mem_append, List.mem_singleton] at ha
        rcases ha with ha | rfl
        · rw [hfront] at hpage
          exact (List.pairwise_append.mp hpage).2.2 a ha last (List.mem_singleton.mpr rfl)
        · exact UInt64.le_refl _
      · have hp := List.all_eq_true.mp (List.all_takeWhile (p := fun e => e.rank == last.rank)) a ha
        exact UInt64.le_of_eq (eq_of_beq hp)
    -- what follows the last position of the page and is not on it lies behind it
    have hfilter : (ahead.drop count).dropWhile (fun e => e.rank == last.rank) =
        (ahead.drop count).filter fun e => !(e.rank == last.rank) := by
      refine dropWhile_eq_filter (hrest.imp_of_mem fun {x y} hx hy hxy he => ?_)
      have hlx := hacross last hmem x hx
      rw [eq_of_beq he] at hxy
      exact beq_iff_eq.mpr (UInt64.le_antisymm hxy hlx)
    rw [hfilter, List.mem_filter] at hb
    have hlast_le := hacross last hmem b hb.1
    have hne : b.rank ≠ last.rank := by simpa using hb.2
    exact UInt64.lt_of_le_of_lt hle (UInt64.lt_of_le_of_ne hlast_le fun he => hne he.symm)

/-- Either nothing is left behind a page, or what is left starts at an entry that parts it from the
page. -/
theorem cutPage_cases (hc : 0 < count) (hs : ahead.Pairwise fun a b => a.rank ≤ b.rank) :
    ((cutPage count ahead).2.head? = none ∧ (cutPage count ahead).1 = ahead) ∨
      ∃ next ∈ ahead, (cutPage count ahead).2.head? = some next ∧
        (∃ e ∈ (cutPage count ahead).1, e.rank < next.rank) ∧
        ∀ e ∈ ahead, e ∈ (cutPage count ahead).1 ↔ e.rank < next.rank := by
  have happend := append_cutPage count ahead
  have hlt {a b : Ranked Bytes} (ha : a ∈ (cutPage count ahead).1) (hb : b ∈ (cutPage count ahead).2) :
      a.rank < b.rank := rank_lt_of_cutPage hs ha hb
  have hne : ahead ≠ [] → (cutPage count ahead).1 ≠ [] := cutPage_ne_nil hc
  revert happend hlt hne
  generalize (cutPage count ahead).1 = page
  generalize (cutPage count ahead).2 = rest
  intro happend hlt hne
  cases rest with
  | nil => exact .inl ⟨rfl, (List.append_nil page) ▸ happend⟩
  | cons next rest =>
    subst happend
    have hbehind := (List.pairwise_append.mp hs).2.1
    obtain ⟨e, he⟩ := List.exists_mem_of_ne_nil page
      (hne (List.append_ne_nil_of_right_ne_nil _ (List.cons_ne_nil next rest)))
    refine .inr ⟨next, List.mem_append_right _ List.mem_cons_self, rfl,
      ⟨e, he, hlt he List.mem_cons_self⟩, fun a ha => ⟨(hlt · List.mem_cons_self), fun hrank => ?_⟩⟩
    refine (List.mem_append.mp ha).resolve_right fun hin => ?_
    have hle : next.rank ≤ a.rank := by
      rcases List.mem_cons.mp hin with rfl | hin
      · exact UInt64.le_refl _
      · exact (List.pairwise_cons.mp hbehind).1 a hin
    exact UInt64.lt_irrefl _ (UInt64.lt_of_le_of_lt hle hrank)

end Cut

theorem maxRoom_lt_iff : maxRoom < count ↔ 2 ^ 60 ≤ count := by
  have hroom : maxRoom + 1 = 2 ^ 60 := by decide
  rw [← hroom, Nat.lt_iff_add_one_le]

theorem scan_of_room (h : count < 2 ^ 60) (f : Fields) (cursor : UInt64) (pattern : Option Glob)
    (now : UInt64) : f.scan cursor count pattern now = .ok (f.page cursor count pattern now) :=
  if_neg fun hlt => Nat.not_lt.mpr (maxRoom_lt_iff.mp hlt) h

theorem scan_of_no_room (h : 2 ^ 60 ≤ count) (f : Fields) (cursor : UInt64) (pattern : Option Glob)
    (now : UInt64) : f.scan cursor count pattern now = .error .noRoom :=
  if_pos (maxRoom_lt_iff.mpr h)

/-- The entries that a page visits. -/
def pageEntries (f : Fields) (cursor : UInt64) (count : Nat) : List (Ranked Bytes) :=
  (cutPage (max count 1) (f.positions.toList.dropWhile (·.rank < cursor))).1

theorem pairwise_positions (f : Fields) :
    f.positions.toList.Pairwise fun a b => a.rank ≤ b.rank :=
  f.positions.sorted.imp fun {a b} hlt => by
    have hlt : compare a b = .lt := hlt
    exact Ranked.rank_le_of_compare_ne_gt (by rw [hlt]; decide)

/-- A page and those after it have the entries from the cursor on to visit. -/
theorem mem_ahead {e : Ranked Bytes} :
    e ∈ f.positions.toList.dropWhile (·.rank < cursor) ↔ e ∈ f.positions ∧ cursor ≤ e.rank := by
  have hfilter := dropWhile_eq_filter (p := fun e : Ranked Bytes => decide (e.rank < cursor))
    (f.pairwise_positions.imp fun hle hlt =>
      decide_eq_true (UInt64.lt_of_le_of_lt hle (of_decide_eq_true hlt)))
  rw [hfilter, List.mem_filter, Bool.not_eq_true', decide_eq_false_iff_not, UInt64.not_lt,
    SortedTable.mem_toList]

/-- Either a page visits all that is ahead, or the next page starts at the entry where this one
ends. -/
theorem cutPage_ahead (f : Fields) (cursor : UInt64) (count : Nat) (pattern : Option Glob)
    (now : UInt64) :
    ((f.page cursor count pattern now).cursor = 0 ∧
        ∀ e, e ∈ f.pageEntries cursor count ↔ e ∈ f.positions ∧ cursor ≤ e.rank) ∨
      ∃ next ∈ f.positions, (f.page cursor count pattern now).cursor = next.rank ∧
        (∃ e ∈ f.positions, cursor ≤ e.rank ∧ e.rank < next.rank) ∧
        ∀ e, e ∈ f.pageEntries cursor count ↔
          e ∈ f.positions ∧ cursor ≤ e.rank ∧ e.rank < next.rank := by
  have hc : 0 < max count 1 := Nat.lt_of_lt_of_le Nat.zero_lt_one (Nat.le_max_right ..)
  have hs : (f.positions.toList.dropWhile (·.rank < cursor)).Pairwise fun a b => a.rank ≤ b.rank :=
    f.pairwise_positions.sublist (List.dropWhile_sublist _)
  have hcursor : (f.page cursor count pattern now).cursor =
      ((cutPage (max count 1) (f.positions.toList.dropWhile (·.rank < cursor))).2.head?.map
        (·.rank)).getD 0 := rfl
  rw [hcursor]
  rcases cutPage_cases hc hs with ⟨hnone, hall⟩ | ⟨next, hnext, hsome, ⟨e, he, hlt⟩, hiff⟩
  · refine .inl ⟨by rw [hnone]; rfl, fun e => ?_⟩
    rw [pageEntries, hall, mem_ahead]
  · have hahead {a : Ranked Bytes} (ha : a ∈ f.pageEntries cursor count) :
        a ∈ f.positions ∧ cursor ≤ a.rank := by
      refine mem_ahead.mp ?_
      rw [← append_cutPage (max count 1) (f.positions.toList.dropWhile (·.rank < cursor))]
      exact List.mem_append_left _ ha
    refine .inr ⟨next, (mem_ahead.mp hnext).1, by rw [hsome]; rfl,
      ⟨e, (hahead he).1, (hahead he).2, hlt⟩, fun a => ⟨fun ha => ?_, fun ⟨ha, hle, hrank⟩ => ?_⟩⟩
    · exact ⟨(hahead ha).1, (hahead ha).2, (hiff a (mem_ahead.mpr (hahead ha))).mp ha⟩
    · exact (hiff a (mem_ahead.mpr ⟨ha, hle⟩)).mpr hrank

/-- A page visits the entries from its cursor on to the cursor of the next page, or to the end if
there is none. -/
theorem mem_pageEntries (f : Fields) (cursor : UInt64) (count : Nat) (pattern : Option Glob)
    (now : UInt64) {e : Ranked Bytes} :
    e ∈ f.pageEntries cursor count ↔ e ∈ f.positions ∧ cursor ≤ e.rank ∧
      ((f.page cursor count pattern now).cursor = 0 ∨
        e.rank < (f.page cursor count pattern now).cursor) := by
  rcases f.cutPage_ahead cursor count pattern now with ⟨hzero, hall⟩ | ⟨next, -, hnext, hlt, hiff⟩
  · rw [hall, hzero]
    simp
  · have hne : next.rank ≠ 0 := by
      obtain ⟨e, -, -, hlt⟩ := hlt
      exact UInt64.pos_iff_ne_zero.mp (UInt64.lt_of_le_of_lt UInt64.zero_le hlt)
    rw [hiff, hnext]
    simp [hne]

/-- Where there is a next page, it starts at an entry, and behind one that this page visits. -/
theorem cursor_of_ne_zero (h : (f.page cursor count pattern now).cursor ≠ 0) :
    (∃ next ∈ f.positions, next.rank = (f.page cursor count pattern now).cursor) ∧
      ∃ e ∈ f.positions, cursor ≤ e.rank ∧ e.rank < (f.page cursor count pattern now).cursor := by
  rcases f.cutPage_ahead cursor count pattern now with ⟨hzero, -⟩ | ⟨next, hmem, hnext, hlt, -⟩
  · exact absurd hzero h
  · rw [hnext]
    exact ⟨⟨next, hmem, rfl⟩, hlt⟩

/-- The fields that a page finds in a state. -/
def found (f : Fields) (cursor : UInt64) (count : Nat) (pattern : Option Glob)
    (state : Record → Bool) : List Bytes :=
  (((f.pageEntries cursor count).map (·.item)).filter fun field =>
    pattern.all (·.isMatch field)).filter fun field => (f.get? field).any state

theorem fields_page (f : Fields) (cursor : UInt64) (count : Nat) (pattern : Option Glob)
    (now : UInt64) :
    (f.page cursor count pattern now).fields =
      f.found cursor count pattern fun r => !r.isExpired now := rfl

theorem expired_page (f : Fields) (cursor : UInt64) (count : Nat) (pattern : Option Glob)
    (now : UInt64) :
    (f.page cursor count pattern now).expired =
      f.found cursor count pattern fun r => r.isExpired now := rfl

namespace Consistent

/-- A page finds the fields between the cursors that match and are in the state asked for. -/
theorem mem_found (hf : f.Consistent) (now : UInt64) {state : Record → Bool} :
    field ∈ f.found cursor count pattern state ↔
      (pattern.all (·.isMatch field)) = true ∧ (∃ r, f.get? field = some r ∧ state r = true) ∧
        cursor ≤ position field ∧ ((f.page cursor count pattern now).cursor = 0 ∨
          position field < (f.page cursor count pattern now).cursor) := by
  have hmem : field ∈ (f.pageEntries cursor count).map (·.item) ↔
      (f.get? field).isSome = true ∧ cursor ≤ position field ∧
        ((f.page cursor count pattern now).cursor = 0 ∨
          position field < (f.page cursor count pattern now).cursor) := by
    rw [List.mem_map]
    constructor
    · rintro ⟨e, he, rfl⟩
      obtain ⟨hpos, hlow, hhigh⟩ := (f.mem_pageEntries cursor count pattern now).mp he
      obtain ⟨hrank, hsome⟩ := (hf.positions e).mp hpos
      rw [← hrank]
      exact ⟨hsome, hlow, hhigh⟩
    · rintro ⟨hsome, hbetween⟩
      refine ⟨⟨position field, field⟩, ?_, rfl⟩
      exact (f.mem_pageEntries cursor count pattern now).mpr ⟨(hf.positions _).mpr ⟨rfl, hsome⟩,
        hbetween⟩
  rw [found, List.mem_filter, List.mem_filter, hmem, Option.any_eq_true]
  constructor
  · rintro ⟨⟨⟨-, hbetween⟩, hmatch⟩, hstate⟩
    exact ⟨hmatch, hstate, hbetween⟩
  · rintro ⟨hmatch, hstate, hbetween⟩
    obtain ⟨r, hr, hr'⟩ := hstate
    exact ⟨⟨⟨by rw [hr]; rfl, hbetween⟩, hmatch⟩, r, hr, hr'⟩

/-- No field is found twice on one page. -/
theorem nodup_found (hf : f.Consistent) (cursor : UInt64) (count : Nat) (pattern : Option Glob)
    (state : Record → Bool) : (f.found cursor count pattern state).Nodup := by
  have hnodup : (f.positions.toList.map (·.item)).Nodup := by
    refine List.pairwise_map.mpr (f.positions.nodup_toList.imp_of_mem fun {a b} ha hb hne he => hne ?_)
    have hrank : a.rank = b.rank := by
      rw [((hf.positions a).mp ha).1, ((hf.positions b).mp hb).1, he]
    exact congr (congrArg Ranked.mk hrank) he
  have hpage : (f.pageEntries cursor count).Sublist f.positions.toList := by
    have happend := append_cutPage (max count 1) (f.positions.toList.dropWhile (·.rank < cursor))
    refine List.Sublist.trans ?_ (List.dropWhile_sublist (·.rank < cursor))
    rw [← happend]
    exact List.sublist_append_left _ _
  exact ((hnodup.sublist (hpage.map _)).filter _).filter _

/-- Where there is a next page, its cursor is the position of a field and behind that of another. -/
theorem cursor_page (hf : f.Consistent) (h : (f.page cursor count pattern now).cursor ≠ 0) :
    (∃ field, (f.get? field).isSome = true ∧
        position field = (f.page cursor count pattern now).cursor) ∧
      ∃ field, (f.get? field).isSome = true ∧ cursor ≤ position field ∧
        position field < (f.page cursor count pattern now).cursor := by
  obtain ⟨⟨next, hnext, hrank⟩, e, he, hlow, hhigh⟩ := cursor_of_ne_zero h
  obtain ⟨hpos, hsome⟩ := (hf.positions next).mp hnext
  obtain ⟨hpos', hsome'⟩ := (hf.positions e).mp he
  exact ⟨⟨next.item, hsome, hpos ▸ hrank⟩, e.item, hsome', hpos' ▸ hlow, hpos' ▸ hhigh⟩

end Consistent

/-- What a page of a scan shows of the fields of a container. -/
structure Page (f : Fields) (now : UInt64) (pattern : Option Glob) (cursor next : UInt64)
    (found : List (Bytes × Bytes)) : Prop where
  mem_found : ∀ {field value}, (field, value) ∈ found ↔ pattern.all (·.isMatch field) = true ∧
    (∃ r, f.live? field now = some r ∧ r.value = value) ∧ cursor ≤ position field ∧
      (next = 0 ∨ position field < next)
  nodup : (found.map (·.1)).Nodup
  /-- The next page starts at a field, and behind one of this page. -/
  next_ne_zero : next ≠ 0 →
    (∃ field, (f.get? field).isSome = true ∧ position field = next) ∧
      ∃ field, (f.get? field).isSome = true ∧ cursor ≤ position field ∧
        position field < next

namespace Page

variable {next : UInt64} {found : List (Bytes × Bytes)}

theorem of_page (hf : f.Consistent) (cursor : UInt64) (count : Nat) (pattern : Option Glob)
    (now : UInt64) :
    Page f now pattern cursor (f.page cursor count pattern now).cursor
      ((f.page cursor count pattern now).fields.filterMap fun field =>
        (f.get? field).map fun r => (field, r.value)) := by
  have hname {field : Bytes} {x : Bytes × Bytes}
      (h : ((f.get? field).map fun r => (field, r.value)) = some x) :
      ∃ r, f.get? field = some r ∧ (field, r.value) = x := Option.map_eq_some_iff.mp h
  refine ⟨fun {field value} => ?_, ?_, hf.cursor_page⟩
  · rw [List.mem_filterMap, fields_page]
    constructor
    · rintro ⟨name, hm, h⟩
      obtain ⟨r, hr, he⟩ := hname h
      cases he
      obtain ⟨hmatch, ⟨r', hr', hlive⟩, hrange⟩ := (hf.mem_found now).mp hm
      cases hr.symm.trans hr'
      rw [Bool.not_eq_true'] at hlive
      exact ⟨hmatch, ⟨r, live?_eq_some_iff.mpr ⟨hr, hlive⟩, rfl⟩, hrange⟩
    · rintro ⟨hmatch, ⟨r, hr, rfl⟩, hrange⟩
      obtain ⟨hget, hlive⟩ := live?_eq_some_iff.mp hr
      refine ⟨field, (hf.mem_found now).mpr ⟨hmatch, ⟨r, hget, ?_⟩, hrange⟩, by rw [hget]; rfl⟩
      rw [hlive]
      rfl
  · have hnodup := hf.nodup_found cursor count pattern fun r => !r.isExpired now
    refine List.pairwise_map.mpr (List.pairwise_filterMap.mpr (hnodup.imp ?_))
    intro a b hne x hx y hy he
    obtain ⟨r, -, rfl⟩ := hname hx
    obtain ⟨r', -, rfl⟩ := hname hy
    exact hne he

theorem empty (now cursor : UInt64) (pattern : Option Glob) : Page ∅ now pattern cursor 0 [] where
  mem_found := by
    intro field value
    refine iff_of_false List.not_mem_nil ?_
    rintro ⟨-, ⟨r, hr, -⟩, -⟩
    cases hr
  nodup := .nil
  next_ne_zero h := absurd rfl h

/-- What a page shows lies between its cursor and the next. -/
theorem between (h : Page f now pattern cursor next found) (hm : field ∈ found.map (·.1)) :
    cursor ≤ position field ∧ (next = 0 ∨ position field < next) := by
  obtain ⟨x, hx, rfl⟩ := List.mem_map.mp hm
  exact (h.mem_found.mp hx).2.2

theorem lt (h : Page f now pattern cursor next found) (hn : next ≠ 0) : cursor < next := by
  obtain ⟨-, field, -, hle, hlt⟩ := h.next_ne_zero hn
  exact UInt64.lt_of_le_of_lt hle hlt

/-- A next page has fewer fields ahead of it, but one at least. -/
theorem countP_lt {names : List Bytes} (h : Page f now pattern cursor next found) (hn : next ≠ 0)
    (hnames : ∀ field, (f.get? field).isSome = true → field ∈ names) :
    0 < names.countP (next ≤ position ·) ∧
      names.countP (next ≤ position ·) < names.countP (cursor ≤ position ·) := by
  obtain ⟨⟨first, hfirst, hnext⟩, field, hfield, hle, hlt⟩ := h.next_ne_zero hn
  constructor
  · exact List.countP_pos_iff.mpr ⟨first, hnames first hfirst,
      decide_eq_true (UInt64.le_of_eq hnext.symm)⟩
  · have hmono (l : List Bytes) : l.countP (next ≤ position ·) ≤ l.countP (cursor ≤ position ·) :=
      List.countP_mono_left fun _ _ ho =>
        decide_eq_true (UInt64.le_trans (UInt64.le_of_lt (h.lt hn)) (of_decide_eq_true ho))
    -- the field of this page counts from its cursor on, and not from the next
    obtain ⟨before, behind, rfl⟩ := List.append_of_mem (hnames field hfield)
    have hold : decide (cursor ≤ position field) = true := decide_eq_true hle
    have hnew : ¬decide (next ≤ position field) = true := fun ho =>
      UInt64.lt_irrefl _ (UInt64.lt_of_lt_of_le hlt (of_decide_eq_true ho))
    rw [List.countP_append, List.countP_append, List.countP_cons_of_pos (p := (cursor ≤ position ·)) hold,
      List.countP_cons_of_neg (p := (next ≤ position ·)) hnew]
    have hbefore := hmono before
    have hbehind := hmono behind
    omega

end Page

end Fields

end ExpiringHash
