import ExpiringHash.Proofs.Database.Endings
import ExpiringHash.Proofs.Engine.Visibility
import ExpiringHash.Proofs.Replication.Replay

/-!
# Cursor walks

A walk scans a container page by page: from the start on, and then from each cursor that a page gives
for the next, while anything else is asked of the engine in between. A page takes all fields between
its cursor and the next whatever the container has become, so the pages of a walk share the positions
out among them: none is visited twice, and a walk to the end leaves none out. A call that asks for more
fields than there can be room for gives no page, and the walk ends there without having come to its
end.
-/
namespace ExpiringHash

open Fields

variable {db : Nat} {key : Bytes} {pattern : Option Glob} {cursor : UInt64}

/-- One call of a walk: the engine that is asked, the cursor passed in, and the answer. -/
structure Visit where
  engine : Engine
  cursor : UInt64
  next : UInt64
  found : List (Bytes × Bytes)

namespace Visit

/-- The fields of a key at the time of the call. -/
def fieldsAt (v : Visit) (db : Nat) (key : Bytes) : Fields := (v.engine.keysAt db).fieldsAt key

/-- The live record of a field at the time of the call. -/
def live? (v : Visit) (db : Nat) (key field : Bytes) : Option Record :=
  (v.fieldsAt db key).live? field v.engine.now

/-- The names of the fields that the call returns. -/
def names (v : Visit) : List Bytes := v.found.map (·.1)

end Visit

/-- A walk over the fields of a key that starts at a cursor, with anything asked of the engine before
each of its calls. -/
inductive Walk (db : Nat) (key : Bytes) (pattern : Option Glob) :
    Engine → UInt64 → List Visit → Prop
  | last {e f g : Engine} {cursor next : UInt64} {found : List (Bytes × Bytes)} (count : Nat)
      (h : e.Reaches (fun _ _ => True) f)
      (hrun : (Request.read db (.scan key cursor pattern count)).perform.run f = .ok (next, found) g) :
      Walk db key pattern e cursor [⟨f, cursor, next, found⟩]
  | more {e f g : Engine} {cursor next : UInt64} {found : List (Bytes × Bytes)}
      {visits : List Visit} (count : Nat) (h : e.Reaches (fun _ _ => True) f)
      (hrun : (Request.read db (.scan key cursor pattern count)).perform.run f = .ok (next, found) g)
      (hnext : next ≠ 0) (hrest : Walk db key pattern g next visits) :
      Walk db key pattern e cursor (⟨f, cursor, next, found⟩ :: visits)

namespace Engine

variable {e g : Engine} {d : Database} {next : UInt64} {found : List (Bytes × Bytes)} {count : Nat}

theorem perform_scan (db : Nat) (key : Bytes) (cursor : UInt64) (pattern : Option Glob) (count : Nat) :
    (Request.read db (.scan key cursor pattern count)).perform =
      onDatabase db fun s => s.scan key cursor pattern count := rfl

/-- A scan of a key that holds no value of another type gives a page, or it breaks off for want of room
and changes nothing. -/
theorem scan_cases (ht : d.keys.Tidy) (ho : d.keys.Open key) (hd : e.databases[db]? = some d)
    (cursor : UInt64) (pattern : Option Glob) (count : Nat) :
    (∃ next found g, (Request.read db (.scan key cursor pattern count)).perform.run e =
        .ok (next, found) g ∧ Page (d.keys.fieldsAt key) e.now pattern cursor next found) ∨
    (2 ^ 60 ≤ count ∧
      (Request.read db (.scan key cursor pattern count)).perform.run e = .error .noRoom e) := by
  rw [perform_scan]
  obtain ⟨next, found, w, hrun, -, hpage⟩ | ⟨hc, hrun⟩ :=
    ExpiringHash.scan_cases (w := { database := d }) (e.scope db) ht ho cursor pattern count
  · refine .inl ⟨next, found, e.absorb db w, ?_, hpage⟩
    exact run_onDatabase_of_run (.ok (next, found)) hd hrun
  · refine .inr ⟨hc, ?_⟩
    exact run_onDatabase_of_still (.error .noRoom) hd hrun

/-- A scan of a container that asks for more room than there can be breaks off and changes nothing. -/
theorem scan_noRoom {c : Container} (hd : e.databases[db]? = some d)
    (hk : d.keys.get? key = some (.container c)) (hc : 2 ^ 60 ≤ count) (cursor : UInt64)
    (pattern : Option Glob) :
    (Request.read db (.scan key cursor pattern count)).perform.run e = .error .noRoom e := by
  have hrun := run_scan_noRoom (w := { database := d }) (e.scope db) cursor pattern hc hk
  rw [perform_scan]
  exact run_onDatabase_of_still (.error .noRoom) hd hrun

/-- What a scan answers is a page of the fields there are. -/
theorem page_of_run (ht : ∀ d ∈ e.databases, d.keys.Tidy)
    (hrun : (Request.read db (.scan key cursor pattern count)).perform.run e = .ok (next, found) g) :
    Page ((e.keysAt db).fieldsAt key) e.now pattern cursor next found := by
  cases hd : e.databases[db]? with
  | none =>
    rw [perform_scan, run_onDatabase, hd] at hrun
    cases hrun
  | some d =>
    have htidy := ht d (List.mem_of_getElem? hd)
    rw [keysAt_of_getElem? hd]
    by_cases ho : d.keys.Open key
    · obtain ⟨next', found', g', hrun', hpage⟩ | ⟨-, hrun'⟩ :=
        scan_cases htidy ho hd cursor pattern count
      · cases hrun'.symm.trans hrun
        exact hpage
      · cases hrun'.symm.trans hrun
    · have hscan := mistypes_read (e.scope db) (.scan key cursor pattern count)
      rw [Request.perform, run_onDatabase, hd] at hrun
      dsimp only at hrun
      rw [hscan { database := d } htidy ho] at hrun
      cases hrun

theorem Reaches.trans {kind : ∀ α : Type, Request α → Prop} {f : Engine} (h : e.Reaches kind f)
    (h' : f.Reaches kind g) : e.Reaches kind g := by
  induction h' with
  | refl => exact h
  | step r _ hr ih => exact .step r ih hr

end Engine

/-- The calls of a walk give pages, each from where the one before ends. -/
inductive Pages (db : Nat) (key : Bytes) (pattern : Option Glob) : UInt64 → List Visit → Prop
  | last {v : Visit} (h : Page (v.fieldsAt db key) v.engine.now pattern v.cursor v.next v.found) :
      Pages db key pattern v.cursor [v]
  | more {v : Visit} {visits : List Visit}
      (h : Page (v.fieldsAt db key) v.engine.now pattern v.cursor v.next v.found)
      (hnext : v.next ≠ 0) (hrest : Pages db key pattern v.next visits) :
      Pages db key pattern v.cursor (v :: visits)

theorem Walk.pages {config : Config} {now : UInt64} {e : Engine} {visits : List Visit}
    (h : (Engine.new config now).Reaches (fun _ _ => True) e)
    (hw : Walk db key pattern e cursor visits) : Pages db key pattern cursor visits := by
  induction hw with
  | @last e f g cursor next found count hreach hrun =>
    exact .last (v := ⟨f, cursor, next, found⟩)
      (Engine.page_of_run (Engine.tidy_of_reaches (h.trans hreach)) hrun)
  | @more e f g cursor next found visits count hreach hrun hnext _ ih =>
    have hf := h.trans hreach
    have hafter : f.after (.read db (.scan key cursor pattern count)) = g := by
      rw [Engine.after, hrun]
    exact .more (v := ⟨f, cursor, next, found⟩)
      (Engine.page_of_run (Engine.tidy_of_reaches hf) hrun) hnext
      (ih (hafter ▸ .step _ hf trivial))

/-- The last call has found the end. -/
def Finished (visits : List Visit) : Prop := visits.getLast?.map (·.next) = some 0

theorem finished_singleton {v : Visit} : Finished [v] ↔ v.next = 0 := Option.some_inj

namespace Pages

variable {v : Visit} {visits : List Visit} {field : Bytes} {names : List Bytes}

theorem page (h : Pages db key pattern cursor visits) (hv : v ∈ visits) :
    Page (v.fieldsAt db key) v.engine.now pattern v.cursor v.next v.found := by
  induction h with
  | last h => exact List.mem_singleton.mp hv ▸ h
  | more h _ _ ih =>
    rcases List.mem_cons.mp hv with rfl | hv
    · exact h
    · exact ih hv

theorem finished_cons (h : Pages db key pattern cursor visits) (v : Visit) :
    Finished (v :: visits) ↔ Finished visits := by
  cases visits with
  | nil => cases h
  | cons v' visits => rw [Finished, List.getLast?_cons_cons, Finished]

/-- No call returns fields from before the start of the walk. -/
theorem le_position (h : Pages db key pattern cursor visits) (hf : field ∈ visits.flatMap Visit.names) :
    cursor ≤ position field := by
  induction h with
  | last hpage =>
    rw [List.flatMap_singleton] at hf
    exact (hpage.between hf).1
  | more hpage hnext _ ih =>
    rw [List.flatMap_cons, List.mem_append] at hf
    rcases hf with hf | hf
    · exact (hpage.between hf).1
    · exact UInt64.le_of_lt (UInt64.lt_of_lt_of_le (hpage.lt hnext) (ih hf))

theorem nodup (h : Pages db key pattern cursor visits) : (visits.flatMap Visit.names).Nodup := by
  induction h with
  | last hpage =>
    rw [List.flatMap_singleton]
    exact hpage.nodup
  | @more v visits hpage hnext hrest ih =>
    rw [List.flatMap_cons]
    refine List.nodup_append.mpr ⟨hpage.nodup, ih, fun field hf other ho he => ?_⟩
    subst he
    -- a field of this page lies before the next one, and the others do not
    have hlt : position field < v.next := (hpage.between hf).2.resolve_left hnext
    exact UInt64.lt_irrefl _ (UInt64.lt_of_lt_of_le hlt (hrest.le_position ho))

/-- A walk to the end returns every field from its start on that matches and stays live. -/
theorem complete (h : Pages db key pattern cursor visits) (hend : Finished visits)
    (hmatch : pattern.all (·.isMatch field) = true) (hle : cursor ≤ position field)
    (hlive : ∀ v ∈ visits, (v.live? db key field).isSome = true) :
    ∃ v ∈ visits, ∃ r, v.live? db key field = some r ∧ (field, r.value) ∈ v.found := by
  induction h with
  | @last v hpage =>
    obtain ⟨r, hr⟩ := Option.isSome_iff_exists.mp (hlive v List.mem_cons_self)
    exact ⟨v, List.mem_cons_self, r, hr, hpage.mem_found.mpr
      ⟨hmatch, ⟨r, hr, rfl⟩, hle, .inl (finished_singleton.mp hend)⟩⟩
  | @more v visits hpage hnext hrest ih =>
    by_cases hlt : position field < v.next
    · obtain ⟨r, hr⟩ := Option.isSome_iff_exists.mp (hlive v List.mem_cons_self)
      exact ⟨v, List.mem_cons_self, r, hr,
        hpage.mem_found.mpr ⟨hmatch, ⟨r, hr, rfl⟩, hle, .inr hlt⟩⟩
    · obtain ⟨v', hv', hfound⟩ := ih ((hrest.finished_cons v).mp hend) (UInt64.not_lt.mp hlt)
        fun v' hv' => hlive v' (List.mem_cons_of_mem v hv')
      exact ⟨v', List.mem_cons_of_mem v hv', hfound⟩

/-- Each call that does not find the end uses up a field, and there is one where the next starts. -/
theorem length_le (h : Pages db key pattern cursor visits)
    (hnames : ∀ v ∈ visits, ∀ field, ((v.fieldsAt db key).get? field).isSome = true → field ∈ names) :
    visits.length ≤ max 1 (names.countP (cursor ≤ position ·)) ∧
      (¬Finished visits → visits.length < names.countP (cursor ≤ position ·)) := by
  induction h with
  | @last v hpage =>
    refine ⟨Nat.le_max_left .., fun hend => ?_⟩
    have hlt := hpage.countP_lt (fun hzero => hend (finished_singleton.mpr hzero))
      (hnames v List.mem_cons_self)
    rw [List.length_singleton]
    omega
  | @more v visits hpage hnext hrest ih =>
    have hlt := hpage.countP_lt hnext (hnames v List.mem_cons_self)
    have hrec := ih fun v' hv' => hnames v' (List.mem_cons_of_mem v hv')
    rw [List.length_cons, hrest.finished_cons v]
    exact ⟨by omega, fun hend => by have := hrec.2 hend; omega⟩

end Pages

/-- What a walk returns. -/
structure VisitsOnce (db : Nat) (key : Bytes) (pattern : Option Glob) (visits : List Visit) : Prop where
  /-- No field is returned twice. -/
  nodup : (visits.flatMap Visit.names).Nodup
  /-- What a call returns is live, matches, and comes with its value at that time. -/
  live : ∀ v ∈ visits, ∀ field value, (field, value) ∈ v.found →
    pattern.all (·.isMatch field) = true ∧ ∃ r, v.live? db key field = some r ∧ r.value = value
  /-- A field that matches and is live at each call of a walk to the end is returned by one. -/
  complete : Finished visits → ∀ field, pattern.all (·.isMatch field) = true →
    (∀ v ∈ visits, (v.live? db key field).isSome = true) →
      ∃ v ∈ visits, ∃ r, v.live? db key field = some r ∧ (field, r.value) ∈ v.found
  forward : ∀ v ∈ visits, v.next ≠ 0 → v.cursor < v.next
  /-- Where there are never any fields but those of one container, there are at most as many calls as it
  has fields, apart from a first one, and fewer before the end is found. -/
  bounded : ∀ all : Fields, (∀ v ∈ visits, ∀ field,
    ((v.fieldsAt db key).get? field).isSome = true → (all.get? field).isSome = true) →
      visits.length ≤ max 1 all.size ∧ (¬Finished visits → visits.length < all.size)

/-- A walk from the start on, in either role and with anything else going on between its calls, visits
once what is there all the time, and ends. A scan of a key that holds no value of another type always
gives a page if it asks for fewer than 2 ^ 60 fields, for which there can be room; asked for more, the
scan of a container breaks off and changes nothing. -/
theorem scan_visits_once {config : Config} {now : UInt64} {e : Engine} {visits : List Visit}
    (h : (Engine.new config now).Reaches (fun _ _ => True) e)
    (hw : Walk db key pattern e 0 visits) :
    VisitsOnce db key pattern visits ∧
      ∀ d cursor count, e.databases[db]? = some d →
        (d.keys.Open key → count < 2 ^ 60 → ∃ next found f,
          (Request.read db (.scan key cursor pattern count)).perform.run e = .ok (next, found) f) ∧
        ∀ c, d.keys.get? key = some (.container c) → 2 ^ 60 ≤ count →
          (Request.read db (.scan key cursor pattern count)).perform.run e = .error .noRoom e := by
  have hpages := hw.pages h
  refine ⟨⟨hpages.nodup, fun v hv field value hf => ?_, fun hend field hmatch hlive => ?_,
    fun v hv => (hpages.page hv).lt, fun all hall => ?_⟩, fun d cursor count hd =>
    ⟨fun ho hc => ?_, fun c hk hc => Engine.scan_noRoom hd hk hc cursor pattern⟩⟩
  · obtain ⟨hmatch, hlive, -⟩ := (hpages.page hv).mem_found.mp hf
    exact ⟨hmatch, hlive⟩
  · exact hpages.complete hend hmatch UInt64.zero_le hlive
  · have hnames {field : Bytes} (h : (all.get? field).isSome = true) :
        field ∈ all.records.toList.map (·.1) := by
      obtain ⟨r, hr⟩ := Option.isSome_iff_exists.mp h
      exact List.mem_map.mpr ⟨(field, r), SortedTable.mem_toList.mpr (SortedTable.mem_of_get? hr), rfl⟩
    have hcount : (all.records.toList.map (·.1)).countP (0 ≤ position ·) = all.size := by
      rw [List.countP_eq_length.mpr fun _ _ => decide_eq_true UInt64.zero_le, List.length_map]
      rfl
    have hle := hpages.length_le fun v hv field h => hnames (hall v hv field h)
    rwa [hcount] at hle
  · have ht := Engine.tidy_of_reaches h d (List.mem_of_getElem? hd)
    obtain ⟨next, found, f, hrun, -⟩ | ⟨hle, -⟩ :=
      Engine.scan_cases ht ho hd cursor pattern count
    · exact ⟨next, found, f, hrun⟩
    · exact absurd hc (Nat.not_lt.mpr hle)

/-- Between the two pages of a walk a field is written before the cursor, and one on the next page gets
another value. -/
theorem scan_visits_once_between :
    let e := ((Engine.new {} 1000).after (.write 0 (.set [1] [5] [50] {}))).after
      (.write 0 (.set [1] [3] [51] {}))
    let scanned := e.after (.read 0 (.scan [1] 0 none 1))
    let f := (scanned.after (.write 0 (.set [1] [7] [52] {}))).after (.write 0 (.set [1] [3] [53] {}))
    let visits : List Visit :=
      [⟨e, 0, 2568688906359260860, [([5], [50])]⟩, ⟨f, 2568688906359260860, 0, [([3], [53])]⟩]
    Walk 0 [1] none e 0 visits ∧ Finished visits ∧ VisitsOnce 0 [1] none visits := by
  intro e scanned f visits
  have h : (Engine.new {} 1000).Reaches (fun _ _ => True) e :=
    .step _ (.step _ .refl trivial) trivial
  have hf : scanned.Reaches (fun _ _ => True) f := .step _ (.step _ .refl trivial) trivial
  have hfirst : (Request.read 0 (.scan [1] 0 none 1)).perform.run e =
      .ok (2568688906359260860, [([5], [50])]) scanned := by rfl
  have hlast : (Request.read 0 (.scan [1] 2568688906359260860 none 1)).perform.run' f =
      some (0, [([3], [53])]) := by decide +kernel
  have hw : Walk 0 [1] none e 0 visits := by
    delta EStateM.run' at hlast
    split at hlast
    · next hrun =>
      cases hlast
      exact .more 1 .refl hfirst (by decide) (.last 1 hf hrun)
    · cases hlast
  exact ⟨hw, rfl, (scan_visits_once h hw).1⟩

/-- A walk that asks for more room than there can be breaks off at its first call and again at every
other. It never returns the only field, which stays live. -/
theorem scan_breaks_off :
    let e := (Engine.new {} 1000).after (.write 0 (.set [107] [102] [118] {}))
    (Engine.new {} 1000).Reaches (fun _ _ => True) e ∧
      ((e.keysAt 0).fieldsAt [107]).live? [102] e.now = some ⟨[118], 1, 0⟩ ∧
      ∀ cursor, (Request.read 0 (.scan [107] cursor none (2 ^ 64 - 1))).perform.run e =
        .error .noRoom e := by
  intro e
  let d := e.databases[0]?.getD (Database.new .coarse)
  have hd : e.databases[0]? = some d := by rfl
  have hk : d.keys.get? [107] = some (.container ⟨[107], (e.keysAt 0).fieldsAt [107]⟩) := by rfl
  have hc : 2 ^ 60 ≤ 2 ^ 64 - 1 := by decide
  exact ⟨.step _ .refl trivial, by rfl, fun cursor => Engine.scan_noRoom hd hk hc cursor none⟩

end ExpiringHash
