import ExpiringHash.Proofs.Database.Additions
import ExpiringHash.Proofs.Engine.Batches
import ExpiringHash.Proofs.Engine.Elsewhere
import Mathlib.Algebra.Ring.Int.Defs

/-!
# Additions sum up exactly

Additions to a field may come between any requests about other fields and keys, and some of them may be
refused. The number that the field shows is at all times the one that it showed at the start plus the
deltas of the additions that have succeeded, with no rounding and no wrapping around; one that would not
fit is refused and leaves no trace.
-/
namespace ExpiringHash

/-- What is asked for in an addition to an integer. -/
structure Addition where
  delta : Int
  bounds : Bounds Int := {}
  version : VersionPolicy := .next
  ttl : TtlUpdate := .keep

namespace Addition

variable {a : Addition} {key field : Bytes}

def write (a : Addition) (key field : Bytes) : FieldWrite Int :=
  .incrBy key field a.delta a.bounds a.version a.ttl

def request (a : Addition) (db : Nat) (key field : Bytes) : Request Int :=
  .write db (a.write key field)

/-- The options are well-formed in themselves. -/
def WellFormed (a : Addition) : Prop :=
  a.version.isMalformed = false ∧ a.bounds.validate = .ok ()

/-- The options are well-formed, and the version of the live record passes the check. -/
def Passes (a : Addition) (current : Option Record) : Prop :=
  a.WellFormed ∧ a.version.check (current.map (·.version)) = .ok ()

/-- A sum fits a signed word of 64 bits and is within the bounds. -/
def fits (a : Addition) (sum : Int) : Bool := Numeral.fitsInt64 sum && a.bounds.holds sum

theorem validate_eq_ok_iff : (a.write key field).validate = .ok () ↔ a.WellFormed := by
  constructor
  · intro h
    obtain ⟨_, hversion, hbounds⟩ := ok_of_bind h
    exact ⟨VersionPolicy.isMalformed_of_validate hversion, hbounds⟩
  · rintro ⟨hversion, hbounds⟩
    rw [write, FieldWrite.validate, VersionPolicy.validate_of_wellFormed hversion, hbounds]
    rfl

end Addition

namespace Engine

variable {e f : Engine} {db : Nat} {key field : Bytes} {m s : Int} {a : Addition} {deltas : List Int}

/-- The number that a field shows: the one that its live text spells, 0 if there is none. -/
def number? (e : Engine) (db : Nat) (key field : Bytes) : Option Int :=
  Fields.number? (e.live? db key field)

/-- What an addition to a field that shows a number comes to. -/
structure Adds (e : Engine) (db : Nat) (key field : Bytes) (m : Int) (a : Addition) : Prop where
  /-- If it succeeds, it answers, stores and tells the exact sum, which fits. -/
  succeeded : ∀ {sum}, e.result? (a.request db key field) = some sum →
    sum = m + a.delta ∧ a.fits sum = true ∧ ∃ version expiry cs,
      (e.after (a.request db key field)).record? db key field =
          some ⟨Numeral.ofInt sum, version, expiry⟩ ∧
        e.told (a.request db key field) =
          cs ++ [(db, .set key field (Numeral.ofInt sum) version expiry)] ∧
        ∀ c ∈ cs, c.2.isVersioned = false
  /-- If nothing else stands against it, it is refused exactly where the sum does not fit. -/
  overflows : e.Opens db key → a.Passes (e.live? db key field) →
    ((∃ e', (a.request db key field).perform.run e = .error .overflow e') ↔
      a.fits (m + a.delta) = false)
  /-- If nothing stands against it, it succeeds. -/
  succeeds : e.Opens db key → a.Passes (e.live? db key field) → a.fits (m + a.delta) = true →
    e.result? (a.request db key field) = some (m + a.delta)
  /-- If it fails, what is live of the field is as it was, and no record is told of. -/
  failed : e.result? (a.request db key field) = none →
    (e.after (a.request db key field)).live? db key field = e.live? db key field ∧
      ∀ c ∈ e.told (a.request db key field), c.2.isVersioned = false
  opens : (e.after (a.request db key field)).Opens db key ↔ e.Opens db key

/-- Additions to a field between requests about other fields and keys, during which the field does not
expire: the deltas of those that have succeeded so far. -/
inductive Summing (db : Nat) (key field : Bytes) (e : Engine) : List Int → Engine → Prop
  | start : Summing db key field e [] e
  /-- The sum is stored with no expiry that has passed already. -/
  | added {deltas : List Int} {f : Engine} {sum : Int} (a : Addition)
      (h : Summing db key field e deltas f) (hsum : f.result? (a.request db key field) = some sum)
      (hlive : ((f.after (a.request db key field)).live? db key field).isSome = true) :
      Summing db key field e (deltas ++ [a.delta]) (f.after (a.request db key field))
  | refused {deltas : List Int} {f : Engine} (a : Addition) (h : Summing db key field e deltas f)
      (hnone : f.result? (a.request db key field) = none) :
      Summing db key field e deltas (f.after (a.request db key field))
  /-- The clock takes the record of the field neither to its expiry nor back. -/
  | elsewhere {α : Type} {deltas : List Int} {f : Engine} (r : Request α)
      (h : Summing db key field e deltas f) (hr : r.IsElsewhere db key field)
      (hkeeps : ∀ old, f.record? db key field = some old →
        old.isExpired (f.after r).now = old.isExpired f.now) :
      Summing db key field e deltas (f.after r)

/-- How an addition to a field that shows a number ends. -/
inductive Concluded (e : Engine) (db : Nat) (key field : Bytes) (m : Int) (a : Addition) : Prop
  /-- It is refused for what it is or for where it is, and nothing is done. -/
  | refused {err : HashError} (hrun : (a.request db key field).perform.run e = .error err e)
      (h : e.Opens db key → ¬a.WellFormed)
  /-- It is refused for the version or for the sum, and expired fields have been reclaimed. -/
  | swept {d : Database} {w : Work} {err : HashError} (hd : e.databases[db]? = some d)
      (hswept : Work.Swept e.now key { database := d } w)
      (hrun : (a.request db key field).perform.run e = .error err (e.absorb db w))
      (h : a.Passes (e.live? db key field) → err = .overflow ∧ a.fits (m + a.delta) = false)
  /-- It stores the sum besides. -/
  | stored {d : Database} {w w' : Work} {version expiry : UInt64} (hd : e.databases[db]? = some d)
      (hswept : Work.Swept e.now key { database := d } w)
      (hlogs : w.Logs e.now
        [.stored (.set key field (Numeral.ofInt (m + a.delta)) version expiry)] w')
      (hrun : (a.request db key field).perform.run e = .ok (m + a.delta) (e.absorb db w'))
      (hfits : a.fits (m + a.delta) = true)

theorem concluded (ht : ∀ d ∈ e.databases, d.keys.Tidy) (hm : e.number? db key field = some m)
    (a : Addition) : e.Concluded db key field m a := by
  have hrun : (a.request db key field).perform.run e =
      (MonadExcept.ofExcept (a.write key field).validate >>= fun _ =>
        onDatabase db fun s => (a.write key field).action s).run e := rfl
  rw [run_ofExcept_bind] at hrun
  cases hv : (a.write key field).validate with
  | error err =>
    rw [hv] at hrun
    exact .refused hrun fun _ hwell => nomatch hv.symm.trans (Addition.validate_eq_ok_iff.mpr hwell)
  | ok =>
    rw [hv] at hrun
    obtain ⟨hversion, hbounds⟩ := Addition.validate_eq_ok_iff.mp hv
    by_cases hopens : e.Opens db key
    · obtain ⟨d, hd, ho⟩ := hopens
      obtain ⟨w, hswept, hends⟩ := run_incrBy (w := { database := d }) (e.scope db)
        (ht d (List.mem_of_getElem? hd)) ho field a.delta a.bounds a.version a.ttl
      have hlive : (Work.fieldsAt { database := d } key).live? field (e.scope db).now =
          e.live? db key field := (live?_of_getElem? hd).symm
      rw [hlive, Fields.incrByPlan_of_number? hversion hbounds hm] at hends
      cases hcheck : a.version.check ((e.live? db key field).map (·.version)) with
      | error err =>
        rw [hcheck] at hends
        refine .swept hd hswept (hrun.trans (run_onDatabase_of_run (.error err) hd hends)) ?_
        exact fun hpasses => nomatch hcheck.symm.trans hpasses.2
      | ok =>
        rw [hcheck] at hends
        cases hfits : a.fits (m + a.delta) with
        | false =>
          rw [Addition.fits] at hfits
          simp only [hfits] at hends
          exact .swept hd hswept (hrun.trans (run_onDatabase_of_run (.error .overflow) hd hends))
            fun _ => ⟨rfl, hfits⟩
        | true =>
          rw [Addition.fits] at hfits
          simp only [hfits] at hends
          obtain ⟨w', hadded, hlogs⟩ := hends
          exact .stored hd hswept hlogs (hrun.trans (run_onDatabase_of_run (.ok _) hd hadded)) hfits
    · obtain ⟨err, hrefused, -⟩ := (refused_or_open (fun s => (a.write key field).action s) ht
        (mistypes_write (e.scope db) (a.write key field))).resolve_right hopens
      exact .refused (hrun.trans hrefused) fun h => absurd h hopens

/-- An addition that is refused must leave everything as it is, and be refused for a sum that does not
fit unless something else stands against it. -/
theorem Adds.of_error {err : HashError} {e' : Engine}
    (hrun : (a.request db key field).perform.run e = .error err e')
    (h : e.Opens db key → a.Passes (e.live? db key field) →
      err = .overflow ∧ a.fits (m + a.delta) = false)
    (hlive : (e.after (a.request db key field)).live? db key field = e.live? db key field)
    (htold : ∀ c ∈ e.told (a.request db key field), c.2.isVersioned = false)
    (hopens : (e.after (a.request db key field)).Opens db key ↔ e.Opens db key) :
    e.Adds db key field m a := by
  have hresult : e.result? (a.request db key field) = none := by rw [result?, hrun]
  constructor
  case succeeded =>
    intro sum hsum
    cases hresult.symm.trans hsum
  case overflows =>
    intro ho hpasses
    obtain ⟨rfl, hfits⟩ := h ho hpasses
    exact iff_of_true ⟨e', hrun⟩ hfits
  case succeeds =>
    intro ho hpasses hfits
    cases (h ho hpasses).2.symm.trans hfits
  case failed => exact fun _ => ⟨hlive, htold⟩
  case opens => exact hopens

theorem adds (ht : ∀ d ∈ e.databases, d.keys.Tidy) (hm : e.number? db key field = some m)
    (a : Addition) : e.Adds db key field m a := by
  cases concluded ht hm a with
  | @refused err hrun h =>
    have hafter : e.after (a.request db key field) = e := after_of_run hrun
    refine .of_error hrun (fun ho hpasses => absurd hpasses.1 (h ho)) ?_ ?_ ?_
    · rw [hafter]
    · rw [told_of_after_eq hafter]
      exact List.forall_mem_nil _
    · rw [hafter]
  | @swept d w err hd hswept hrun h =>
    have hafter : e.after (a.request db key field) = e.absorb db w := after_of_run hrun
    refine .of_error hrun (fun _ => h) ?_ ?_ ?_
    · rw [hafter]
      exact live?_absorb_of_swept hd hswept db key field
    · obtain ⟨cs, hcs, hnone⟩ := hswept.told
      rw [told_of_absorb hafter (hcs.trans (List.append_nil _))]
      exact List.forall_mem_map.mpr hnone
    · rw [hafter, opens_of_getElem? (getElem?_absorb_self hd w), opens_of_getElem? hd]
      exact hswept.open_iff key
  | @stored d w w' version expiry hd hswept hlogs hrun hfits =>
    have hresult : e.result? (a.request db key field) = some (m + a.delta) := by rw [result?, hrun]
    have hafter : e.after (a.request db key field) = e.absorb db w' := after_of_run hrun
    constructor
    case succeeded =>
      intro sum hsum
      obtain rfl : m + a.delta = sum := Option.some.inj (hresult.symm.trans hsum)
      obtain ⟨cs, htold, hnone⟩ := told_of_stored hafter hswept hlogs
      refine ⟨rfl, hfits, version, expiry, cs, ?_, htold, hnone⟩
      rw [hafter, record?_of_getElem? (getElem?_absorb_self hd w')]
      exact hlogs.happens.record?_event (c := .set key field _ version expiry) rfl
    case overflows =>
      intro _ _
      rw [hfits]
      constructor
      · rintro ⟨_, hrun'⟩
        cases hrun.symm.trans hrun'
      · intro h
        cases h
    case succeeds => exact fun _ _ _ => hresult
    case failed =>
      intro hnone
      cases hresult.symm.trans hnone
    case opens =>
      rw [hafter, opens_of_getElem? (getElem?_absorb_self hd w'), opens_of_getElem? hd]
      exact (hlogs.open_iff key).trans (hswept.open_iff key)

/-- An addition that succeeds leaves the canonical text of the sum, which reads back as the sum. -/
theorem Adds.number?_of_succeeded (h : e.Adds db key field m a) {sum : Int}
    (hsum : e.result? (a.request db key field) = some sum)
    (hlive : ((e.after (a.request db key field)).live? db key field).isSome = true) :
    (e.after (a.request db key field)).number? db key field = some (m + a.delta) ∧
      ∃ r, (e.after (a.request db key field)).live? db key field = some r ∧
        r.value = Numeral.ofInt (m + a.delta) := by
  obtain ⟨rfl, hfits, version, expiry, -, hrecord, -⟩ := h.succeeded hsum
  obtain ⟨r, hr⟩ := Option.isSome_iff_exists.mp hlive
  obtain rfl : ⟨Numeral.ofInt (m + a.delta), version, expiry⟩ = r :=
    Option.some.inj (hrecord.symm.trans (live?_eq_some_iff.mp hr).1)
  refine ⟨?_, _, hr, rfl⟩
  rw [number?, hr]
  exact Numeral.readInt64?_eq_some_iff.mpr
    ⟨Numeral.spellsInt_ofInt _, (Bool.and_eq_true_iff.mp hfits).1⟩

theorem Summing.reaches (h : Summing db key field e deltas f) :
    e.Reaches (fun _ _ => True) f := by
  induction h with
  | start => exact .refl
  | added a _ _ _ ih => exact .step _ ih trivial
  | refused a _ _ ih => exact .step _ ih trivial
  | elsewhere r _ _ _ ih => exact .step r ih trivial

/-- What the field shows is what it showed at the start plus the deltas. -/
structure Sums (e : Engine) (db : Nat) (key field : Bytes) (s : Int) (deltas : List Int) (f : Engine) :
    Prop where
  number : f.number? db key field = some (s + deltas.sum)
  /-- The text is canonical as soon as one addition has succeeded. -/
  text : deltas ≠ [] → ∃ r, f.live? db key field = some r ∧
    r.value = Numeral.ofInt (s + deltas.sum)
  opens : f.Opens db key ↔ e.Opens db key

theorem Summing.sums {l : Layout}
    (hanchored : ∀ f, e.Reaches (fun _ _ => True) f → ∀ d ∈ f.databases, d.Anchored l)
    (hs : e.number? db key field = some s) (h : Summing db key field e deltas f) :
    e.Sums db key field s deltas f := by
  induction h with
  | start =>
    refine ⟨?_, fun hne => absurd rfl hne, Iff.rfl⟩
    rw [hs, List.sum_nil, Int.add_zero]
  | @added deltas f sum a h hsum hlive ih =>
    have hadds := adds (fun d hd => (hanchored f h.reaches d hd).tidy) ih.number a
    obtain ⟨hnumber, htext⟩ := hadds.number?_of_succeeded hsum hlive
    have hsnoc : s + (deltas ++ [a.delta]).sum = s + deltas.sum + a.delta := by
      rw [List.sum_append, List.sum_singleton]
      omega
    rw [← hsnoc] at hnumber htext
    exact ⟨hnumber, fun _ => htext, hadds.opens.trans ih.opens⟩
  | @refused deltas f a h hnone ih =>
    have hadds := adds (fun d hd => (hanchored f h.reaches d hd).tidy) ih.number a
    obtain ⟨hlive, -⟩ := hadds.failed hnone
    refine ⟨?_, hlive ▸ ih.text, hadds.opens.trans ih.opens⟩
    rw [number?, hlive]
    exact ih.number
  | elsewhere r h hr hkeeps ih =>
    have hleaves := leaves_after (hanchored _ h.reaches) hr hkeeps
    refine ⟨?_, hleaves.live ▸ ih.text, hleaves.opens.trans ih.opens⟩
    rw [number?, hleaves.live]
    exact ih.number

/-- From any state that is reached, in any role, the number that a field shows is the one that it showed
at the start plus the deltas of the additions that have succeeded since, and every further addition
counts from there. -/
theorem additions_sum_exactly {config : Config} {now : UInt64}
    (he : (new config now).Reaches (fun _ _ => True) e) (hs : e.number? db key field = some s)
    (h : Summing db key field e deltas f) :
    e.Sums db key field s deltas f ∧ ∀ a, f.Adds db key field (s + deltas.sum) a := by
  have hsums := h.sums (fun g hg => anchored_of_reaches (he.trans hg)) hs
  exact ⟨hsums, adds (tidy_of_reaches (he.trans h.reaches)) hsums.number⟩

/-- The text at the start has a sign and a leading zero. Two additions succeed, down to the least number
that fits; one is refused because it would go below that, one for its version. -/
theorem additions_sum_exactly_interleaved :
    let start : FieldWrite SetOutcome := .set [1] [10] [43, 48, 55] { ttl := .set (.after 5000) }
    let e := (new {} 1000).after (.write 0 start)
    let first : Addition := { delta := -10, bounds := { min := some (-5) } }
    let other : Request SetOutcome := .write 0 (.set [1] [11] [97] {})
    let tooLow : Addition := { delta := -9223372036854775806 }
    let last : Addition := { delta := -9223372036854775805, version := .matching 2 }
    let stale : Addition := { delta := 1, version := .matching 2 }
    let mid := (((e.after (first.request 0 [1] [10])).after other).after
      (tooLow.request 0 [1] [10])).after (.setClock 4000 : Request Unit)
    let f := (mid.after (last.request 0 [1] [10])).after (stale.request 0 [1] [10])
    (new {} 1000).Reaches (fun _ _ => True) e ∧ e.number? 0 [1] [10] = some 7 ∧
      Summing 0 [1] [10] e [-10, -9223372036854775805] f ∧
      f.number? 0 [1] [10] = some (-9223372036854775808) ∧
      (∃ e', (Addition.request { delta := -1 } 0 [1] [10]).perform.run f = .error .overflow e') ∧
      f.result? (Addition.request { delta := 2, version := .greater 7 } 0 [1] [10]) =
        some (-9223372036854775806) := by
  intro start e first other tooLow last stale mid f
  have he : (new {} 1000).Reaches (fun _ _ => True) e := .step _ .refl trivial
  have hs : e.number? 0 [1] [10] = some 7 := by decide +kernel
  have hsum : e.result? (first.request 0 [1] [10]) = some (-3) := by decide +kernel
  have hfirst : Summing 0 [1] [10] e [-10] (e.after (first.request 0 [1] [10])) :=
    .added first .start hsum (by decide +kernel)
  have hother := hfirst.elsewhere other (fun _ _ => by decide) fun _ _ => rfl
  have htooLow := hother.refused tooLow (by decide +kernel)
  have hmid : Summing 0 [1] [10] e [-10] mid := by
    refine htooLow.elsewhere (.setClock 4000 : Request Unit) trivial fun old hold => ?_
    obtain rfl : ⟨[45, 51], 2, 6000⟩ = old := Option.some.inj (.trans (by decide +kernel) hold)
    decide +kernel
  have hlowest : mid.result? (last.request 0 [1] [10]) = some (-9223372036854775808) := by
    decide +kernel
  have hlast := hmid.added last hlowest (by decide +kernel)
  have hstale : Summing 0 [1] [10] e [-10, -9223372036854775805] f :=
    hlast.refused stale (by decide +kernel)
  obtain ⟨hsums, hadds⟩ := additions_sum_exactly he hs hstale
  obtain ⟨r, hr, -⟩ := hsums.text (by decide)
  have hopens : f.Opens 0 [1] := open_of_live? hr
  refine ⟨he, hs, hstale, hsums.number, ?_, ?_⟩
  · exact ((hadds { delta := -1 }).overflows hopens ⟨⟨rfl, rfl⟩, by decide +kernel⟩).mpr (by decide)
  · exact (hadds { delta := 2, version := .greater 7 }).succeeds hopens
      ⟨⟨rfl, rfl⟩, by decide +kernel⟩ (by decide)

end Engine

end ExpiringHash
