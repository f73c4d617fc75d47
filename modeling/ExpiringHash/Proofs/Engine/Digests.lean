import ExpiringHash.Proofs.Dump.Payloads
import ExpiringHash.Proofs.Engine.Transfers
import ExpiringHash.Proofs.Hash.Digests
import ExpiringHash.Proofs.Replication.Convergence

/-!
# Digests go with the values

A container keeps its digest wherever it goes: under another key, to another database, through a dump
into another engine, and by its commands to a follower. None of these changes a name or a value.
-/
namespace ExpiringHash

namespace Engine

variable {α : Type} {e e' : Engine} {db db' : Nat} {d : Database} {key key' bs : Bytes} {v : Value}
  {c : Container} {t : Transfer}

theorem answer_digest (hd : e.databases[db]? = some d) (key : Bytes) :
    e.answer db (.digest key) = (d.keys.container? key).map fun c => c.map Container.digest := by
  rw [answer, database, hd]
  change d.ofContainer key none _ = _
  rw [Database.ofContainer]
  rcases d.keys.container? key with _ | _ | c <;> rfl

/-- Under another key a value has the same digest. -/
theorem answer_digest_relabel (hv : e.valueAt db key = some v)
    (hv' : e'.valueAt db' key' = some (v.relabel key')) :
    e'.answer db' (.digest key') = e.answer db (.digest key) := by
  obtain ⟨d, hd, hget⟩ := exists_of_valueAt hv
  obtain ⟨d', hd', hget'⟩ := exists_of_valueAt hv'
  rw [answer_digest hd, answer_digest hd', KeySpace.container?, KeySpace.container?, hget, hget']
  cases v <;> rfl

theorem valueAt_load (hd : e.databases[db]? = some d) (key : Bytes) (v : Value) :
    (e.setDatabase db ((d.deleteKey key).2.attach key v)).valueAt db key = some v := by
  rw [valueAt_set hd rfl, if_pos rfl]
  exact SortedTable.get?_put_self _ _ _

/-- A container loaded from the dump of another one has its digest. -/
theorem exists_load (htidy : ∀ d ∈ e.databases, d.keys.Tidy)
    (hc : e.valueAt db key = some (.container c)) (hfits : c.Fits) {f : Engine}
    (hlt : db' < f.databases.length) :
    ∃ bs f', e.answer db (.dump key) = .ok (some bs) ∧
      (KeyRequest.load db' bs).perform.run f = .ok key f' ∧
      f'.answer db' (.digest key) = e.answer db (.digest key) := by
  obtain ⟨d, hd, hget⟩ := exists_of_valueAt hc
  obtain ⟨rfl, hcons⟩ := htidy d (List.mem_of_getElem? hd) key _ hget
  have hd' := List.getElem?_eq_getElem hlt
  have hdecode : Container.ofDump c.dump = .ok c :=
    Container.ofDump_eq_ok_iff.mpr ⟨hcons.reached, hfits, Container.isDumpOf_dump c⟩
  have hload := run_load db' c.dump f
  rw [hd', hdecode] at hload
  refine ⟨c.dump, _, ?_, hload, ?_⟩
  · rw [answer, database, hd]
    change d.ofContainer c.key none _ = _
    rw [Database.ofContainer, KeySpace.container?, hget]
    rfl
  · exact answer_digest_relabel (v := .container c) hc (valueAt_load hd' c.key _)

end Engine

/-- The digest of a container is that of its names and values, however it came about and in whatever
order they are fed. So it is the same under another key and in another place, after a dump was loaded
into any engine, and in an engine that follows; and what one field contributes can be exchanged. -/
theorem digest_of_names_and_values :
    (∀ c : Container, c.DigestsPairs) ∧
    (∀ {config : Config} {now : UInt64} {e e' : Engine} {α : Type} {k : KeyRequest α} {a : α}
      {t : Transfer}, (Engine.new config now).Reaches (fun _ _ => True) e →
      k.perform.run e = .ok a e' → k.transfer? a = some t →
      e'.answer t.toDb (.digest t.target) = e.answer t.fromDb (.digest t.source)) ∧
    (∀ {config : Config} {now : UInt64} {e f : Engine} {db db' : Nat} {key : Bytes} {c : Container},
      (Engine.new config now).Reaches (fun _ _ => True) e →
      e.valueAt db key = some (.container c) → c.Fits → db' < f.databases.length →
      ∃ bs f', e.answer db (.dump key) = .ok (some bs) ∧
        (KeyRequest.load db' bs).perform.run f = .ok key f' ∧
        f'.answer db' (.digest key) = e.answer db (.digest key)) ∧
    ∀ {config config' : Config} {now now' : UInt64} {p : Publisher} {g : Follower},
      (Publisher.new config now).Reaches p → config.databases ≤ Numeral.wordBound →
      config.databases ≤ config'.databases → (Follower.new config' now').Fed p.taken g →
      p.log.bytes = [] → ∀ db, db < config.databases → ∀ key,
        g.engine.answer db (.digest key) = p.engine.answer db (.digest key) := by
  refine ⟨Container.digestsPairs, fun he hrun ht => ?_, fun he hc hfits hlt => ?_, ?_⟩
  · have htidy := fun d hd => (Engine.anchored_of_reaches he d hd).tidy
    obtain ⟨v, hv, hv'⟩ := (Engine.carried_of_run htidy hrun ht).target
    exact Engine.answer_digest_relabel hv hv'
  · exact Engine.exists_load (fun d hd => (Engine.anchored_of_reaches he d hd).tidy) hc hfits hlt
  · intro config config' now now' p g hp hn hd hg hempty db hdb key
    obtain ⟨hkeys, hlength⟩ := Follower.keysAt_of_fed hp hn hd hg hempty
    have hpublished := (Publisher.Sound.of_reaches hp (.new config now)).length
    have hp' := List.getElem?_eq_getElem (hpublished.symm ▸ hdb : db < p.engine.databases.length)
    have hg' := List.getElem?_eq_getElem
      (hlength.symm ▸ Nat.lt_of_lt_of_le hdb hd : db < g.engine.databases.length)
    rw [Engine.answer_digest hp', Engine.answer_digest hg', ← Engine.keysAt_of_getElem? hp',
      ← Engine.keysAt_of_getElem? hg', hkeys]

/-- A container of two fields, one of which expires, is copied to another database, dumped, loaded into an
engine of the other layout, and followed. One of its fields is stored again with another version. -/
theorem digest_of_names_and_values_copied :
    let first := Request.write 0 (.set [1] [10] [7] { ttl := .set (.after 5) })
    let second := Request.write 0 (.set [1] [20] [8] {})
    let e := ((Engine.new {} 1000).after first).after second
    let p := (((Publisher.new {} 1000).after first).after second).drain
    let f := Engine.new { layout := .fine } 0
    let g := stateOf ((Follower.feed p.taken).run (.new { layout := .fine } 0))
    let c : Container := ⟨[1], .ofList [([20], ⟨[8], 1, 0⟩), ([10], ⟨[7], 1, 1005⟩)]⟩
    let again : Container := ⟨[2], (c.fields.put [10] ⟨[7], 4, 0⟩).2⟩
    e.valueAt 0 [1] = some (.container c) ∧
      e.answer 0 (.digest [1]) = .ok (some c.digest) ∧
      c.digest = Fields.pairHash ([10], [7]) ^^^ Fields.pairHash ([20], [8]) ∧
      c.fields.records.toList.reverse.foldl (fun d r => d.addSequence [r.1, r.2.value]) Digest.empty =
        ⟨[], c.digest⟩ ∧
      again.digest = c.digest ∧
      (e.after (.key (.copy 0 [1] 3 [2] false))).answer 3 (.digest [2]) = e.answer 0 (.digest [1]) ∧
      (∃ bs f', e.answer 0 (.dump [1]) = .ok (some bs) ∧
        (KeyRequest.load 1 bs).perform.run f = .ok [1] f' ∧
        f'.answer 1 (.digest [1]) = e.answer 0 (.digest [1])) ∧
      g.engine.answer 0 (.digest [1]) = p.engine.answer 0 (.digest [1]) := by
  intro first second e p f g c again
  obtain ⟨hcontainer, htransfer, hload, hfollow⟩ := digest_of_names_and_values
  have he : (Engine.new {} 1000).Reaches (fun _ _ => True) e :=
    .step _ (.step _ .refl trivial) trivial
  have hp : (Publisher.new {} 1000).Reaches p :=
    .drain (.step _ (.step _ .refl trivial (by decide)) trivial (by decide))
  have hg : (Follower.new { layout := .fine } 0).Fed p.taken g := .feed p.taken .start
  have hc : e.valueAt 0 [1] = some (.container c) := by decide +kernel
  have hrows : ∀ row ∈ c.fields.records.toList,
      row.1.length < 2 ^ 32 ∧ row.2.value.length < 2 ^ 32 := by
    decide +kernel
  have hfits : c.Fits :=
    ⟨show 1 < 2 ^ 32 by decide, fun row h => ⟨(hrows row h).1, (hrows row h).2⟩, by decide +kernel⟩
  have hagain (field : Bytes) : again.fields.value? field = c.fields.value? field := by
    by_cases h : field = [10]
    · subst h
      decide +kernel
    · exact Fields.value?_put_of_ne _ h
  have hfeed := (hcontainer c).feed _ (List.reverse_perm _)
  rw [← (hcontainer c).digest] at hfeed
  have hcopy := htransfer (k := .copy 0 [1] 3 [2] false) (a := true) he rfl rfl
  exact ⟨hc, by decide +kernel, by decide +kernel, hfeed, (hcontainer c).congr again hagain, hcopy,
    hload he hc hfits (by decide), hfollow hp (by decide) (by decide) hg rfl 0 (by decide) [1]⟩

end ExpiringHash
