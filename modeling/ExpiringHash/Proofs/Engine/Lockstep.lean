import ExpiringHash.Proofs.Database.Owed
import ExpiringHash.Proofs.Engine.Keys

/-!
# The index in lockstep

Whatever is asked of an engine, and in whatever order, role and time, the index of each database
holds an entry for what can expire in it and nothing else, and every container lies under its own
key. The only requests left out are second notices that no rename or move has sent.
-/
namespace ExpiringHash

/-- Containers lie under their own keys, and the index holds each entry that they call for once and
no other. -/
structure Database.Lockstep (l : Layout) (d : Database) : Prop where
  key_eq : ∀ key c, d.keys.get? key = some (.container c) → c.key = key
  layout : d.index.layout = l
  nodup : d.index.entries.Nodup
  mem_entries : ∀ e, e ∈ d.index.entries ↔ d.keys.Owes l e

namespace Engine

/-- After any run of requests but stray second notices, whether they fail or not, every database is
in lockstep with its index and verifies. -/
theorem index_lockstep {config : Config} {now : UInt64} {e : Engine}
    (h : (Engine.new config now).Reaches (fun _ r => ¬r.IsSecondNotice) e) :
    e.databases.length = config.databases ∧
      ∀ db d, e.databases[db]? = some d →
        d.Lockstep config.layout ∧ e.answer db .verify = .ok () := by
  have hI := Database.InStep.lasting config.layout
  obtain ⟨-, hlength, hstep⟩ := keeps_reaches (fun _ _ hr => keeps_perform hI hr) h
    (forall_mem_new now (Database.InStep.new config.layout))
  refine ⟨hlength.trans List.length_replicate, fun db d hd => ?_⟩
  have hd' : d.InStep config.layout := hstep d (List.mem_of_getElem? hd)
  refine ⟨⟨fun _ _ hc => hd'.tidy.key_eq hc, hd'.layout, Database.InStep.nodup_entries d,
    hd'.mem_entries_iff_owes⟩, ?_⟩
  rw [answer, database, hd]
  exact hd'.verify_eq_ok db

/-- One of two containers that expire is renamed over the other, and time passes. -/
theorem index_lockstep_rename :
    let new := Engine.new { layout := .fine } 1000
    let written := (new.after (.write 0 (.set [1] [10] [7] { ttl := .set (.after 5) }))).after
      (.write 0 (.set [2] [11] [8] { ttl := .set (.moment 2000) }))
    let e := ((written.after (.key (.rename 0 [1] [2]))).after (.setClock 1500)).after
      (.read 0 (.get [2] [10]))
    new.Reaches (fun _ r => ¬r.IsSecondNotice) e ∧ e.databases.length = 16 ∧
      ∀ db d, e.databases[db]? = some d → d.Lockstep .fine ∧ e.answer db .verify = .ok () := by
  intro new written e
  have h : new.Reaches (fun _ r => ¬r.IsSecondNotice) e :=
    .step _ (.step _ (.step _ (.step _ (.step _ .refl id) id) id) id) id
  exact ⟨h, index_lockstep h⟩

end Engine

end ExpiringHash
