import ExpiringHash.Proofs.Replication.Entries
import ExpiringHash.Proofs.Replication.Replay

/-!
# Publishing to a log

An engine whose commands go to a log as they are sent. At every moment the bytes of the log, those
taken from it first, are the entries of all commands sent so far, and these commands replay to the
keys of the engine.
-/
namespace ExpiringHash

variable {α : Type} {n : Nat}

/-- An engine that sends to a log. -/
structure Publisher where
  engine : Engine
  log : ReplicationLog := {}
  /-- The commands sent so far. -/
  sent : List (Nat × Command) := []
  /-- The bytes taken from the log so far. -/
  taken : Bytes := []

namespace Publisher

def new (config : Config) (now : UInt64) : Publisher := { engine := .new config now }

/-- The publisher after a request, whether it failed or not. -/
def after (p : Publisher) (r : Request α) : Publisher :=
  let (commands, engine) := (p.engine.after r).takeOutbox
  { p with engine, log := p.log.emitAll commands, sent := p.sent ++ commands }

/-- Takes the bytes of the log. -/
def drain (p : Publisher) : Publisher :=
  let (bytes, log) := p.log.take
  { p with log, taken := p.taken ++ bytes }

/-- What a publisher can come to by requests about fields, with names and values that fit a bulk
string, while its log is drained now and then. -/
inductive Reaches (p : Publisher) : Publisher → Prop
  | refl : Reaches p p
  | step {α : Type} {q : Publisher} (r : Request α) :
      Reaches p q → r.IsLocal → (∀ a ∈ r.texts, a.Short) → Reaches p (q.after r)
  | drain {q : Publisher} : Reaches p q → Reaches p q.drain

/-- The log tells of all that has become of `n` databases. -/
structure Sound (n : Nat) (p : Publisher) : Prop where
  engine : p.engine.Sound Bytes.Short
  length : p.engine.databases.length = n
  outbox : p.engine.outbox = []
  within : ∀ x ∈ p.sent, x.1 < n ∧ x.2.Within Bytes.Short
  replays : Replays n (fun _ => ∅) p.sent p.engine.keysAt
  bytes : p.taken ++ p.log.bytes =
    LogEntry.serializeAll (ReplicationLog.entriesForAll none p.sent)
  selected : p.log.selected = p.sent.getLast?.map (·.1)

end Publisher

/-- The texts of all numbers fit a bulk string. -/
theorem Bytes.short_numerals : HasNumerals Bytes.Short where
  int _ h := short_of_le (Numeral.length_ofInt_le h) (by decide)
  float x := short_of_le (FloatText.length_ofFloat_le x) (by decide)

theorem Engine.keysAt_new (config : Config) (now : UInt64) :
    (Engine.new config now).keysAt = fun _ => ∅ := by
  funext db
  unfold keysAt Engine.new
  dsimp only
  rw [List.getElem?_replicate]
  split <;> rfl

theorem Engine.sound_new {p : Bytes → Prop} (config : Config) (now : UInt64) :
    (Engine.new config now).Sound p := by
  intro d hd
  rw [List.eq_of_mem_replicate hd]
  exact ⟨.empty, fun key c hc => by cases hc⟩

theorem LogEntry.serializeAll_append (es fs : List LogEntry) :
    serializeAll (es ++ fs) = serializeAll es ++ serializeAll fs :=
  List.flatMap_append

namespace Publisher

theorem Sound.new (config : Config) (now : UInt64) :
    (Publisher.new config now).Sound config.databases where
  engine := Engine.sound_new config now
  length := List.length_replicate
  outbox := rfl
  within _ hx := absurd hx List.not_mem_nil
  replays := (Engine.keysAt_new config now).symm ▸ .nil _
  bytes := rfl
  selected := rfl

variable {p q : Publisher}

theorem Sound.after {r : Request α} (h : p.Sound n) (hl : r.IsLocal)
    (ht : ∀ a ∈ r.texts, a.Short) : (p.after r).Sound n := by
  have htraces := Engine.traces_perform Bytes.short_numerals hl ht p.engine h.engine
  rw [← Engine.after_eq] at htraces
  obtain ⟨hlength, cs, hsent, hwithin, hreplays⟩ := Engine.replays_of_steps htraces h.engine
  have hcs : (p.engine.after r).sent = cs := by
    rw [hsent, Engine.sent, h.outbox]
    rfl
  have hafter : p.after r =
      { p with
        engine := { p.engine.after r with outbox := [] }
        log := p.log.emitAll cs
        sent := p.sent ++ cs } := by
    rw [Publisher.after, Engine.takeOutbox, hcs]
  rw [h.length] at hlength hwithin hreplays
  rw [hafter]
  have hsound : (p.engine.after r).Sound Bytes.Short := Engine.sound_of_steps htraces h.engine
  refine ⟨fun d hd => hsound d hd, hlength, rfl, fun x hx => ?_,
    h.replays.append hreplays, ?_, ?_⟩
  · rcases List.mem_append.mp hx with hx | hx
    · exact h.within x hx
    · exact hwithin x hx
  · rw [ReplicationLog.entriesForAll_append, LogEntry.serializeAll_append, ← h.bytes, Option.or_none,
      ← h.selected, List.append_assoc]
    rfl
  · rw [ReplicationLog.emitAll, h.selected, List.getLast?_append, Option.map_or]

theorem Sound.drain (h : p.Sound n) : p.drain.Sound n :=
  ⟨h.engine, h.length, h.outbox, h.within, h.replays, (List.append_nil _).trans h.bytes, h.selected⟩

theorem Sound.of_reaches (h : p.Reaches q) (hp : p.Sound n) : q.Sound n := by
  induction h with
  | refl => exact hp
  | step r _ hl ht ih => exact ih.after hl ht
  | drain _ ih => exact ih.drain

end Publisher

end ExpiringHash
