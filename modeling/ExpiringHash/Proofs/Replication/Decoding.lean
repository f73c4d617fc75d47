import ExpiringHash.Proofs.Replication.Publishing
import ExpiringHash.Proofs.Wire.Pieces

/-!
# Decoding a log

A log decodes to the commands that were written, each database selected where it changes. Cut
between two frames, the log decodes to the entries before the cut; cut within a frame, it does not
decode.
-/
namespace ExpiringHash

namespace LogEntry

variable {n : Nat} {es : List LogEntry} {bs : Bytes}

/-- A selection before the first command and before each command whose database is not that of the
command before it. -/
def announced (commands : List (Nat × Command)) : List LogEntry :=
  ((none :: commands.map fun x => some x.1).zip commands).flatMap fun (before, db, c) =>
    if before = some db then [.command c] else [.select db, .command c]

theorem announced_eq (commands : List (Nat × Command)) :
    announced commands = ReplicationLog.entriesForAll none commands := by
  have hfrom (before : Option Nat) :
      ((before :: commands.map fun x => some x.1).zip commands).flatMap (fun (before, db, c) =>
        if before = some db then [.command c] else [.select db, .command c]) =
      ReplicationLog.entriesForAll before commands := by
    induction commands generalizing before with
    | nil => rfl
    | cons x commands ih => exact congrArg (ReplicationLog.entriesFor before x.1 x.2 ++ ·) (ih _)
  exact hfrom none

/-- Entries are drained off the front of a stream. -/
theorem drain_serializeAll (h : ∀ e ∈ es, e.Legible n) (hn : n ≤ Numeral.wordBound)
    (hbs : Pull.of bs = .incomplete) :
    drain (serializeAll es ++ bs) = ⟨es.map args, none, bs⟩ := by
  induction es with
  | nil => exact drain_of_incomplete hbs
  | cons e es ih =>
    have he := h e List.mem_cons_self
    have hpull := Pull.of_append (short_of_mem_args he hn) e.length_args_le (serializeAll es ++ bs)
    rw [← List.append_assoc] at hpull
    exact (drain_of_command hpull).trans
      (congrArg (Drained.cons e.args) (ih fun f hf => h f (List.mem_cons_of_mem e hf)))

theorem mapM_ofArgs (h : ∀ e ∈ es, e.Legible n) (hn : n ≤ Numeral.wordBound) :
    (es.map args).mapM ofArgs = .ok es :=
  mapM_map_eq_ok fun e he => ofArgs_args (h e he) hn

/-- The bytes of some entries are decoded, unless they end within a frame. -/
theorem decode_serializeAll (h : ∀ e ∈ es, e.Legible n) (hn : n ≤ Numeral.wordBound)
    (hbs : Pull.of bs = .incomplete) :
    ReplicationLog.decode (serializeAll es ++ bs) =
      if bs.isEmpty then .ok es else .error (.frame (.protocol .truncatedStream)) := by
  rw [ReplicationLog.decode, drain_serializeAll h hn hbs]
  dsimp only
  rw [mapM_ofArgs h hn]
  rfl

/-- What begins the bytes of some entries holds the first of them, and a part of the next. -/
theorem exists_of_prefix (h : ∀ e ∈ es, e.Legible n) (hn : n ≤ Numeral.wordBound)
    (hbs : bs <+: serializeAll es) :
    ∃ k rest, bs = serializeAll (es.take k) ++ rest ∧ Pull.of rest = .incomplete := by
  induction es generalizing bs with
  | nil =>
    obtain rfl := List.prefix_nil.mp hbs
    exact ⟨0, [], rfl, rfl⟩
  | cons e es ih =>
    have he := h e List.mem_cons_self
    rcases prefix_append_cases hbs with ⟨hcut, hne⟩ | ⟨rest, rfl, hrest⟩
    · exact ⟨0, bs, rfl, Pull.of_cut (short_of_mem_args he hn) e.length_args_le hcut hne⟩
    · obtain ⟨k, rest', rfl, hpull⟩ := ih (fun f hf => h f (List.mem_cons_of_mem e hf)) hrest
      exact ⟨k + 1, rest', (List.append_assoc ..).symm, hpull⟩

end LogEntry

namespace ReplicationLog

/-- What a new log can come to: the commands written, the bytes taken, and the log. -/
inductive Written : List (Nat × Command) → Bytes → ReplicationLog → Prop
  | new : Written [] [] {}
  | emit {commands : List (Nat × Command)} {taken : Bytes} {log : ReplicationLog} (db : Nat)
      (c : Command) : Written commands taken log → Written (commands ++ [(db, c)]) taken (log.emit db c)
  | take {commands : List (Nat × Command)} {taken : Bytes} {log : ReplicationLog} :
      Written commands taken log → Written commands (taken ++ log.take.1) log.take.2

variable {commands : List (Nat × Command)} {taken : Bytes} {log : ReplicationLog}

/-- The bytes taken and those still in the log are the entries of all commands written. -/
theorem Written.bytes (h : Written commands taken log) :
    taken ++ log.bytes = LogEntry.serializeAll (entriesForAll none commands) ∧
      log.selected = commands.getLast?.map (·.1) := by
  induction h with
  | new => exact ⟨rfl, rfl⟩
  | @emit commands taken log db c _ ih =>
    obtain ⟨hbytes, hselected⟩ := ih
    constructor
    · rw [entriesForAll_append, LogEntry.serializeAll_append, ← hbytes, Option.or_none, ← hselected,
        List.append_assoc]
      rfl
    · rw [List.getLast?_concat]
      rfl
  | take _ ih => exact ⟨(List.append_nil _).trans ih.1, ih.2⟩

/-- Whatever was written to a log and whenever bytes were taken from it, all its bytes decode to the
commands in order, with the databases selected where they change. A cut between two frames leaves
the entries before it, and any other cut is found out. The number of a database is a word. -/
theorem decodes_what_was_written (h : Written commands taken log)
    (hwithin : ∀ x ∈ commands, x.1 < Numeral.wordBound ∧ x.2.Within Bytes.Short) :
    let entries := LogEntry.announced commands
    decode (taken ++ log.bytes) = .ok entries ∧
      (∀ k, LogEntry.serializeAll (entries.take k) <+: taken ++ log.bytes ∧
        decode (LogEntry.serializeAll (entries.take k)) = .ok (entries.take k)) ∧
      ∀ cut, cut <+: taken ++ log.bytes →
        (∀ k, cut ≠ LogEntry.serializeAll (entries.take k)) →
        decode cut = .error (.frame (.protocol .truncatedStream)) := by
  have hlegible := LogEntry.legible_entriesForAll none hwithin
  dsimp only
  rw [h.bytes.1, LogEntry.announced_eq]
  generalize entriesForAll none commands = entries at hlegible
  have hwhole {es : List LogEntry} (hes : ∀ e ∈ es, e.Legible Numeral.wordBound) :
      decode (LogEntry.serializeAll es) = .ok es := by
    have hnone : Pull.of [] = .incomplete := rfl
    have hdecode := LogEntry.decode_serializeAll hes Nat.le.refl hnone
    rwa [List.append_nil] at hdecode
  have htake (k : Nat) : ∀ e ∈ entries.take k, e.Legible Numeral.wordBound :=
    fun e he => hlegible e (List.mem_of_mem_take he)
  refine ⟨hwhole hlegible, fun k => ⟨?_, hwhole (htake k)⟩, fun cut hcut hne => ?_⟩
  · conv => rhs; rw [← List.take_append_drop k entries, LogEntry.serializeAll_append]
    exact List.prefix_append ..
  · obtain ⟨k, rest, rfl, hpull⟩ := LogEntry.exists_of_prefix hlegible Nat.le.refl hcut
    rw [LogEntry.decode_serializeAll (htake k) Nat.le.refl hpull, if_neg]
    intro hempty
    obtain rfl := List.isEmpty_iff.mp hempty
    exact hne k (List.append_nil _)

/-- The bytes are taken between two commands of one database, and a value looks like the wire form
of another. The last byte is cut off. -/
theorem decodes_what_was_written_taken :
    let set := Command.set [1] [10] (Bytes.ofChars ['$', '1', '\r', '\n']) 7 5000
    let commands := [(0, set), (0, .persist [1] [10]), (3, .setVersion [2] [20] 9)]
    let entries := LogEntry.announced commands
    let first := (({} : ReplicationLog).emit 0 set).take
    let second := ((first.2.emit 0 (.persist [1] [10])).emit 3 (.setVersion [2] [20] 9)).take
    let bytes := first.1 ++ second.1
    Written commands bytes second.2 ∧
      (∀ x ∈ commands, x.1 < Numeral.wordBound ∧ x.2.Within Bytes.Short) ∧
      entries = [.select 0, .command set, .command (.persist [1] [10]), .select 3,
        .command (.setVersion [2] [20] 9)] ∧
      decode bytes = .ok entries ∧
      decode (LogEntry.serializeAll (entries.take 2)) = .ok (entries.take 2) ∧
      decode bytes.dropLast = .error (.frame (.protocol .truncatedStream)) := by
  intro set commands entries first second bytes
  have hwritten : Written commands bytes second.2 :=
    .take (.emit 3 _ (.emit 0 _ (.take (.emit 0 set .new))))
  have hwithin : ∀ x ∈ commands, x.1 < Numeral.wordBound ∧ x.2.Within Bytes.Short := by decide
  obtain ⟨hall, htake, hcut⟩ := decodes_what_was_written hwritten hwithin
  have hbytes : bytes ++ second.2.bytes = bytes := List.append_nil _
  rw [hbytes] at hall hcut
  refine ⟨hwritten, hwithin, by decide +kernel, hall, (htake 2).2,
    hcut _ (List.dropLast_prefix bytes) fun k he => ?_⟩
  have hbefore : ∀ k < 5, bytes.dropLast ≠ LogEntry.serializeAll (entries.take k) := by
    decide +kernel
  by_cases hk : k < 5
  · exact hbefore k hk he
  · have hlength : bytes.dropLast.length ≠ (LogEntry.serializeAll entries).length := by
      decide +kernel
    rw [List.take_of_length_le (Nat.not_lt.mp hk)] at he
    exact hlength (congrArg List.length he)

end ReplicationLog
end ExpiringHash
