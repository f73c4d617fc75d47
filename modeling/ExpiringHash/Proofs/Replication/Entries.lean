import ExpiringHash.Proofs.Database.Steps
import ExpiringHash.Proofs.Decimal.TextLength
import ExpiringHash.Proofs.Wire.Reading
import ExpiringHash.Replication.Log

/-!
# Entries of the log

Every entry of a log is read back as it was written, if its texts are not too large and its database
has a number that fits a word. Going through the entries of some commands from the front, each
command is met after the selection of its own database.
-/
namespace ExpiringHash

/-- What is read back one by one is read back all together. -/
theorem mapM_map_eq_ok {α β ε : Type} {write : α → β} {read : β → Except ε α} {l : List α}
    (h : ∀ a ∈ l, read (write a) = .ok a) : (l.map write).mapM read = .ok l := by
  induction l with
  | nil => rfl
  | cons a l ih =>
    rw [List.map_cons, List.mapM_cons, h a List.mem_cons_self,
      ih fun b hb => h b (List.mem_cons_of_mem a hb)]
    rfl

/-- The text fits a bulk string. -/
def Bytes.Short (a : Bytes) : Prop := a.length ≤ Frame.maxBulkSize

instance (a : Bytes) : Decidable a.Short := Nat.decLe ..

theorem Bytes.short_of_le {a : Bytes} {n : Nat} (h : a.length ≤ n) (hn : n ≤ Frame.maxBulkSize) :
    a.Short := Nat.le_trans h hn

namespace Command

instance (c : Command) : Decidable (c.Within Bytes.Short) := List.decidableBAll ..

theorem sameFolded_self (a : Bytes) : Bytes.sameFolded a a = true := beq_self_eq_true _

theorem readNumber_number (n : UInt64) : readNumber (number n) = .ok n := by
  rw [readNumber, number, Numeral.readUInt64?_ofNat]

theorem short_number (n : UInt64) : (number n).Short :=
  Bytes.short_of_le (Numeral.length_ofUInt64_le n) (by decide)

theorem ofBytes?_bytes (k : Keyword) : Keyword.ofBytes? k.bytes = some k := by
  cases k <;> decide

theorem ofOperands_operands (c : Command) : ofOperands c.keyword c.operands = .ok c := by
  cases c with
  | set key field value version expiry =>
    by_cases h : 0 < expiry
    · simp only [keyword, operands, expiryArgs, if_pos h, List.cons_append, List.nil_append,
        ofOperands, sameFolded_self, Bool.and_self, if_true, readNumber_number]
      rfl
    · have h0 : expiry = 0 := by simpa [UInt64.pos_iff_ne_zero] using h
      subst h0
      simp only [keyword, operands, expiryArgs, if_neg h, List.append_nil, ofOperands,
        sameFolded_self, if_true, readNumber_number]
      rfl
  | expireAt key field expiry version =>
    simp only [keyword, operands, ofOperands, sameFolded_self, if_true, readNumber_number]
    rfl
  | setVersion key field version =>
    simp only [keyword, operands, ofOperands, readNumber_number]
    rfl
  | _ => rfl

/-- A command is read back from its arguments. -/
theorem ofArgs_args (c : Command) : ofArgs c.args = .ok c := by
  rw [args, ofArgs, ofBytes?_bytes]
  exact ofOperands_operands c

/-- The arguments after the keyword are texts that the command tells of, words and numbers. -/
theorem of_mem_operands {c : Command} {a : Bytes} (h : a ∈ c.operands) :
    a ∈ c.texts ∨ a = absoluteWord ∨ a = expiryWord ∨ ∃ n, a = number n := by
  cases c <;> grind [operands, texts, expiryArgs]

theorem short_bytes (k : Keyword) : k.bytes.Short := by
  refine Bytes.short_of_le (n := 10) ?_ (by decide)
  cases k <;> decide

theorem short_of_mem_args {c : Command} (h : c.Within Bytes.Short) : ∀ a ∈ c.args, a.Short := by
  intro a ha
  rcases List.mem_cons.mp ha with rfl | ha
  · exact short_bytes c.keyword
  · rcases of_mem_operands ha with ha | rfl | rfl | ⟨n, rfl⟩
    · exact h a ha
    · exact Bytes.short_of_le (n := 4) (by decide) (by decide)
    · exact Bytes.short_of_le (n := 4) (by decide) (by decide)
    · exact short_number n

theorem length_args_le (c : Command) : c.args.length ≤ Frame.maxParts := by
  refine Nat.le_trans (m := 8) ?_ (by decide)
  cases c with
  | set key field value version expiry =>
    simp only [args, operands, expiryArgs, List.length_cons, List.length_append, List.length_nil]
    split <;> simp
  | _ => simp [args, operands]

end Command

namespace LogEntry

/-- The entry selects one of `n` databases, or is a command whose texts are short. -/
def Legible (n : Nat) : LogEntry → Prop
  | .select db => db < n
  | .command c => c.Within Bytes.Short

variable {n : Nat} {e : LogEntry}

/-- An entry is read back from its arguments. -/
theorem ofArgs_args (h : e.Legible n) (hn : n ≤ Numeral.wordBound) : ofArgs e.args = .ok e := by
  cases e with
  | select db =>
    have hdb : db < Numeral.wordBound := Nat.lt_of_lt_of_le h hn
    have hread : Command.readNumber (Numeral.ofNat db) = .ok db.toUInt64 := by
      rw [Command.readNumber, Numeral.readUInt64?, Numeral.readUnsigned?_ofNat hdb]
      rfl
    rw [args, ofArgs, if_pos (Command.sameFolded_self _), hread]
    exact congrArg (fun n => Except.ok (LogEntry.select n)) (UInt64.toNat_ofNat_of_lt' hdb)
  | command c =>
    have hc : (Command.ofArgs c.args).map LogEntry.command = .ok (.command c) := by
      rw [Command.ofArgs_args]
      rfl
    rw [args]
    unfold ofArgs
    split
    · next word db heq =>
      -- only a key to delete makes two arguments, and its keyword is not the one of a selection
      have hword : Bytes.sameFolded word selectWord = false := by
        cases c with
        | deleteKey key =>
          obtain rfl : Keyword.deleteKey.bytes = word := (List.cons.inj heq).1
          decide
        | set key field value version expiry =>
          simp [Command.args, Command.operands] at heq
        | _ => simp [Command.args, Command.operands] at heq
      rw [hword]
      exact hc
    · exact hc

theorem short_of_mem_args (h : e.Legible n) (hn : n ≤ Numeral.wordBound) : ∀ a ∈ e.args, a.Short := by
  cases e with
  | select db =>
    have hdb : db < 10 ^ 20 := Nat.lt_trans (Nat.lt_of_lt_of_le h hn) (by decide)
    intro a ha
    simp only [args, List.mem_cons, List.not_mem_nil, or_false] at ha
    rcases ha with rfl | rfl
    · exact Bytes.short_of_le (n := 6) (by decide) (by decide)
    · exact Bytes.short_of_le (Numeral.length_ofNat_le (by decide) hdb) (by decide)
  | command c => exact Command.short_of_mem_args h

theorem length_args_le (e : LogEntry) : e.args.length ≤ Frame.maxParts := by
  cases e with
  | select db => exact Nat.le_trans (m := 2) (Nat.le_refl 2) (by decide)
  | command c => exact c.length_args_le

/-- The bytes of entries, one after the other. -/
def serializeAll (es : List LogEntry) : Bytes := es.flatMap fun e => e.frame.serialize

/-- The commands of entries, each with the database selected last before it. -/
def attributed (selected : Nat) : List LogEntry → List (Nat × Command)
  | [] => []
  | .select db :: es => attributed db es
  | .command c :: es => (selected, c) :: attributed selected es

/-- The entries of commands give each command to its own database. -/
theorem attributed_entriesForAll {selected : Option Nat} {n : Nat}
    (h : ∀ db, selected = some db → n = db) (cs : List (Nat × Command)) :
    attributed n (ReplicationLog.entriesForAll selected cs) = cs := by
  induction cs generalizing selected n with
  | nil => rfl
  | cons x cs ih =>
    obtain ⟨db, c⟩ := x
    have hrest : attributed db (ReplicationLog.entriesForAll (some db) cs) = cs :=
      ih fun _ he => Option.some.inj he
    rw [ReplicationLog.entriesForAll, ReplicationLog.entriesFor]
    split
    · next hs =>
      obtain rfl := h db hs
      exact congrArg ((n, c) :: ·) hrest
    · exact congrArg ((db, c) :: ·) hrest

theorem legible_entriesForAll (selected : Option Nat) {cs : List (Nat × Command)}
    (h : ∀ x ∈ cs, x.1 < n ∧ x.2.Within Bytes.Short) :
    ∀ e ∈ ReplicationLog.entriesForAll selected cs, e.Legible n := by
  induction cs generalizing selected with
  | nil => exact fun e he => absurd he List.not_mem_nil
  | cons x cs ih =>
    obtain ⟨db, c⟩ := x
    obtain ⟨hdb, hc⟩ := h _ List.mem_cons_self
    intro e he
    rcases List.mem_append.mp he with he | he
    · rw [ReplicationLog.entriesFor] at he
      split at he
      · obtain rfl := List.mem_singleton.mp he
        exact hc
      · simp only [List.mem_cons, List.not_mem_nil, or_false] at he
        rcases he with rfl | rfl
        · exact hdb
        · exact hc
    · exact ih _ (fun y hy => h y (List.mem_cons_of_mem _ hy)) e he

end LogEntry

namespace ReplicationLog

/-- Entries of commands written later follow those of commands written before. -/
theorem entriesForAll_append (selected : Option Nat) (cs ds : List (Nat × Command)) :
    entriesForAll selected (cs ++ ds) = entriesForAll selected cs ++
      entriesForAll ((cs.getLast?.map (·.1)).or selected) ds := by
  induction cs generalizing selected with
  | nil => rfl
  | cons x cs ih =>
    obtain ⟨db, c⟩ := x
    rw [List.cons_append, entriesForAll, entriesForAll, ih, List.append_assoc]
    cases cs with
    | nil => rfl
    | cons y cs => rw [List.getLast?_cons_cons, List.getLast?_cons]; rfl

end ReplicationLog

end ExpiringHash
