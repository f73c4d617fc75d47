import ExpiringHash.Dump
import ExpiringHash.Engine.Basic

/-!
# Queries

Questions about a database that change nothing, in either role. Those about the live fields of a
container leave out what has expired; a container that is missing has no fields.
-/
namespace ExpiringHash

/-- A question about one database, with the type of its answer. -/
inductive Query : Type → Type
  /-- Number of fields that have not expired. -/
  | liveSize (key : Bytes) : Query Nat
  /-- Number of fields, expired or not. -/
  | size (key : Bytes) : Query Nat
  /-- Names of the live fields. -/
  | names (key : Bytes) : Query (List Bytes)
  /-- Values of the live fields. -/
  | values (key : Bytes) : Query (List Bytes)
  /-- The live fields and what a reader sees of them. -/
  | fields (key : Bytes) : Query (List (Bytes × FieldView))
  | container (key : Bytes) : Query (Option Container)
  | dump (key : Bytes) : Query (Option Bytes)
  | digest (key : Bytes) : Query (Option UInt64)
  /-- The commands that build a container anew. -/
  | rebuild (key : Bytes) : Query (List Command)
  /-- How many fields have been deleted because they had expired. -/
  | tally : Query Tally
  /-- The entries of the index, earliest first. -/
  | index : Query (List IndexEntry)
  /-- The earliest entry of the index. -/
  | firstEntry : Query (Option IndexEntry)
  /-- Whether the index holds the entries that the containers call for. -/
  | verify : Query Unit
  | type (key : Bytes) : Query (Option String)
  | keys : Query (List Bytes)
  | keyCount : Query Nat

namespace Database

/-- What a container holds, `empty` if the key is missing. -/
def ofContainer {α : Type} (d : Database) (key : Bytes) (empty : α) (f : Container → α) :
    Except HashError α := do
  match ← d.keys.container? key with
  | none => return empty
  | some c => return f c

/-- The answer to a query about database number `db`. -/
def answer {α : Type} (d : Database) (db : Nat) (now : UInt64) : Query α → Except HashError α
  | .liveSize key => d.ofContainer key 0 fun c => c.fields.liveSize now
  | .size key => d.ofContainer key 0 fun c => c.fields.size
  | .names key => d.ofContainer key [] fun c => (c.fields.live now).map (·.1)
  | .values key => d.ofContainer key [] fun c => (c.fields.live now).map (·.2.value)
  | .fields key => d.ofContainer key [] fun c => (c.fields.live now).map fun r => (r.1, r.2.view)
  | .container key => d.keys.container? key
  | .dump key => d.ofContainer key none fun c => some c.dump
  | .digest key => d.ofContainer key none fun c => some c.digest
  | .rebuild key => d.ofContainer key [] fun c => c.rebuild now
  | .tally => .ok d.tally
  | .index => .ok d.index.entries
  | .firstEntry => .ok d.index.first?
  | .verify => d.verify db
  | .type key => .ok ((d.keys.get? key).map Value.type)
  | .keys => .ok d.keys.keys
  | .keyCount => .ok d.keys.size

end Database

/-- The answer to a query about one database. -/
def Engine.answer {α : Type} (e : Engine) (db : Nat) (q : Query α) : Except HashError α := do
  (← e.database db).answer db e.now q

end ExpiringHash
