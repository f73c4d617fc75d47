import ExpiringHash.Config
import ExpiringHash.Cycle

/-!
# The report

The text that tells of settings, the timing of the active cycle, and how many fields have expired in
each database. Lines end with CR LF; a database where no field expired is left out.
-/
namespace ExpiringHash

/-- What led to the deletion of a field that had expired. -/
inductive Trigger where
  /-- The active cycle, or a request to delete expired fields. -/
  | active
  /-- An operation that met the field. -/
  | passive
deriving DecidableEq, Repr

/-- How many fields of a database have been deleted because they had expired. -/
structure Tally where
  active : UInt64 := 0
  passive : UInt64 := 0
deriving DecidableEq, Repr, Inhabited

namespace Tally

def count (t : Tally) : Trigger → Tally
  | .active => { t with active := t.active + 1 }
  | .passive => { t with passive := t.passive + 1 }

def total (t : Tally) : UInt64 := t.active + t.passive

end Tally

namespace Report

def lineEnd : String := "\r\n"

/-- A line that gives a number a name. -/
def entry (name : String) (n : Nat) : String := name ++ ":" ++ toString n ++ lineEnd

/-- The settings and times in the report. -/
def entries (config : Config) (stats : CycleStats) : List (String × Nat) :=
  [("enable_active_expire", config.active.toNat),
    ("active_expire_period", config.period.toNat),
    ("active_expire_keys_per_loop", config.activeBudget),
    ("active_expire_dbs_per_loop", config.activeDatabases),
    ("active_expire_last_time_msec", stats.last.toNat),
    ("active_expire_max_time_msec", stats.max.toNat),
    ("active_expire_avg_time_msec", stats.average.toNat),
    ("passive_expire_keys_per_loop", config.passiveBudget)]

/-- The line of one database. -/
def databaseLine (t : Tally) (db : Nat) : String :=
  "db: " ++ toString db ++ ", active_expired_fields: " ++ toString t.active.toNat ++
    ", passive_expired_fields: " ++ toString t.passive.toNat ++ lineEnd

def text (config : Config) (stats : CycleStats) (tallies : List Tally) : String :=
  let shown := tallies.zipIdx.filter fun t => t.1.total != 0
  "# Active expire statistics" ++ lineEnd ++
    String.join ((entries config stats).map fun e => entry e.1 e.2) ++
    lineEnd ++ "# DB detail statistics" ++ lineEnd ++
    String.join (shown.map fun t => databaseLine t.1 t.2)

end Report
end ExpiringHash
