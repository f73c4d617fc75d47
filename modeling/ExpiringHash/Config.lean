import ExpiringHash.Text.Numeral

/-!
# Settings

The settings of an engine, fixed when it is built. They are given as pairs of a name and a value;
names do not depend on the case of ASCII letters, and a later pair overrides an earlier one.
-/
namespace ExpiringHash

/-- What an expiry index holds an entry for. -/
inductive Layout where
  /-- One entry per container, at the earliest expiry of its fields. -/
  | coarse
  /-- One entry per field that expires. -/
  | fine
deriving DecidableEq, Repr, Inhabited

namespace Layout

def name : Layout → String
  | .coarse => "coarse"
  | .fine => "fine"

def ofName? (text : String) : Option Layout :=
  [coarse, fine].find? fun l => l.name == text.toLower

end Layout

structure Config where
  /-- Whether the timer runs the active cycle. -/
  active : Bool := true
  /-- Milliseconds between two ticks of the active cycle. -/
  period : UInt64 := 1000
  /-- How many expired fields of one database a tick deletes at most. -/
  activeBudget : Nat := 1000
  /-- How many databases a tick visits at most. -/
  activeDatabases : Nat := 16
  /-- How many expired fields of a container a write clears first at most. -/
  passiveBudget : Nat := 10
  layout : Layout := .coarse
  databases : Nat := 16
  databases_pos : 0 < databases := by decide
deriving DecidableEq, Repr

inductive ConfigError where
  | oddArguments (count : Nat)
  | unknownOption (name : String)
  | invalidValue (option value : String)
deriving DecidableEq, Repr

def ConfigError.message : ConfigError → String
  | .oddArguments count =>
    "invalid number of arguments: expected name/value pairs, got " ++ toString count ++ " items"
  | .unknownOption name => "unrecognized option '" ++ name ++ "'"
  | .invalidValue option value => "invalid value '" ++ value ++ "' for " ++ option

namespace Config

instance : Inhabited Config := ⟨{}⟩

/-- Sets the number of databases; there is always one. -/
def withDatabases (c : Config) (n : Nat) : Config :=
  { c with databases := max n 1, databases_pos := Nat.le_max_right n 1 }

inductive Setting where
  | active
  | period
  | activeBudget
  | activeDatabases
  | passiveBudget
  | layout
  | databases
deriving DecidableEq, Repr

namespace Setting

def name : Setting → String
  | .active => "enable_active_expire"
  | .period => "active_expire_period"
  | .activeBudget => "active_expire_keys_per_loop"
  | .activeDatabases => "active_expire_dbs_per_loop"
  | .passiveBudget => "passive_expire_keys_per_loop"
  | .layout => "expire_strategy"
  | .databases => "databases"

def all : List Setting :=
  [active, period, activeBudget, activeDatabases, passiveBudget, layout, databases]

def ofName? (text : String) : Option Setting := all.find? fun s => s.name == text.toLower

end Setting

def assign? (c : Config) (s : Setting) (value : String) : Option Config :=
  let word? := Numeral.readUInt64? (Bytes.ofString value)
  match s with
  | .active => word?.map fun (n : UInt64) => { c with active := n != 0 }
  | .period => word?.map fun n => { c with period := n }
  | .activeBudget => word?.map fun n => { c with activeBudget := n.toNat }
  | .activeDatabases => word?.map fun n => { c with activeDatabases := n.toNat }
  | .passiveBudget => word?.map fun n => { c with passiveBudget := n.toNat }
  | .layout => (Layout.ofName? value).map fun l => { c with layout := l }
  | .databases => word?.map fun n => c.withDatabases n.toNat

/-- Sets settings from pairs of a name and a value, first pair first. -/
def assignAll (c : Config) : List String → Except ConfigError Config
  | name :: value :: rest =>
    match Setting.ofName? name with
    | none => .error (.unknownOption name)
    | some s =>
      match c.assign? s value with
      | none => .error (.invalidValue name value)
      | some c => c.assignAll rest
  | _ => .ok c

/-- Reads settings on top of the defaults. -/
def ofArgs (args : List String) : Except ConfigError Config :=
  if args.length % 2 = 1 then .error (.oddArguments args.length) else assignAll {} args

end Config
end ExpiringHash
