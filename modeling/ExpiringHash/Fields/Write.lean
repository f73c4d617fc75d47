import ExpiringHash.Decimal.FloatText
import ExpiringHash.Fields.Basic
import ExpiringHash.Text.Blank
import ExpiringHash.Text.Numeral
import ExpiringHash.Text.Utf8
import ExpiringHash.Version

/-!
# Writing fields

A write names the field, the versions it accepts and what becomes of the expiry. A record that has
expired counts as absent: its version is not checked, a write starts from version 0, and there is no
expiry to keep. A write that fails changes nothing.
-/
namespace ExpiringHash

/-- What a write demands and what it leaves, apart from the value. -/
structure WriteRule where
  condition : WriteCondition := .always
  version : VersionPolicy := .next
  ttl : TtlUpdate := .clear
deriving DecidableEq, Repr, Inhabited

/-- Bounds on a sum, both inclusive. -/
structure Bounds (α : Type) where
  min : Option α := none
  max : Option α := none
deriving Repr

namespace Bounds

variable {α : Type}

/-- Refuses bounds in the wrong order. -/
def validate [LT α] [DecidableLT α] (b : Bounds α) : Except HashError Unit :=
  match b.min, b.max with
  | some low, some high => if high < low then .error .badOption else .ok ()
  | _, _ => .ok ()

def holds [LE α] [DecidableLE α] (b : Bounds α) (a : α) : Bool :=
  b.min.all (fun low => low ≤ a) && b.max.all fun high => a ≤ high

end Bounds

/-- What a write did. -/
structure Written where
  /-- Whether the field was absent before. -/
  created : Bool
  version : UInt64
  /-- The expiry that the write left, 0 for none. -/
  expireAt : UInt64
  shift : ExpiryShift
deriving DecidableEq, Repr

namespace Fields

def readInt (value : Bytes) : Except HashError Int :=
  match Numeral.readInt64? value with
  | some n => .ok n
  | none => .error .notInteger

/-- The finite number that a value spells, blanks around it aside. -/
def readFloat (value : Bytes) : Except HashError Float :=
  match (Utf8.decode? value).bind fun cs => FloatText.read? (Text.trim cs) with
  | some x => if x.isFinite then .ok x else .error .notFloat
  | none => .error .notFloat

/-- Stores a value over the live record `current`. -/
def commit (f : Fields) (field value : Bytes) (policy : VersionPolicy) (ttl : TtlUpdate)
    (current : Option Record) (now : UInt64) : Written × Fields :=
  let version := policy.successor ((current.map (·.version)).getD 0)
  let expireAt := ttl.resolve ((current.map (·.expireAt)).getD 0) now
  let (shift, g) := f.put field { value, version, expireAt }
  ({ created := current.isNone, version, expireAt, shift }, g)

/-- Writes a value; `none` if the condition is not met. -/
def set (f : Fields) (field value : Bytes) (rule : WriteRule) (now : UInt64) :
    Except HashError (Option Written × Fields) := do
  let policy ← rule.version.validate
  let current := f.live? field now
  if rule.condition.allows current.isSome then
    policy.check (current.map (·.version))
    let (written, g) := f.commit field value policy rule.ttl current now
    return (some written, g)
  else return (none, f)

/-- Adds to an integer; a field that is absent counts as 0. -/
def incrBy (f : Fields) (field : Bytes) (delta : Int) (bounds : Bounds Int)
    (version : VersionPolicy) (ttl : TtlUpdate) (now : UInt64) :
    Except HashError ((Int × Written) × Fields) := do
  let policy ← version.validate
  bounds.validate
  let current := f.live? field now
  let base ← match current with
    | some record => readInt record.value
    | none => pure 0
  policy.check (current.map (·.version))
  let sum := base + delta
  if Numeral.fitsInt64 sum && bounds.holds sum then
    let (written, g) := f.commit field (Numeral.ofInt sum) policy ttl current now
    return ((sum, written), g)
  else throw .overflow

/-- Adds to a floating-point number; a field that is absent counts as 0. The answer is the text
stored. -/
def incrByFloat (f : Fields) (field : Bytes) (delta : Float) (bounds : Bounds Float)
    (version : VersionPolicy) (ttl : TtlUpdate) (now : UInt64) :
    Except HashError ((Bytes × Written) × Fields) := do
  let policy ← version.validate
  if !delta.isFinite then throw .notFloat
  bounds.validate
  let current := f.live? field now
  let base ← match current with
    | some record => readFloat record.value
    | none => pure 0
  policy.check (current.map (·.version))
  let sum := base + delta
  if sum.isFinite && bounds.holds sum then
    let value := FloatText.ofFloat sum
    let (written, g) := f.commit field value policy ttl current now
    return ((value, written), g)
  else throw .overflow

/-- Deletes a live field; `none` if there is none. -/
def delete (f : Fields) (field : Bytes) (version : VersionPolicy) (now : UInt64) :
    Except HashError (Option (Record × ExpiryShift) × Fields) := do
  let policy ← version.validate
  match f.live? field now with
  | none => return (none, f)
  | some current =>
    policy.check (some current.version)
    return f.remove field

/-- Gives a live field a new expiry and version; `none` if there is no such field. -/
def setExpiry (f : Fields) (field : Bytes) (time : ExpireTime) (version : VersionPolicy)
    (now : UInt64) : Except HashError (Option Written × Fields) := do
  let policy ← version.validate
  match f.live? field now with
  | none => return (none, f)
  | some current =>
    policy.check (some current.version)
    let version := policy.successor current.version
    let expireAt := time.resolve now
    let (shift, g) := f.put field { current with version, expireAt }
    return (some { created := false, version, expireAt, shift }, g)

/-- Takes the expiry off a live field; `none` if there is none to take off. -/
def persist (f : Fields) (field : Bytes) (now : UInt64) : Option ExpiryShift × Fields :=
  if (f.live? field now).any (·.hasTtl) then f.putExpiry field 0 else (none, f)

/-- Sets the version of a live field; the flag says whether there was one. -/
def setVersion (f : Fields) (field : Bytes) (version now : UInt64) :
    Except HashError (Bool × Fields) :=
  if version = 0 then .error .badOption
  else match f.live? field now with
    | none => .ok (false, f)
    | some current =>
      .ok (true, { f with records := f.records.put field { current with version } })

end Fields
end ExpiringHash
