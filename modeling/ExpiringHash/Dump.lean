import ExpiringHash.Container
import ExpiringHash.Error

/-!
# Dumps

The binary form of a container: the number of fields in eight bytes, the key, and for each field its
name, its version and expiry in eight bytes each, and its value. Numbers have the most significant
byte first; a string follows its length in four bytes. Fields that have expired are kept.
-/
namespace ExpiringHash.Container

/-- A string after its length. -/
def dumpText (bs : Bytes) : Bytes := Word.bigEndian 4 bs.length ++ bs

def dumpField (field : Bytes) (r : Record) : Bytes :=
  dumpText field ++ Word.bigEndian 8 r.version.toNat ++ Word.bigEndian 8 r.expireAt.toNat ++
    dumpText r.value

def dumpHeader (c : Container) : Bytes := Word.bigEndian 8 c.fields.size ++ dumpText c.key

def dumpFields (c : Container) : List Bytes :=
  c.fields.records.toList.map fun r => dumpField r.1 r.2

def dump (c : Container) : Bytes := c.dumpHeader ++ c.dumpFields.flatten

/-- Cuts a number of bytes from the front. -/
def cut? : Nat → Bytes → Option (Bytes × Bytes)
  | 0, bs => some ([], bs)
  | _ + 1, [] => none
  | n + 1, b :: bs => (cut? n bs).map fun (piece, rest) => (b :: piece, rest)

theorem cut?_append (bs rest : Bytes) : cut? bs.length (bs ++ rest) = some (bs, rest) := by
  induction bs with
  | nil => rfl
  | cons b bs ih => simp [cut?, ih]

/-- What was cut off and what is left make up the bytes. -/
theorem append_of_cut? {n : Nat} {bs piece rest : Bytes} (h : cut? n bs = some (piece, rest)) :
    bs = piece ++ rest ∧ piece.length = n := by
  induction n generalizing bs piece with
  | zero =>
    cases h
    exact ⟨rfl, rfl⟩
  | succ n ih =>
    cases bs with
    | nil => cases h
    | cons b bs =>
      obtain ⟨⟨p, r⟩, hc, he⟩ := Option.map_eq_some_iff.mp h
      cases he
      obtain ⟨rfl, rfl⟩ := ih hc
      exact ⟨rfl, rfl⟩

/-- Reads bytes of a part of a dump, which is truncated if it is shorter. -/
def takeBytes (part : DumpPart) (n : Nat) (bs : Bytes) : Except DumpFault (Bytes × Bytes) :=
  match cut? n bs with
  | some r => .ok r
  | none => .error (.truncated part)

/-- Reads a number of eight bytes. -/
def takeWord (part : DumpPart) (bs : Bytes) : Except DumpFault (UInt64 × Bytes) := do
  let (word, rest) ← takeBytes part 8 bs
  return ((Word.ofBigEndian word).toUInt64, rest)

def takeText (part : DumpPart) (bs : Bytes) : Except DumpFault (Bytes × Bytes) := do
  let (length, rest) ← takeBytes part 4 bs
  takeBytes part (Word.ofBigEndian length) rest

def takeField (bs : Bytes) : Except DumpFault ((Bytes × Record) × Bytes) := do
  let (field, bs) ← takeText .fieldName bs
  let (version, bs) ← takeWord .version bs
  let (expireAt, bs) ← takeWord .expireTime bs
  let (value, bs) ← takeText .value bs
  return ((field, { value, version, expireAt }), bs)

/-- Reads a number of fields on top of those read before. -/
def takeFields : Nat → Fields → Bytes → Except DumpFault (Fields × Bytes)
  | 0, f, bs => .ok (f, bs)
  | n + 1, f, bs => do
    let ((field, record), bs) ← takeField bs
    if (f.get? field).isSome then throw (.duplicateField field)
    takeFields n (f.put field record).2 bs

def ofDump (bs : Bytes) : Except DumpFault Container := do
  let (count, bs) ← takeWord .fieldCount bs
  let (key, bs) ← takeText .key bs
  let (fields, bs) ← takeFields count.toNat ∅ bs
  if bs.isEmpty then return { key, fields } else throw (.trailing bs.length)

end ExpiringHash.Container
