import ExpiringHash.Hash.Sip

/-!
# Digests

A digest is made of sequences of byte strings. Each sequence is hashed by itself and the hashes are
combined by exclusive or, so the order of the sequences does not matter.
-/
namespace ExpiringHash

/-- The digest of the sequences so far, and the sequence under way. -/
structure Digest where
  /-- The bytes to hash at the end of the sequence. -/
  pending : Bytes
  value : UInt64
deriving DecidableEq, Repr

namespace Digest

def empty : Digest := ⟨[], 0⟩

def addBuffer (d : Digest) (data : Bytes) : Digest :=
  { d with pending := d.pending ++ Sip.lengthFirst data }

def endSequence (d : Digest) : Digest := ⟨[], d.value ^^^ Sip.hash d.pending⟩

/-- Adds a whole sequence. -/
def addSequence (d : Digest) (parts : List Bytes) : Digest :=
  (parts.foldl addBuffer d).endSequence

theorem pending_foldl_addBuffer (d : Digest) (parts : List Bytes) :
    parts.foldl addBuffer d = ⟨d.pending ++ parts.flatMap Sip.lengthFirst, d.value⟩ := by
  induction parts generalizing d with
  | nil => simp
  | cons part parts ih => simp [ih, addBuffer]

/-- A sequence that starts afresh adds the hash of its parts and leaves nothing pending. -/
theorem addSequence_eq (value : UInt64) (parts : List Bytes) :
    addSequence ⟨[], value⟩ parts =
      ⟨[], value ^^^ Sip.hash (parts.flatMap Sip.lengthFirst)⟩ := by
  rw [addSequence, pending_foldl_addBuffer]
  simp [endSequence]

end Digest
end ExpiringHash
