import ExpiringHash.Fields.Basic
import ExpiringHash.Hash.Digest
import ExpiringHash.Replication.Command

/-!
# Containers

A container is the value of a key: fields, and the key that it is filed under.
-/
namespace ExpiringHash

/-- Fields under a key. -/
structure Container where
  key : Bytes
  fields : Fields := ∅
deriving DecidableEq

namespace Container

def digest (c : Container) : UInt64 :=
  (c.fields.records.toList.foldl (fun d r => d.addSequence [r.1, r.2.value]) Digest.empty).value

/-- The commands that build the container anew, fields that have expired left out. -/
def rebuild (c : Container) (now : UInt64) : List Command :=
  (c.fields.live now).map fun r => .set c.key r.1 r.2.value r.2.version r.2.expireAt

end Container
end ExpiringHash
