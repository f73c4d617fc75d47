import ExpiringHash.Word

/-!
# SipHash-1-3

The keyed 64-bit hash SipHash with one round per block and three at the end, under the zero key.
Positions of fields in a scan and digests of containers are made of it, so they do not change from
run to run.
-/
namespace ExpiringHash.Sip

/-- The four lanes of the hash. -/
structure State where
  v0 : UInt64
  v1 : UInt64
  v2 : UInt64
  v3 : UInt64
deriving DecidableEq, Repr

/-- Rotation towards the high bits. -/
def rotate (x n : UInt64) : UInt64 := (x <<< n) ||| (x >>> (64 - n))

def start : State :=
  ⟨0x736f6d6570736575, 0x646f72616e646f6d, 0x6c7967656e657261, 0x7465646279746573⟩

def State.round (s : State) : State :=
  let v0 := s.v0 + s.v1
  let v2 := s.v2 + s.v3
  let v1 := rotate s.v1 13 ^^^ v0
  let v3 := rotate s.v3 16 ^^^ v2
  let v0 := rotate v0 32
  let v2 := v2 + v1
  let v0 := v0 + v3
  let v1 := rotate v1 17 ^^^ v2
  let v3 := rotate v3 21 ^^^ v0
  ⟨v0, v1, rotate v2 32, v3⟩

def State.absorb (s : State) (block : UInt64) : State :=
  let t := State.round { s with v3 := s.v3 ^^^ block }
  { t with v0 := t.v0 ^^^ block }

/-- The block made of at most eight bytes. -/
def blockOf (bs : Bytes) : UInt64 := (Word.ofLittleEndian bs).toUInt64

/-- Takes in all whole blocks; fewer than eight bytes are left. -/
def absorbAll (s : State) : Bytes → State × Bytes
  | b₀ :: b₁ :: b₂ :: b₃ :: b₄ :: b₅ :: b₆ :: b₇ :: rest =>
    absorbAll (s.absorb (blockOf [b₀, b₁, b₂, b₃, b₄, b₅, b₆, b₇])) rest
  | tail => (s, tail)

/-- The hash of a message. The last block holds the bytes left over and the length modulo 256. -/
def hash (message : Bytes) : UInt64 :=
  let (s, tail) := absorbAll start message
  let last := blockOf tail ||| (message.length.toUInt64 <<< 56)
  let s := s.absorb last
  let s := { s with v2 := s.v2 ^^^ 0xff }.round.round.round
  s.v0 ^^^ s.v1 ^^^ s.v2 ^^^ s.v3

/-- A byte string after its length in eight bytes, so that neighbours cannot run together. -/
def lengthFirst (bs : Bytes) : Bytes := Word.littleEndian 8 bs.length ++ bs

end ExpiringHash.Sip
