import ExpiringHash.Wire.Frame

/-!
# Reading frames

A frame is read from the front of a buffer: an answer is the frame and the bytes after it, or that
the frame is not complete yet, or why the buffer cannot start with a frame. Only the frames of
commands are accepted, that is bulk strings and arrays of bulk strings.
-/
namespace ExpiringHash

/-- How wire data breaks the protocol beyond a bad header. -/
inductive ProtocolFault where
  /-- A bulk string does not end with a line end. -/
  | missingLineEnd
  /-- A part of an array starts with this byte and not as a bulk string. -/
  | foreignArgument (first : UInt8)
  /-- A frame is no array. -/
  | notACommand
  /-- A stream ends within a frame. -/
  | truncatedStream
deriving DecidableEq, Repr

/-- Why wire data is not that of frames. -/
inductive FrameError where
  | unknownKind (first : UInt8)
  | invalidInteger (digits : Bytes)
  | invalidBulkLength (length : Int)
  | invalidArrayLength (length : Int)
  | protocol (fault : ProtocolFault)
  | tooLarge (size max : Nat)
deriving DecidableEq, Repr

/-- A byte in hexadecimal, as in `0x2b`. -/
def hexByte (b : UInt8) : String :=
  "0x" ++ String.ofList [Nat.digitChar (b.toNat / 16), Nat.digitChar (b.toNat % 16)]

def ProtocolFault.message : ProtocolFault → String
  | .missingLineEnd => "bulk string missing trailing CRLF"
  | .foreignArgument first =>
    "command arguments must be bulk strings, got prefix " ++ hexByte first
  | .notACommand => "expected a command array"
  | .truncatedStream => "truncated frame at end of stream"

def FrameError.message : FrameError → String
  | .unknownKind first => "unknown type prefix: " ++ hexByte first
  | .invalidInteger digits => "invalid integer: " ++ Utf8.lossy digits
  | .invalidBulkLength n => "invalid bulk string length: " ++ toString n
  | .invalidArrayLength n => "invalid array length: " ++ toString n
  | .protocol fault => "protocol error: " ++ fault.message
  | .tooLarge size max =>
    "message too large: " ++ toString size ++ " bytes (max: " ++ toString max ++ ")"

namespace Frame

/-- The largest bulk string accepted. -/
def maxBulkSize : Nat := 512 * 1024 * 1024

/-- The largest number of parts accepted. -/
def maxParts : Nat := 1024 * 1024

/-- What reading from the front of a buffer gives: a value and the bytes after it, or `none` if the
buffer is too short. -/
abbrev Reading (α : Type) := Except FrameError (Option (α × Bytes))

/-- The first line of a buffer and the bytes after its line end. -/
def line? : Bytes → Option (Bytes × Bytes)
  | [] => none
  | Ascii.carriageReturn :: Ascii.lineFeed :: rest => some ([], rest)
  | b :: rest => (line? rest).map fun (l, r) => (b :: l, r)

/-- The number on the first line. -/
def readLength (bs : Bytes) : Reading Int :=
  match line? bs with
  | none => .ok none
  | some (digits, rest) =>
    match Numeral.readInt64? digits with
    | some n => .ok (some (n, rest))
    | none => .error (.invalidInteger digits)

/-- The bytes of a bulk string whose length is known. -/
def readData (length : Nat) (bs : Bytes) : Reading Bytes :=
  match bs.drop length with
  | a :: b :: rest =>
    if a = Ascii.carriageReturn ∧ b = Ascii.lineFeed then .ok (some (bs.take length, rest))
    else .error (.protocol .missingLineEnd)
  | _ => .ok none

/-- A bulk string after its `$`. -/
def readBulk (bs : Bytes) : Reading Bytes :=
  match readLength bs with
  | .error e => .error e
  | .ok none => .ok none
  | .ok (some (n, rest)) =>
    if n < 0 then .error (.invalidBulkLength n)
    else if maxBulkSize < n.toNat then .error (.tooLarge n.toNat maxBulkSize)
    else readData n.toNat rest

/-- A number of bulk strings. -/
def readBulks : Nat → Bytes → Reading (List Bytes)
  | 0, bs => .ok (some ([], bs))
  | _ + 1, [] => .ok none
  | count + 1, b :: bs =>
    if b ≠ Ascii.dollar then .error (.protocol (.foreignArgument b))
    else match readBulk bs with
      | .error e => .error e
      | .ok none => .ok none
      | .ok (some (data, rest)) =>
        match readBulks count rest with
        | .error e => .error e
        | .ok none => .ok none
        | .ok (some (datas, rest)) => .ok (some (data :: datas, rest))

/-- An array of bulk strings after its `*`. -/
def readArray (bs : Bytes) : Reading (List Bytes) :=
  match readLength bs with
  | .error e => .error e
  | .ok none => .ok none
  | .ok (some (n, rest)) =>
    if n < 0 then .error (.invalidArrayLength n)
    else if maxParts < n.toNat then .error (.tooLarge n.toNat maxParts)
    else readBulks n.toNat rest

def read : Bytes → Reading Frame
  | [] => .ok none
  | b :: bs =>
    if b = Ascii.star then
      match readArray bs with
      | .error e => .error e
      | .ok r => .ok (r.map fun (parts, rest) => (ofArgs parts, rest))
    else if b = Ascii.dollar then
      match readBulk bs with
      | .error e => .error e
      | .ok r => .ok (r.map fun (data, rest) => (.bulk data, rest))
    else .error (.unknownKind b)

theorem length_line? {bs l rest : Bytes} (h : line? bs = some (l, rest)) :
    rest.length < bs.length := by
  fun_induction line? bs generalizing l with
  | case1 => cases h
  | case2 =>
    cases h
    simp only [List.length_cons]
    omega
  | case3 =>
    rename_i ih
    simp only [Option.map_eq_some_iff, Prod.exists, Prod.mk.injEq] at h
    obtain ⟨l', r', hr, _, rfl⟩ := h
    exact Nat.lt_succ_of_lt (ih hr)

theorem length_readLength {bs rest : Bytes} {n : Int}
    (h : readLength bs = .ok (some (n, rest))) : rest.length < bs.length := by
  unfold readLength at h
  split at h
  · cases h
  · next hl =>
    split at h
    · cases h
      exact length_line? hl
    · cases h

theorem length_readData_le {length : Nat} {bs data rest : Bytes}
    (h : readData length bs = .ok (some (data, rest))) : rest.length ≤ bs.length := by
  unfold readData at h
  split at h
  · next a b r hd =>
    split at h
    · cases h
      have := congrArg List.length hd
      simp only [List.length_drop, List.length_cons] at this
      omega
    · cases h
  · cases h

theorem length_readBulk {bs data rest : Bytes} (h : readBulk bs = .ok (some (data, rest))) :
    rest.length < bs.length := by
  unfold readBulk at h
  split at h
  · cases h
  · cases h
  · next hl =>
    split at h
    · cases h
    · split at h
      · cases h
      · exact Nat.lt_of_le_of_lt (length_readData_le h) (length_readLength hl)

theorem length_readBulks_le {count : Nat} {bs rest : Bytes} {datas : List Bytes}
    (h : readBulks count bs = .ok (some (datas, rest))) : rest.length ≤ bs.length := by
  fun_induction readBulks count bs generalizing datas with
  | case1 =>
    cases h
    exact Nat.le_refl _
  | case2 | case3 | case4 | case5 | case6 | case7 => cases h
  | case8 =>
    rename_i hb _ _ hr ih
    cases h
    have h1 := length_readBulk hb
    have h2 := ih hr
    simp only [List.length_cons]
    omega

theorem length_readArray {bs rest : Bytes} {datas : List Bytes}
    (h : readArray bs = .ok (some (datas, rest))) : rest.length < bs.length := by
  unfold readArray at h
  split at h
  · cases h
  · cases h
  · next hl =>
    split at h
    · cases h
    · split at h
      · cases h
      · exact Nat.lt_of_le_of_lt (length_readBulks_le h) (length_readLength hl)

/-- Reading a frame takes at least its first byte. -/
theorem length_read {bs rest : Bytes} {f : Frame} (h : read bs = .ok (some (f, rest))) :
    rest.length < bs.length := by
  unfold read at h
  split at h
  · cases h
  · split at h
    · split at h
      · cases h
      · next r hr =>
        cases r with
        | none => cases h
        | some p =>
          cases h
          exact Nat.lt_succ_of_lt (length_readArray hr)
    · split at h
      · split at h
        · cases h
        · next r hr =>
          cases r with
          | none => cases h
          | some p =>
            cases h
            exact Nat.lt_succ_of_lt (length_readBulk hr)
      · cases h

end Frame
end ExpiringHash
