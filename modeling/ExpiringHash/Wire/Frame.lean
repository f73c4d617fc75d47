import ExpiringHash.Text.Numeral
import ExpiringHash.Text.Utf8

/-!
# Frames

The wire form of commands: a bulk string is `$`, its length, its bytes; an array is `*`, the number
of its parts, the parts. Each line ends with CR LF, and so does a bulk string.
-/
namespace ExpiringHash

inductive Frame where
  | bulk (data : Bytes)
  | array (parts : List Frame)
deriving Repr, Inhabited

namespace Frame

def lineEnd : Bytes := [Ascii.carriageReturn, Ascii.lineFeed]

/-- The line in front of a frame: its kind and its length. -/
def header (kind : UInt8) (length : Nat) : Bytes := kind :: Numeral.ofNat length ++ lineEnd

def bulkBytes (data : Bytes) : Bytes := header Ascii.dollar data.length ++ data ++ lineEnd

mutual

def serialize : Frame → Bytes
  | .bulk data => bulkBytes data
  | .array parts => header Ascii.star parts.length ++ serializeAll parts

def serializeAll : List Frame → Bytes
  | [] => []
  | f :: fs => f.serialize ++ serializeAll fs

end

/-- The frame of a command, given by its arguments. -/
def ofArgs (args : List Bytes) : Frame := .array (args.map .bulk)

/-- The bytes of a bulk string. -/
def bulk? : Frame → Option Bytes
  | .bulk data => some data
  | .array _ => none

/-- The arguments of a command: the parts of an array that holds bulk strings only. -/
def args? : Frame → Option (List Bytes)
  | .bulk _ => none
  | .array parts => parts.mapM bulk?

/-- A bulk string for people: quoted if it is text, else its length only. -/
def bulkText (data : Bytes) : String :=
  match Utf8.decode? data with
  | some cs => "\"" ++ String.ofList cs ++ "\""
  | none => "(binary data, " ++ toString data.length ++ " bytes)"

mutual

/-- A frame for people. -/
def text : Frame → String
  | .bulk data => bulkText data
  | .array parts => " ".intercalate (textAll parts)

def textAll : List Frame → List String
  | [] => []
  | f :: fs => f.text :: textAll fs

end

theorem mapM_bulk?_map (args : List Bytes) : (args.map bulk).mapM bulk? = some args := by
  induction args with
  | nil => rfl
  | cons a as ih => simp [List.mapM_cons, bulk?, ih]

theorem args?_ofArgs (args : List Bytes) : (ofArgs args).args? = some args :=
  mapM_bulk?_map args

end Frame
end ExpiringHash
