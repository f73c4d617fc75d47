import ExpiringHash.Wire.Parser

/-!
# Replicated commands

Every effect of an engine is described by one command with absolute versions and absolute times, so
that applying it takes no clock and no decision. A command travels as a list of arguments; keywords
are recognised in either case of ASCII letters.
-/
namespace ExpiringHash

inductive Keyword where
  | set
  | delete
  | expireAt
  | persist
  | setVersion
  | deleteKey
deriving DecidableEq, Repr

namespace Keyword

def letters : Keyword → List Char
  | .set => ['F', 'S', 'E', 'T']
  | .delete => ['F', 'D', 'E', 'L']
  | .expireAt => ['F', 'P', 'E', 'X', 'P', 'I', 'R', 'E', 'A', 'T']
  | .persist => ['F', 'P', 'E', 'R', 'S', 'I', 'S', 'T']
  | .setVersion => ['F', 'S', 'E', 'T', 'V', 'E', 'R']
  | .deleteKey => ['D', 'E', 'L']

def name (k : Keyword) : String := String.ofList k.letters

def bytes (k : Keyword) : Bytes := Bytes.ofChars k.letters

def all : List Keyword := [set, delete, expireAt, persist, setVersion, deleteKey]

def ofBytes? (arg : Bytes) : Option Keyword := all.find? fun k => Bytes.sameFolded k.bytes arg

end Keyword

/-- An effect on one key. -/
inductive Command where
  /-- Store a record; `expiry` is 0 for none. -/
  | set (key field value : Bytes) (version expiry : UInt64)
  | delete (key field : Bytes)
  | expireAt (key field : Bytes) (expiry version : UInt64)
  | persist (key field : Bytes)
  | setVersion (key field : Bytes) (version : UInt64)
  | deleteKey (key : Bytes)
deriving DecidableEq, Repr

/-- Why arguments are not those of a command. -/
inductive DecodeError where
  | empty
  | unknownCommand (name : Bytes)
  | wrongArguments (keyword : Keyword)
  | invalidNumber (text : Bytes)
  | frame (error : FrameError)
deriving DecidableEq, Repr

/-- A name that is no keyword, in capitals if it is text. -/
def DecodeError.shownName (name : Bytes) : String :=
  match Utf8.decode? name with
  | some cs => String.ofList (cs.map Char.toUpper)
  | none => Utf8.lossy name

def DecodeError.message : DecodeError → String
  | .empty => "empty command"
  | .unknownCommand name => "unknown replicated command '" ++ shownName name ++ "'"
  | .wrongArguments keyword => "wrong arguments for '" ++ keyword.name ++ "'"
  | .invalidNumber text => "invalid number '" ++ Utf8.lossy text ++ "'"
  | .frame error => error.message

namespace Command

def keyword : Command → Keyword
  | .set .. => .set
  | .delete .. => .delete
  | .expireAt .. => .expireAt
  | .persist .. => .persist
  | .setVersion .. => .setVersion
  | .deleteKey .. => .deleteKey

/-- The key that the command changes. -/
def key : Command → Bytes
  | .set key .. | .delete key .. | .expireAt key .. | .persist key .. | .setVersion key ..
  | .deleteKey key => key

/-- The word in front of a version. -/
def absoluteWord : Bytes := Bytes.ofChars ['A', 'B', 'S']

/-- The word in front of an expiry. -/
def expiryWord : Bytes := Bytes.ofChars ['P', 'X', 'A', 'T']

def number (n : UInt64) : Bytes := Numeral.ofNat n.toNat

/-- The expiry of a stored record, left out if there is none. -/
def expiryArgs (expiry : UInt64) : List Bytes :=
  if 0 < expiry then [expiryWord, number expiry] else []

def operands : Command → List Bytes
  | .set key field value version expiry =>
    [key, field, value, absoluteWord, number version] ++ expiryArgs expiry
  | .delete key field | .persist key field => [key, field]
  | .expireAt key field expiry version =>
    [key, field, number expiry, absoluteWord, number version]
  | .setVersion key field version => [key, field, number version]
  | .deleteKey key => [key]

/-- The arguments of a command, keyword first. -/
def args (c : Command) : List Bytes := c.keyword.bytes :: c.operands

def frame (c : Command) : Frame := .ofArgs c.args

def readNumber (arg : Bytes) : Except DecodeError UInt64 :=
  match Numeral.readUInt64? arg with
  | some n => .ok n
  | none => .error (.invalidNumber arg)

/-- Reads the arguments after a keyword. Numbers are read in the order version, expiry, except that
a change of expiry has the expiry first. -/
def ofOperands (k : Keyword) (operands : List Bytes) : Except DecodeError Command :=
  match k, operands with
  | .set, [key, field, value, word, version] =>
    if Bytes.sameFolded word absoluteWord then do
      return .set key field value (← readNumber version) 0
    else .error (.wrongArguments k)
  | .set, [key, field, value, word, version, word', expiry] =>
    if Bytes.sameFolded word absoluteWord && Bytes.sameFolded word' expiryWord then do
      return .set key field value (← readNumber version) (← readNumber expiry)
    else .error (.wrongArguments k)
  | .delete, [key, field] => .ok (.delete key field)
  | .expireAt, [key, field, expiry, word, version] =>
    if Bytes.sameFolded word absoluteWord then do
      return .expireAt key field (← readNumber expiry) (← readNumber version)
    else .error (.wrongArguments k)
  | .persist, [key, field] => .ok (.persist key field)
  | .setVersion, [key, field, version] => do
    return .setVersion key field (← readNumber version)
  | .deleteKey, [key] => .ok (.deleteKey key)
  | _, _ => .error (.wrongArguments k)

def ofArgs : List Bytes → Except DecodeError Command
  | [] => .error .empty
  | name :: operands =>
    match Keyword.ofBytes? name with
    | none => .error (.unknownCommand name)
    | some k => ofOperands k operands

end Command
end ExpiringHash
