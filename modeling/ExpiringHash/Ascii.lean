import ExpiringHash.Bytes

/-!
# ASCII

The bytes that the formats of this library give a meaning of their own.
-/
namespace ExpiringHash.Ascii

@[match_pattern] def lineFeed : UInt8 := 10
@[match_pattern] def carriageReturn : UInt8 := 13
@[match_pattern] def dollar : UInt8 := 36
@[match_pattern] def star : UInt8 := 42
@[match_pattern] def plus : UInt8 := 43
@[match_pattern] def minus : UInt8 := 45
@[match_pattern] def point : UInt8 := 46
@[match_pattern] def zero : UInt8 := 48
@[match_pattern] def nine : UInt8 := 57
@[match_pattern] def question : UInt8 := 63
@[match_pattern] def openBracket : UInt8 := 91
@[match_pattern] def backslash : UInt8 := 92
@[match_pattern] def closeBracket : UInt8 := 93
@[match_pattern] def caret : UInt8 := 94

end ExpiringHash.Ascii
