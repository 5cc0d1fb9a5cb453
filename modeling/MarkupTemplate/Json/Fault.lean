import MarkupTemplate.Decimal.Shortest
import MarkupTemplate.Text.Quoted

/-! What can be wrong with a JSON text that is to hold values or bindings. -/
namespace MarkupTemplate.Json

/-- A number is an integer if it is written as one and has 64 bits, and a double otherwise. -/
inductive Number where
  | integer (n : Int)
  | double (x : Float)

/-- Doubles are written out in full from `1e-5` up to, but not including, `1e+16`. -/
def Number.style : Decimal.Style := ⟨-5, 15, true⟩

inductive Scalar where
  | null
  | boolean (b : Bool)
  | number (n : Number)
  | text (t : Text)

def Scalar.describe : Scalar → Text
  | null => "null".toList
  | boolean true => "boolean `true`".toList
  | boolean false => "boolean `false`".toList
  | number (.integer n) => "integer `".toList ++ Decimal.intText n ++ ['`']
  | number (.double x) => "floating point `".toList ++ Decimal.floatText Number.style x ++ ['`']
  | text t => "string ".toList ++ Text.quoted t

inductive Fault where
  | endInValue
  | endInList
  | endInObject
  | endInString
  | noValue
  | badWord
  | badNumber
  | numberTooLarge
  | badEscape
  | controlCharacter
  | loneSurrogate
  | noSecondSurrogate
  | noListSeparator
  | noObjectSeparator
  | noColon
  | trailingComma
  | badKey
  | tooDeep
  | trailingText
  | otherValue
  /-- A scalar, or a list if there is none, where bindings are expected. -/
  | notBindings (found : Option Scalar)

def Fault.message : Fault → Text
  | endInValue => "EOF while parsing a value".toList
  | endInList => "EOF while parsing a list".toList
  | endInObject => "EOF while parsing an object".toList
  | endInString => "EOF while parsing a string".toList
  | noValue => "expected value".toList
  | badWord => "expected ident".toList
  | badNumber => "invalid number".toList
  | numberTooLarge => "number out of range".toList
  | badEscape => "invalid escape".toList
  | controlCharacter => "control character (\\u0000-\\u001F) found while parsing a string".toList
  | loneSurrogate => "lone leading surrogate in hex escape".toList
  | noSecondSurrogate => "unexpected end of hex escape".toList
  | noListSeparator => "expected `,` or `]`".toList
  | noObjectSeparator => "expected `,` or `\x7d`".toList
  | noColon => "expected `:`".toList
  | trailingComma => "trailing comma".toList
  | badKey => "key must be a string".toList
  | tooDeep => "recursion limit exceeded".toList
  | trailingText => "trailing characters".toList
  | otherValue => "data did not match any variant of untagged enum Value".toList
  | notBindings found =>
    "invalid type: ".toList ++ found.elim "sequence".toList Scalar.describe ++
      ", expected a map of selector to null, string or sequence of strings".toList

end MarkupTemplate.Json
