import MarkupTemplate.Value

/-! Values and bindings as JSON without blanks; bindings are an object that keeps their order. -/
namespace MarkupTemplate.Json

/-- Only the quote, the backslash and control characters are escaped, as shortly as possible. -/
def escapedChar (c : Char) : Text :=
  match c with
  | '"' => ['\\', '"']
  | '\\' => ['\\', '\\']
  | '\x08' => ['\\', 'b']
  | '\t' => ['\\', 't']
  | '\n' => ['\\', 'n']
  | '\x0c' => ['\\', 'f']
  | '\r' => ['\\', 'r']
  | c =>
    if c.toNat < 0x20 then
      ['\\', 'u', '0', '0', Nat.digitChar (c.toNat / 16), Nat.digitChar (c.toNat % 16)]
    else [c]

def writeText (t : Text) : Text := '"' :: t.flatMap escapedChar ++ ['"']

def writeValue : Value → Text
  | .absent => ['n', 'u', 'l', 'l']
  | .text t => writeText t
  | .list ts => '[' :: [','].intercalate (ts.map writeText) ++ [']']

def writeBinding (b : Binding) : Text := writeText b.selector ++ ':' :: writeValue b.value

def writeBindings (bs : Bindings) : Text :=
  '\x7b' :: [','].intercalate (bs.map writeBinding) ++ ['\x7d']

end MarkupTemplate.Json
