import MarkupTemplate.Text.Glyph

/-! Texts in double quotes, as messages show them: what could not be read there is escaped. -/
namespace MarkupTemplate.Text

/-- Six short escapes, and the code point in braces for a character without a glyph. -/
def quotedChar : Char → Text
  | '"' => ['\\', '"']
  | '\\' => ['\\', '\\']
  | '\n' => ['\\', 'n']
  | '\r' => ['\\', 'r']
  | '\t' => ['\\', 't']
  | '\x00' => ['\\', '0']
  | c => if hasGlyph c then [c] else ['\\', 'u', '\x7b'] ++ Nat.toDigits 16 c.toNat ++ ['\x7d']

def quoted (t : Text) : Text := '"' :: t.flatMap quotedChar ++ ['"']

end MarkupTemplate.Text
