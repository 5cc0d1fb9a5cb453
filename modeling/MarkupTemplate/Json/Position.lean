import MarkupTemplate.Text.Basic

/-! Lines and columns of a text. -/
namespace MarkupTemplate.Json

/-- Lines count from one, columns are the bytes before a place in its line. -/
structure Position where
  line : Nat
  column : Nat
  deriving DecidableEq

namespace Position

/-- Goes on by so many bytes, at most to the end of the text. -/
def advance : Position → Nat → Text → Position
  | p, _, [] => p
  | p, bytes, c :: t =>
    if bytes < c.utf8Size then ⟨p.line, p.column + bytes⟩
    else
      advance (if c = '\n' then ⟨p.line + 1, 0⟩ else ⟨p.line, p.column + c.utf8Size⟩)
        (bytes - c.utf8Size) t

def ofOffset (t : Text) (bytes : Nat) : Position := advance ⟨1, 0⟩ bytes t

end Position

end MarkupTemplate.Json
