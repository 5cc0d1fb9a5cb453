import MarkupTemplate.Json.Fault

/-! Reading JSON from the front of a text: the result is what was read and what is left. -/
namespace MarkupTemplate.Json

/-- Reading has stopped with so many bytes unread. -/
structure Stop where
  fault : Fault
  unread : Nat

abbrev Read (α : Type) := Except Stop (α × Text)

/-- Stops before `rest`. -/
def stopAt {α : Type} (fault : Fault) (rest : Text) : Except Stop α :=
  .error ⟨fault, Text.byteSize rest⟩

/-- Stops behind the first byte of `rest`, if there is one. -/
def stopIn {α : Type} (fault : Fault) (rest : Text) : Except Stop α :=
  .error ⟨fault, Text.byteSize rest - 1⟩

/-- A reader takes at least one character. -/
structure Reader (α : Type) where
  read : Text → Read α
  length_lt : ∀ {t a rest}, read t = .ok (a, rest) → rest.length < t.length

def isBlank (c : Char) : Bool := c = ' ' || c = '\n' || c = '\t' || c = '\r'

def skipBlanks (t : Text) : Text := t.dropWhile isBlank

theorem length_skipBlanks_le (t : Text) : (skipBlanks t).length ≤ t.length :=
  (List.dropWhile_sublist isBlank).length_le

/-- Takes the rest of a word whose first letter has been read. -/
def readWord : (word : Text) → Text → Except Stop Text
  | [], t => .ok t
  | _ :: _, [] => stopAt .endInValue []
  | c :: word, d :: t => if c = d then readWord word t else stopIn .badWord (d :: t)

theorem length_readWord_le {word t rest : Text} (h : readWord word t = .ok rest) :
    rest.length ≤ t.length := by
  induction word generalizing t with
  | nil => cases h; exact Nat.le_refl _
  | cons c word ih =>
    cases t with
    | nil => cases h
    | cons d t =>
      simp only [readWord] at h
      split at h
      · exact Nat.le_succ_of_le (ih h)
      · cases h

end MarkupTemplate.Json
