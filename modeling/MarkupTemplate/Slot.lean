import MarkupTemplate.Selector
import MarkupTemplate.Token

/-! The place in a segment where the value of an attribute stands, or where it is to be written. -/
namespace MarkupTemplate

structure Slot where
  before : Text
  value : Text
  after : Text
  deriving DecidableEq

namespace Slot

def fill (s : Slot) (value : Text) : Text := s.before ++ value ++ s.after

/--
The last value of `attr` in the first tag, behind `<` and at least one more character. The name may
be the end of a longer one, and the value ends at the next such quote, wherever that stands.
-/
def existing? (attr : Text) (q : Quote) (segment : Text) : Option Slot :=
  let mark := attr ++ ['=', q.char]
  match Text.cutLast? mark (segment.takeWhile (· ≠ '>')) with
  | some ('<' :: c :: front, rest) =>
    (Text.cutFirst? [q.char] (rest ++ segment.dropWhile (· ≠ '>'))).map fun (value, after) =>
      ⟨'<' :: c :: front ++ mark, value, q.char :: after⟩
  | _ => none

def splitName : Text → Text × Text
  | '<' :: t => ('<' :: t.takeWhile (!Token.endsName ·), t.dropWhile (!Token.endsName ·))
  | t => ([], t)

/-- A slot for an attribute that is still to be written, directly behind the tag name. -/
def fresh (attr segment : Text) : Slot :=
  let (name, rest) := splitName segment
  ⟨name ++ ' ' :: attr ++ ['=', '"'], [], '"' :: rest⟩

/-- A value in double quotes goes before one in single quotes. -/
def ofSegment (attr segment : Text) : Slot :=
  ((existing? attr .double segment).or (existing? attr .single segment)).getD (fresh attr segment)

theorem fill_existing? {attr segment : Text} {q : Quote} {s : Slot}
    (h : existing? attr q segment = some s) : s.fill s.value = segment := by
  unfold existing? at h
  simp only at h
  split at h
  · next c front rest hc =>
    obtain ⟨⟨value, after⟩, hv, rfl⟩ := Option.map_eq_some_iff.mp h
    have h1 := Text.eq_of_cutLast? hc
    have h2 := Text.eq_of_cutFirst? hv
    have h3 := List.takeWhile_append_dropWhile (p := (· ≠ '>')) (l := segment)
    rw [h1, List.append_assoc, h2] at h3
    simpa [fill] using h3
  · cases h

theorem splitName_append (t : Text) : (splitName t).1 ++ (splitName t).2 = t := by
  unfold splitName
  split <;> simp [List.takeWhile_append_dropWhile]

end Slot

end MarkupTemplate
