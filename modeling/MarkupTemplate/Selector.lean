import MarkupTemplate.Text.Basic

/-!
Selectors name the tags that a binding addresses: `name.class` or `#id`, then `:attribute` if an
attribute is meant instead of the content, then `!` if values go in as markup.
-/
namespace MarkupTemplate

inductive Quote where
  | double
  | single
  deriving DecidableEq

def Quote.char : Quote → Char
  | .double => '"'
  | .single => '\''

namespace Selector

abbrev Part := { t : Text // t ≠ [] }

def Part.ofText? : Text → Option Part
  | [] => none
  | c :: t => some ⟨c :: t, List.cons_ne_nil c t⟩

@[simp] theorem Part.ofText?_val (p : Part) : Part.ofText? p.val = some p := by
  obtain ⟨t, ht⟩ := p
  cases t with
  | nil => exact absurd rfl ht
  | cons c t => rfl

/-- What a tag has to carry. A missing name or class is no demand. -/
inductive Target where
  | element (name className : Option Part)
  | id (value : Part)
  deriving DecidableEq

end Selector

open Selector in
/-- Values are written into the attribute if there is one, and become the content otherwise. -/
structure Selector where
  target : Target
  attr : Option Part
  embed : Bool
  deriving DecidableEq

namespace Selector

/-- A class follows the first dot; without a dot, an id follows a leading `#`. -/
def Target.parse (t : Text) : Target :=
  match Text.cutFirst? ['.'] t with
  | some (name, className) => .element (Part.ofText? name) (Part.ofText? className)
  | none =>
    match t with
    | '#' :: value => (Part.ofText? value).elim (.element none none) .id
    | name => .element (Part.ofText? name) none

def splitEmbed (t : Text) : Text × Bool :=
  if t.getLast? = some '!' then (t.dropLast, true) else (t, false)

def splitAttr (t : Text) : Text × Option Part :=
  match Text.cutLast? [':'] t with
  | some (front, attr) => (front, Part.ofText? attr)
  | none => (t, none)

/-- Every text is a selector. Its marks are taken off from the right; an empty part is missing. -/
def parse (t : Text) : Selector :=
  let (front, embed) := splitEmbed t
  let (front, attr) := splitAttr front
  ⟨.parse front, attr, embed⟩

def Target.render : Target → Text
  | .element name className => name.elim [] (·.val) ++ className.elim [] ('.' :: ·.val)
  | .id value => '#' :: value.val

def render (s : Selector) : Text :=
  s.target.render ++ s.attr.elim [] (':' :: ·.val) ++ if s.embed then ['!'] else []

def any : Selector := ⟨.element none none, none, false⟩

/-- The form in which a tag gives `attr` the value `value`. -/
def assignment (attr value : Text) (q : Quote) : Text :=
  attr ++ '=' :: q.char :: value ++ [q.char]

def classValue? (q : Quote) (tag : Text) : Option Text := do
  let (_, rest) ← Text.cutFirst? ['c', 'l', 'a', 's', 's', '=', q.char] tag
  let (value, _) ← Text.cutFirst? [q.char] rest
  return value

/-- The classes of a tag; a value in double quotes goes before one in single quotes. -/
def classes (tag : Text) : List Text :=
  ((classValue? .double tag).or (classValue? .single tag)).elim [] (·.splitOn ' ')

/-- A tag meets a name that its own name begins with, and an id also by the attribute `name`. -/
def Target.accepts : Target → Text → Bool
  | .element name className, tag =>
    name.all (fun n => ('<' :: n.val).isPrefixOf tag) &&
      className.all (fun c => (classes tag).contains c.val)
  | .id value, tag =>
    [['i', 'd'], ['n', 'a', 'm', 'e']].any fun attr =>
      [Quote.double, Quote.single].any fun q => Text.hasMark (assignment attr value q) tag

def accepts (s : Selector) (tag : Text) : Bool := s.target.accepts tag

end Selector

end MarkupTemplate
