import MarkupTemplate.Fill

/-! Fragments that are filled one after the other, with the results of earlier ones as values. -/
namespace MarkupTemplate

namespace Fragment

/-- A text, or the result of an earlier fragment by its number. -/
inductive Item where
  | text (t : Text)
  | result (i : Nat)

inductive Argument where
  | absent
  | one (item : Item)
  | list (items : List Item)

end Fragment

structure Fragment where
  template : Text
  arguments : List (Text × Fragment.Argument)

namespace Fragment

/-- A result that does not exist is empty. -/
def Item.resolve (results : List Text) : Item → Text
  | text t => t
  | result i => results[i]?.getD []

def Argument.resolve (results : List Text) : Argument → Value
  | absent => .absent
  | one item => .text (item.resolve results)
  | list items => .list (items.map (·.resolve results))

def bindings (results : List Text) (f : Fragment) : Bindings :=
  f.arguments.map fun (selector, argument) => ⟨selector, argument.resolve results⟩

def fill (results : List Text) (f : Fragment) : Except ShapeError Text :=
  return (← fillAll (f.bindings results) f.template).text

end Fragment

/-- The results of fragments that can refer to `results`; the first that fails is the last. -/
def composeFrom (results : List Text) : List Fragment → List (Except ShapeError Text)
  | [] => []
  | f :: fs =>
    match f.fill results with
    | .ok t => .ok t :: composeFrom (results ++ [t]) fs
    | .error e => [.error e]

def compose (fs : List Fragment) : List (Except ShapeError Text) := composeFrom [] fs

end MarkupTemplate
