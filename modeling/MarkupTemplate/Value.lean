import MarkupTemplate.Text.Basic

/-! What is written into a template: values, and lists of selectors with their values. -/
namespace MarkupTemplate

inductive Value where
  | absent
  | text (t : Text)
  | list (ts : List Text)
  deriving DecidableEq

namespace Value

/-- One item for each copy of an element to write; an absent value is one item without text. -/
def items : Value → List (Option Text)
  | absent => [none]
  | text t => [some t]
  | list ts => ts.map some

def isAbsent : Value → Bool
  | absent => true
  | _ => false

def ofOption : Option Text → Value
  | none => absent
  | some t => text t

end Value

/-- The selector is kept as it was given. -/
structure Binding where
  selector : Text
  value : Value
  deriving DecidableEq

/-- Bindings in the order in which they are applied; selectors may be repeated. -/
abbrev Bindings := List Binding

namespace Bindings

def get? (bs : Bindings) (selector : Text) : Option Value :=
  (bs.find? (·.selector = selector)).map (·.value)

end Bindings

end MarkupTemplate
