import MarkupTemplate.Element
import MarkupTemplate.Entity
import MarkupTemplate.Segment
import MarkupTemplate.Slot
import MarkupTemplate.Value

/-!
Filling a document: every element that a selector accepts is written once for each item of a value,
and all else stays.
-/
namespace MarkupTemplate

/-- The segment is not an opening tag, content and a closing tag. -/
structure ShapeError where
  selector : Selector
  segment : Text
  deriving DecidableEq

namespace ShapeError

def message (e : ShapeError) : Text :=
  "Cannot replace content of `".toList ++ e.segment ++ "` for `".toList ++ e.selector.render ++
    "`: expected <open>...</close>".toList

end ShapeError

/-- An embedded value is markup already. -/
def Selector.written (s : Selector) (value : Text) : Text :=
  if s.embed then value else Entity.encode value

/--
Puts one item into a segment. An item without text removes the segment, but leaves an attribute as
it is.
-/
def putItem (s : Selector) (segment : Text) : Option Text → Except ShapeError Text
  | none => .ok (if s.attr.isSome then segment else [])
  | some value =>
    match s.attr with
    | some attr => .ok ((Slot.ofSegment attr segment).fill (s.written value))
    | none =>
      match Element.ofText? segment with
      | some e => .ok (e.opening ++ s.written value ++ e.closing)
      | none => .error ⟨s, segment⟩

/-- A document after a filling, and whether the filling found an element at all. -/
structure Filled where
  text : Text
  touched : Bool
  deriving DecidableEq

def Segment.fill (s : Selector) (items : List (Option Text)) (segment : Segment) :
    Except ShapeError Text :=
  if segment.matched then return (← items.mapM (putItem s segment.text)).flatten
  else return segment.text

def fill (s : Selector) (value : Value) (document : Text) : Except ShapeError Filled := do
  let segments := segments s document
  if segments.any (·.matched) then
    return ⟨(← segments.mapM (Segment.fill s value.items)).flatten, true⟩
  else return ⟨document, false⟩

def Binding.fill (b : Binding) (document : Text) : Except ShapeError Filled :=
  MarkupTemplate.fill (Selector.parse b.selector) b.value document

def Filled.fill (b : Binding) (f : Filled) : Except ShapeError Filled := do
  let g ← b.fill f.text
  return ⟨g.text, f.touched || g.touched⟩

def fillAll (bs : Bindings) (template : Text) : Except ShapeError Filled :=
  bs.foldlM (fun f b => f.fill b) ⟨template, false⟩

/-- The documents after each binding, up to the first that fails. -/
def fillSteps : Bindings → Text → List (Except ShapeError Filled)
  | [], _ => []
  | b :: bs, document =>
    match b.fill document with
    | .ok f => .ok f :: fillSteps bs f.text
    | .error e => [.error e]

end MarkupTemplate
