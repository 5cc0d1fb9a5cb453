import MarkupTemplate.Fill
import MarkupTemplate.Text.Quoted

/-! The trace of a filling: what it met on its way, in order. -/
namespace MarkupTemplate

inductive Event where
  | begun (s : Selector)
  /-- The document ends in an element that has not been closed. -/
  | leftOpen (name : Option Text) (depth : Nat)
  | segment (matched : Bool) (size : Nat)
  | noMatch (size : Nat)
  | found (matched values : Nat)
  | shapeless (e : ShapeError)
  deriving DecidableEq

namespace Event

inductive Level where
  | info
  | debug
  | trace

inductive Field where
  | text (t : Text)
  | count (n : Nat)
  | flag (b : Bool)

def level : Event → Level
  | begun _ => .info
  | leftOpen .. | segment .. => .trace
  | noMatch _ | found .. | shapeless _ => .debug

/-- The span that an event opens. -/
def span? : Event → Option String
  | begun _ => some "bind"
  | _ => none

def message? : Event → Option String
  | begun _ => none
  | leftOpen .. => some "input ended inside an open match"
  | segment .. => some "segment"
  | noMatch _ => some "selector matched nothing"
  | found .. => some "binding matched segments"
  | shapeless _ => some "matched segment has no closing tag"

def nameText : Option Text → Text
  | none => "None".toList
  | some name => "Some(".toList ++ Text.quoted name ++ [')']

def fields : Event → List (String × Field)
  | begun s => [("selector", .text s.render)]
  | leftOpen name depth => [("search", .text (nameText name)), ("depth", .count depth)]
  | segment matched size => [("matched", .flag matched), ("len", .count size)]
  | noMatch size => [("len", .count size)]
  | found matched values => [("matched", .count matched), ("values", .count values)]
  | shapeless e => [("selector", .text e.selector.render), ("segment", .text e.segment)]

end Event

namespace Event.Level

def name : Level → String
  | .info => "INFO"
  | .debug => "DEBUG"
  | .trace => "TRACE"

end Event.Level

/-- The first item that cannot be put into a matched segment, segment by segment. -/
def firstShapeError? (s : Selector) (items : List (Option Text)) (segments : List Segment) :
    Option ShapeError :=
  (segments.filter (·.matched)).findSome? fun segment =>
    items.findSome? fun item =>
      match putItem s segment.text item with
      | .ok _ => none
      | .error e => some e

def trace (s : Selector) (value : Value) (document : Text) : List Event :=
  let segments := segments s document
  let matched := segments.countP (·.matched)
  let items := value.items
  .begun s ::
    (openElement? s document).toList.map (fun (name, depth) => .leftOpen name depth) ++
    segments.map (fun segment => .segment segment.matched (Text.byteSize segment.text)) ++
    if matched = 0 then [.noMatch (Text.byteSize document)]
    else .found matched items.length ::
      (firstShapeError? s items segments).toList.map .shapeless

end MarkupTemplate
