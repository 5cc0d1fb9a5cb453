import MarkupTemplate.Fill
import MarkupTemplate.Json.Document

/-! A session works on one list of bindings, command after command, up to the first failure. -/
namespace MarkupTemplate

inductive Failure where
  | shape (e : ShapeError)
  | document (c : Json.Complaint)

def Failure.message : Failure → Text
  | shape e => e.message
  | document c => "Invalid bindings document: ".toList ++ c.message

def Bindings.read (json : Text) : Except Failure Bindings :=
  (Json.readBindings json).mapError .document

def fillFromJson (json template : Text) : Except Failure Filled := do
  (fillAll (← Bindings.read json) template).mapError .shape

inductive Command where
  | clear
  | push (b : Binding)
  | replace (bs : Bindings)
  | load (json : Text)
  /-- Writes the bindings and reads them back. -/
  | reload
  | get (selector : Text)
  | fill (template : Text)
  | drain

inductive Reply where
  | bindings (bs : Bindings)
  | reloaded (same : Bool) (bs : Bindings)
  | got (value : Option Value)
  | filled (f : Filled)
  | drained (bs : Bindings)

/-- The reply to a command, and the bindings after it. -/
def Command.run (bs : Bindings) : Command → Except Failure (Reply × Bindings)
  | clear => .ok (.bindings [], [])
  | push b => .ok (.bindings (bs ++ [b]), bs ++ [b])
  | replace new => .ok (.bindings new, new)
  | load json => do
    let new ← Bindings.read json
    return (.bindings new, new)
  | reload => do
    let new ← Bindings.read (Json.writeBindings bs)
    return (.reloaded (new = bs) new, new)
  | get selector => .ok (.got (bs.get? selector), bs)
  | fill template => do
    let f ← (fillAll bs template).mapError .shape
    return (.filled f, bs)
  | drain => .ok (.drained bs, [])

def runSession (bs : Bindings) : List Command → List (Except Failure Reply)
  | [] => []
  | c :: cs =>
    match c.run bs with
    | .ok (reply, bs) => .ok reply :: runSession bs cs
    | .error e => [.error e]

end MarkupTemplate
