import MarkupTemplate.Json.Position
import MarkupTemplate.Json.Value
import MarkupTemplate.Json.Writer

/-! JSON texts that hold one value, or bindings. -/
namespace MarkupTemplate.Json

structure Complaint where
  fault : Fault
  position : Option Position

namespace Complaint

def ofStop (t : Text) (s : Stop) : Complaint :=
  ⟨s.fault, some (.ofOffset t (Text.byteSize t - s.unread))⟩

def message (c : Complaint) : Text :=
  c.fault.message ++ c.position.elim [] fun p =>
    " at line ".toList ++ Decimal.natText p.line ++ " column ".toList ++ Decimal.natText p.column

end Complaint

def maxLevels : Nat := 127

/-- After a value only blanks may follow. -/
def expectEnd (t : Text) : Except Stop Unit :=
  match skipBlanks t with
  | [] => .ok ()
  | rest => stopIn .trailingText rest

/-- A value of another kind is refused without a place. -/
def readValue (t : Text) : Except Complaint Value :=
  match (valueReader maxLevels).read t with
  | .error s => .error (.ofStop t s)
  | .ok (none, _) => .error ⟨.otherValue, none⟩
  | .ok (some v, rest) =>
    match expectEnd rest with
    | .error s => .error (.ofStop t s)
    | .ok () => .ok v

def skipClosing (t : Text) : Text :=
  match skipBlanks t with
  | '\x7d' :: rest => rest
  | rest => rest

/-- Reads the value of a binding, one level below the top. -/
def readBound (t : Text) : Read Value :=
  match (valueReader (maxLevels - 1)).read t with
  | .error s => .error s
  | .ok (none, rest) => stopAt .otherValue (skipClosing rest)
  | .ok (some v, rest) => .ok (v, rest)

theorem length_readBound_lt {t rest : Text} {v : Value} (h : readBound t = .ok (v, rest)) :
    rest.length < t.length := by
  unfold readBound at h
  split at h
  · cases h
  · cases h
  · next hv =>
    cases h
    exact (valueReader (maxLevels - 1)).length_lt hv

def boundReader : Reader Value := ⟨readBound, length_readBound_lt⟩

/-- Reads an object of bindings; what else there may be is named in the complaint. -/
def readObject (t : Text) : Read Bindings :=
  match skipBlanks t with
  | '\x7b' :: t =>
    (readElements .object (memberReader boundReader) t).map fun (members, rest) =>
      (members.map fun (selector, value) => ⟨selector, value⟩, rest)
  | '[' :: t => stopAt (.notBindings none) ('[' :: t)
  | t =>
    match readScalar t with
    | .ok (v, rest) => stopAt (.notBindings (some v)) rest
    | .error s => .error s

def readBindings (t : Text) : Except Complaint Bindings :=
  match readObject t with
  | .error s => .error (.ofStop t s)
  | .ok (bs, rest) =>
    match expectEnd rest with
    | .error s => .error (.ofStop t s)
    | .ok () => .ok bs

end MarkupTemplate.Json
