import Mathlib.Data.List.Forall2
import MarkupTemplate.Value

/-!
The JSON texts of bindings as a grammar. It relates a text to what it denotes and reads nothing: the
ways to spell a character, and strings, values and members with blanks between them.
-/
namespace MarkupTemplate.Json

def IsBlanks (t : Text) : Prop := ∀ c ∈ t, c ∈ [' ', '\n', '\t', '\r']

def IsHexDigit (n : Nat) (c : Char) : Prop :=
  ['0', '1', '2', '3', '4', '5', '6', '7', '8', '9', 'a', 'b', 'c', 'd', 'e', 'f'][n]? = some c ∨
    ['0', '1', '2', '3', '4', '5', '6', '7', '8', '9', 'A', 'B', 'C', 'D', 'E', 'F'][n]? = some c

instance (n : Nat) (c : Char) : Decidable (IsHexDigit n c) := inferInstanceAs (Decidable (_ ∨ _))

inductive IsUnit : Nat → Text → Prop
  | intro {i j k l : Nat} {a b c d : Char} (ha : IsHexDigit i a) (hb : IsHexDigit j b)
      (hc : IsHexDigit k c) (hd : IsHexDigit l d) :
      IsUnit (((i * 16 + j) * 16 + k) * 16 + l) [a, b, c, d]

/-- What may follow a backslash, with the character that is meant. -/
def shortEscapes : List (Char × Char) :=
  [('"', '"'), ('\\', '\\'), ('/', '/'), ('b', '\x08'), ('f', '\x0c'), ('n', '\n'), ('r', '\r'),
    ('t', '\t')]

inductive Spells : Char → Text → Prop
  | raw {c : Char} (hc : 0x20 ≤ c.toNat) (hquote : c ≠ '"') (hslash : c ≠ '\\') : Spells c [c]
  | short {c e : Char} (h : (e, c) ∈ shortEscapes) : Spells c ['\\', e]
  | unit {c : Char} {u : Text} (hu : IsUnit c.toNat u) : Spells c ('\\' :: 'u' :: u)
  /-- A character above U+FFFF, in two halves of ten bits. -/
  | pair {c : Char} {i j : Nat} {u v : Text} (hi : i < 0x400) (hj : j < 0x400)
      (hu : IsUnit (0xD800 + i) u) (hv : IsUnit (0xDC00 + j) v)
      (hc : c.toNat = 0x10000 + i * 0x400 + j) :
      Spells c ('\\' :: 'u' :: (u ++ '\\' :: 'u' :: v))

def IsString (t w : Text) : Prop :=
  ∃ us, List.Forall₂ Spells t us ∧ w = '"' :: us.flatten ++ ['"']

variable {α : Type}

def Spaced (P : α → Text → Prop) (a : α) (w : Text) : Prop :=
  ∃ before u after, IsBlanks before ∧ P a u ∧ IsBlanks after ∧ w = before ++ u ++ after

/-- Elements with a comma between each two; if there is none, only blanks. -/
inductive Separated (P : α → Text → Prop) : List α → Text → Prop
  | empty {w : Text} (h : IsBlanks w) : Separated P [] w
  | elements {as : List α} {us : List Text} (hne : as ≠ []) (h : List.Forall₂ (Spaced P) as us) :
      Separated P as ([','].intercalate us)

inductive IsValue : Value → Text → Prop
  | absent : IsValue .absent ['n', 'u', 'l', 'l']
  | text {t w : Text} (h : IsString t w) : IsValue (.text t) w
  | list {ts : List Text} {w : Text} (h : Separated IsString ts w) :
      IsValue (.list ts) ('[' :: w ++ [']'])

inductive IsMember : Binding → Text → Prop
  | intro {b : Binding} {key before after value : Text} (hkey : IsString b.selector key)
      (hbefore : IsBlanks before) (hafter : IsBlanks after) (hvalue : IsValue b.value value) :
      IsMember b (key ++ before ++ ':' :: after ++ value)

inductive IsObject : Bindings → Text → Prop
  | intro {bs : Bindings} {w : Text} (h : Separated IsMember bs w) :
      IsObject bs ('\x7b' :: w ++ ['\x7d'])

def IsDocument : Bindings → Text → Prop := Spaced IsObject

/-- The characters with which numbers, booleans and objects begin. -/
def otherStarts : List Char :=
  ['-', '0', '1', '2', '3', '4', '5', '6', '7', '8', '9', 't', 'f', '\x7b']

/-- The text begins as no value of a binding does: as a scalar, or within a list behind strings. -/
inductive BeginsOther : Text → Prop
  | scalar {c : Char} {rest : Text} (hc : c ∈ otherStarts) : BeginsOther (c :: rest)
  | item {ts us : List Text} {before rest : Text} {c : Char}
      (h : List.Forall₂ (Spaced IsString) ts us) (hbefore : IsBlanks before)
      (hc : c ∈ 'n' :: '[' :: otherStarts) :
      BeginsOther ('[' :: (us.flatMap (· ++ [',']) ++ (before ++ c :: rest)))

/-- Behind members of bindings comes a member with another value, whatever follows it. -/
inductive HasOther : Text → Prop
  | intro {bs : Bindings} {us : List Text} {k before front key gap gap' value : Text}
      (hbefore : IsBlanks before) (h : List.Forall₂ (Spaced IsMember) bs us)
      (hfront : IsBlanks front) (hkey : IsString k key) (hgap : IsBlanks gap)
      (hgap' : IsBlanks gap') (hvalue : BeginsOther value) :
      HasOther (before ++ '\x7b' :: (us.flatMap (· ++ [',']) ++
        (front ++ (key ++ (gap ++ ':' :: (gap' ++ value))))))

end MarkupTemplate.Json
