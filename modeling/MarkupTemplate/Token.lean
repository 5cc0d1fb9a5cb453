import MarkupTemplate.Machine
import MarkupTemplate.Text.Blank

/-!
Markup as tokens. A tag is `<`, at least one character other than `>`, and `>`; a text run is what
stands between two tags. The tokens of a text, put together, are the text.
-/
namespace MarkupTemplate

abbrev Token := Text

namespace Token

inductive Kind where
  | opening
  | closing
  | selfClosing
  | text
  deriving DecidableEq

/-- The first two characters decide before the last two, and one `<` in front only after them. -/
def kind (t : Token) : Kind :=
  if ['<', '/'].isPrefixOf t then .closing
  else if ['/', '>'].isSuffixOf t then .selfClosing
  else if ['<'].isPrefixOf t then .opening
  else .text

def endsName (c : Char) : Bool := Text.isBlank c || c = '/' || c = '>'

def nameAt? (t : Text) : Option Text :=
  match t.takeWhile (!endsName ·) with
  | [] => none
  | c :: name => some (c :: name)

/-- What follows `<` or `</`, up to a blank, `/` or `>`. -/
def name? : Token → Option Text
  | '<' :: '/' :: t => nameAt? t
  | '<' :: t => nameAt? t
  | _ => none

theorem name?_eq_none_of_kind {t : Token} (h : kind t = .text) : name? t = none := by
  have hp : ['<'].isPrefixOf t = false := by grind [kind]
  unfold name?
  split <;> simp_all

/-- Text that is not in a token yet, the latest character first. -/
inductive Pending where
  | run (held : Text)
  /-- After a `<` that stands behind `held`. -/
  | tag (held body : Text)

namespace Pending

def ofRun (held : Text) : List Token := if held = [] then [] else [held.reverse]

def step : Pending → Char → List Token × Pending
  | run held, c => if c = '<' then ([], tag held []) else ([], run (c :: held))
  | tag held body, c =>
    if c = '>' then
      if body = [] then ([], run ('>' :: '<' :: held))
      else (ofRun held ++ [('<' :: body.reverse) ++ ['>']], run [])
    else ([], tag held (c :: body))

/-- A `<` that no `>` follows is text. -/
def close : Pending → List Token
  | run held => ofRun held
  | tag held body => ofRun (body ++ '<' :: held)

def text : Pending → Text
  | run held => held.reverse
  | tag held body => held.reverse ++ '<' :: body.reverse

theorem flatten_ofRun (held : Text) : (ofRun held).flatten = held.reverse := by
  unfold ofRun
  split <;> simp_all

theorem flatten_step (p : Pending) (c : Char) :
    (p.step c).1.flatten ++ (p.step c).2.text = p.text ++ [c] := by
  cases p with
  | run held => by_cases h : c = '<' <;> simp [step, text, h]
  | tag held body =>
    by_cases hc : c = '>'
    · by_cases hb : body = [] <;> simp [step, text, hc, hb, flatten_ofRun]
    · simp [step, text, hc]

theorem flatten_close (p : Pending) : p.close.flatten = p.text := by
  cases p <;> simp [close, text, flatten_ofRun]

end Pending

def tokenizer : Machine Pending Char Token := ⟨Pending.step, Pending.close⟩

end Token

/-- The tags of a text and the runs between them, in order. -/
def tokens (t : Text) : List Token := Token.tokenizer.run (.run []) t

@[simp] theorem flatten_tokens (t : Text) : (tokens t).flatten = t := by
  have := Token.tokenizer.flatMap_run (.run []) (fun c => [c]) id Token.Pending.text
    (by simpa [Token.tokenizer] using Token.Pending.flatten_step)
    (by simpa [Token.tokenizer] using Token.Pending.flatten_close) t
  simpa [tokens, Token.Pending.text] using this

/-- A token with its place in the text, in bytes. -/
structure Placed where
  offset : Nat
  token : Token

namespace Placed

def stop (p : Placed) : Nat := p.offset + Text.byteSize p.token

def ofTokens (offset : Nat) : List Token → List Placed
  | [] => []
  | t :: ts => ⟨offset, t⟩ :: ofTokens (offset + Text.byteSize t) ts

end Placed

end MarkupTemplate
