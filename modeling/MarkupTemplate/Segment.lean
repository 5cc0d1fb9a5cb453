import MarkupTemplate.Selector
import MarkupTemplate.Token

/-!
A document in segments: the elements that a selector accepts, and what stands before, between and
after them. The segments of a document hold its tokens, in order.
-/
namespace MarkupTemplate

structure Segment where
  matched : Bool
  tokens : List Token
  deriving DecidableEq

namespace Segment

def text (s : Segment) : Text := s.tokens.flatten

theorem flatten_flatMap_tokens (gs : List Segment) :
    (gs.flatMap (·.tokens)).flatten = gs.flatMap text := by
  rw [List.flatMap, List.flatten_flatten, List.map_map]
  rfl

end Segment

/-- How far a cut has come; the tokens held are not in a segment yet, the latest first. -/
inductive Cut where
  /-- Between elements. -/
  | outside (held : List Token)
  /-- In an element that waits for the closing tag of its name, behind `depth` inner elements. -/
  | inside (name : Option Text) (depth : Nat) (held : List Token)
  deriving DecidableEq

namespace Cut

def start : Cut := outside []

/-- Inner tags of the element's own name are counted; an element without a name is never closed. -/
def step (s : Selector) : Cut → Token → List Segment × Cut
  | outside held, t =>
    match t.kind with
    | .opening =>
      if s.accepts t then ([⟨false, held.reverse⟩], inside t.name? 0 [t])
      else ([], outside (t :: held))
    | .selfClosing =>
      if s.accepts t then ([⟨false, held.reverse⟩, ⟨true, [t]⟩], start)
      else ([], outside (t :: held))
    | _ => ([], outside (t :: held))
  | inside name depth held, t =>
    if name.isSome && t.name? = name then
      match t.kind, depth with
      | .closing, 0 => ([⟨true, (t :: held).reverse⟩], start)
      | .closing, depth + 1 => ([], inside name depth (t :: held))
      | .opening, depth => ([], inside name (depth + 1) (t :: held))
      | _, depth => ([], inside name depth (t :: held))
    else ([], inside name depth (t :: held))

/-- An element that is still open counts as unmatched. -/
def close : Cut → List Segment
  | outside held => [⟨false, held.reverse⟩]
  | inside _ _ held => [⟨false, held.reverse⟩]

def tokens : Cut → List Token
  | outside held => held.reverse
  | inside _ _ held => held.reverse

theorem tokens_step (s : Selector) (cut : Cut) (t : Token) :
    (cut.step s t).1.flatMap (·.tokens) ++ (cut.step s t).2.tokens = cut.tokens ++ [t] := by
  cases cut with
  | outside held =>
    simp only [step]
    split
    · split <;> simp [tokens]
    · split <;> simp [tokens, start]
    · simp [tokens]
  | inside name depth held =>
    simp only [step]
    split
    · split <;> simp [tokens, start]
    · simp [tokens]

theorem tokens_close (cut : Cut) : cut.close.flatMap (·.tokens) = cut.tokens := by
  cases cut <;> simp [close, tokens]

def machine (s : Selector) : Machine Cut Token Segment := ⟨step s, close⟩

end Cut

def segments (s : Selector) (document : Text) : List Segment :=
  (Cut.machine s).run .start (tokens document)

theorem tokens_segments (s : Selector) (document : Text) :
    (segments s document).flatMap (·.tokens) = tokens document := by
  have := (Cut.machine s).flatMap_run .start (fun t => [t]) (·.tokens) Cut.tokens
    (Cut.tokens_step s) Cut.tokens_close (tokens document)
  simpa [segments, Cut.start, Cut.tokens] using this

@[simp] theorem text_segments (s : Selector) (document : Text) :
    (segments s document).flatMap Segment.text = document := by
  rw [← Segment.flatten_flatMap_tokens, tokens_segments, flatten_tokens]

/-- The name and depth of the element that is open where the document ends. -/
def openElement? (s : Selector) (document : Text) : Option (Option Text × Nat) :=
  match (Cut.machine s).after .start (tokens document) with
  | .outside _ => none
  | .inside name depth _ => some (name, depth)

end MarkupTemplate
