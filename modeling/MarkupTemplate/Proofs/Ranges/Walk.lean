import MarkupTemplate.Proofs.Ranges.Scan
import MarkupTemplate.Segment

/-!
Segments cut out of a document by their bytes. A walk over the tokens holds none of them: it knows
where the next segment starts, and its text is cut out once the end is known too.
-/
namespace MarkupTemplate

open Token

namespace Ranges

structure Span where
  matched : Bool
  text : Text
  deriving DecidableEq

inductive Place where
  | outside
  /-- In an element that waits for the closing tag of its name, behind `depth` inner elements. -/
  | inside (name : Option Text) (depth : Nat)

structure Walk where
  written : List Span
  /-- The first byte that is not in a segment yet. -/
  start : Nat
  place : Place

def lower : Nat → Except Abort Nat
  | 0 => .error .depth
  | depth + 1 => .ok depth

/-- An element without a name has no tag of its own. -/
def isOwn (name : Option Text) (t : Token) : Except Abort Bool :=
  if name.isSome then return (← name? t) = name else return false

namespace Walk

def begin : Walk := ⟨[], 0, .outside⟩

def step (s : Selector) (d : Text) (w : Walk) (p : Placed) : Except Abort Walk :=
  match w.place with
  | .outside =>
    match p.token.kind with
    | .opening =>
      if s.accepts p.token then do
        let between ← cut d w.start p.offset
        return ⟨w.written ++ [⟨false, between⟩], p.offset, .inside (← name? p.token) 0⟩
      else return w
    | .selfClosing =>
      if s.accepts p.token then do
        let between ← cut d w.start p.offset
        return ⟨w.written ++ [⟨false, between⟩, ⟨true, p.token⟩], p.stop, .outside⟩
      else return w
    | _ => return w
  | .inside name depth => do
    if ← isOwn name p.token then
      match p.token.kind with
      | .closing =>
        if depth = 0 then
          let element ← cut d w.start p.stop
          return ⟨w.written ++ [⟨true, element⟩], p.stop, .outside⟩
        else return ⟨w.written, w.start, .inside name (← lower depth)⟩
      | .opening => return ⟨w.written, w.start, .inside name (depth + 1)⟩
      | _ => return w
    else return w

end Walk

def walk (s : Selector) (d : Text) (ps : List Placed) : Except Abort Walk :=
  ps.foldlM (Walk.step s d) .begin

/-- What is left when all tokens are read is the last segment. -/
def slice (s : Selector) (d : Text) : Except Abort (List Span) := do
  let w ← walk s d (← tokenize d)
  return w.written ++ [⟨false, ← cut d w.start (Text.byteSize d)⟩]

end Ranges

open Ranges

def Segment.span (g : Segment) : Span := ⟨g.matched, g.text⟩

def Cut.place : Cut → Place
  | outside _ => .outside
  | inside name depth _ => .inside name depth

namespace Ranges

/-- The walk that has written these segments, where the cut holds the tokens behind them. -/
def Walk.ofCut (out : List Segment) (c : Cut) : Walk :=
  ⟨out.map Segment.span, Text.byteSize (out.flatMap Segment.text), c.place⟩

theorem isOwn_eq (name : Option Text) (t : Token) :
    isOwn name t = .ok (name.isSome && t.name? = name) := by
  unfold isOwn
  rw [name?_eq]
  cases name <;> rfl

section Step

variable (s : Selector) (out : List Segment) (held : List Token) (t : Token) (rest : Text)

theorem Walk.step_outside :
    step s (out.flatMap Segment.text ++ (held.reverse.flatten ++ (t ++ rest)))
      (ofCut out (.outside held))
      ⟨Text.byteSize (out.flatMap Segment.text) + Text.byteSize held.reverse.flatten, t⟩ =
        .ok (ofCut (out ++ (Cut.step s (.outside held) t).1) (Cut.step s (.outside held) t).2) := by
  have hcut := cut_append (out.flatMap Segment.text) held.reverse.flatten (t ++ rest)
  simp only [step, ofCut, Cut.place, Cut.step]
  cases t.kind with
  | opening =>
    cases s.accepts t with
    | true => simp [hcut, name?_eq, Segment.span, Segment.text]
    | false => simp
  | selfClosing =>
    cases s.accepts t with
    | true => simp [hcut, Cut.start, Segment.span, Segment.text, Placed.stop, Nat.add_assoc]
    | false => simp
  | closing => simp
  | text => simp

theorem Walk.step_inside (name : Option Text) (depth : Nat) :
    step s (out.flatMap Segment.text ++ (held.reverse.flatten ++ (t ++ rest)))
      (ofCut out (.inside name depth held))
      ⟨Text.byteSize (out.flatMap Segment.text) + Text.byteSize held.reverse.flatten, t⟩ =
        .ok (ofCut (out ++ (Cut.step s (.inside name depth held) t).1)
          (Cut.step s (.inside name depth held) t).2) := by
  have hcut := cut_append (out.flatMap Segment.text) (held.reverse.flatten ++ t) rest
  rw [List.append_assoc, Text.byteSize_append] at hcut
  simp only [step, ofCut, Cut.place, Cut.step, isOwn_eq, ok_bind]
  cases name.isSome && decide (t.name? = name) with
  | false => simp
  | true =>
    cases t.kind with
    | opening => simp
    | closing =>
      cases depth with
      | zero => simp [hcut, Cut.start, Segment.span, Segment.text, Placed.stop, Nat.add_assoc]
      | succ depth => simp [lower]
    | selfClosing => simp
    | text => simp

end Step

theorem text_step (s : Selector) (c : Cut) (t : Token) :
    (c.step s t).1.flatMap Segment.text ++ (c.step s t).2.tokens.flatten =
      c.tokens.flatten ++ t := by
  have h := congrArg List.flatten (c.tokens_step s t)
  rwa [List.flatten_append, List.flatten_append, Segment.flatten_flatMap_tokens,
    List.flatten_singleton] at h

/-- Each token is met in its place, and the walk goes on as the cut does. -/
theorem Walk.foldlM_step {s : Selector} {d : Text} (out : List Segment) (c : Cut)
    {ts : List Token} {rest : Text}
    (hd : d = out.flatMap Segment.text ++ (c.tokens.flatten ++ (ts.flatten ++ rest))) :
    (Placed.ofTokens (Text.byteSize (out.flatMap Segment.text) + Text.byteSize c.tokens.flatten)
      ts).foldlM (step s d) (ofCut out c) =
        .ok (ofCut (out ++ (Cut.machine s).emit c ts) ((Cut.machine s).after c ts)) := by
  induction ts generalizing out c with
  | nil => simp [Placed.ofTokens]
  | cons t ts ih =>
    rw [List.flatten_cons, List.append_assoc] at hd
    have hstep : step s d (ofCut out c)
        ⟨Text.byteSize (out.flatMap Segment.text) + Text.byteSize c.tokens.flatten, t⟩ =
          .ok (ofCut (out ++ (c.step s t).1) (c.step s t).2) := by
      rw [hd]
      cases c with
      | outside held => exact step_outside s out held t _
      | inside name depth held => exact step_inside s out held t _ name depth
    -- What the step has written and still holds is what was held, and the token.
    have htext := text_step s c t
    have hsize := congrArg Text.byteSize htext
    have hd' : d = (out ++ (c.step s t).1).flatMap Segment.text ++
        ((c.step s t).2.tokens.flatten ++ (ts.flatten ++ rest)) := by
      calc
        d = out.flatMap Segment.text ++ ((c.tokens.flatten ++ t) ++ (ts.flatten ++ rest)) := by
          rw [hd, List.append_assoc c.tokens.flatten]
        _ = _ := by rw [← htext, List.flatMap_append, List.append_assoc, List.append_assoc]
    have hoffset : Text.byteSize ((out ++ (c.step s t).1).flatMap Segment.text) +
        Text.byteSize (c.step s t).2.tokens.flatten =
          Text.byteSize (out.flatMap Segment.text) + Text.byteSize c.tokens.flatten +
            Text.byteSize t := by
      rw [Text.byteSize_append, Text.byteSize_append] at hsize
      rw [List.flatMap_append, Text.byteSize_append]
      omega
    have hnext := ih _ _ hd'
    rw [hoffset] at hnext
    rw [Placed.ofTokens, List.foldlM_cons, hstep, ok_bind, hnext, List.append_assoc]
    rfl

theorem walk_eq {s : Selector} {d : Text} {ts us : List Token} (h : tokens d = ts ++ us) :
    walk s d (Placed.ofTokens 0 ts) =
      .ok (.ofCut ((Cut.machine s).emit .start ts) ((Cut.machine s).after .start ts)) := by
  have hd : d = ts.flatten ++ us.flatten := by
    rw [← flatten_tokens d, h, List.flatten_append]
  exact Walk.foldlM_step [] .start hd

/-- Behind the written segments stands what the cut holds. -/
theorem text_after (s : Selector) (ts : List Token) :
    ((Cut.machine s).emit .start ts).flatMap Segment.text ++
      ((Cut.machine s).after .start ts).tokens.flatten = ts.flatten := by
  have h := (Cut.machine s).flatMap_run .start (fun t => [t]) (·.tokens) Cut.tokens
    (Cut.tokens_step s) Cut.tokens_close ts
  have hclose : ((Cut.machine s).close ((Cut.machine s).after .start ts)).flatMap (·.tokens) =
      ((Cut.machine s).after .start ts).tokens := Cut.tokens_close _
  rw [Machine.run, List.flatMap_append, hclose] at h
  have hflat := congrArg List.flatten h
  simpa [Segment.flatten_flatMap_tokens, Cut.start, Cut.tokens] using hflat

/-- No segment starts behind the token that is read. -/
theorem exists_walk_start_le (s : Selector) (d : Text) :
    ∃ ps, tokenize d = .ok ps ∧ ∀ front p back, ps = front ++ p :: back →
      ∃ w, walk s d front = .ok w ∧ w.start ≤ p.offset := by
  refine ⟨_, tokenize_eq d, fun front p back h => ?_⟩
  obtain ⟨ts, us, htokens, rfl, -⟩ := Placed.exists_of_ofTokens_eq_append h
  refine ⟨_, walk_eq htokens, ?_⟩
  have hoffset := Placed.offset_of_append h
  have hsize := congrArg Text.byteSize (text_after s ts)
  rw [Text.byteSize_append] at hsize
  rw [Placed.map_token_ofTokens] at hoffset
  simp only [Walk.ofCut]
  omega

theorem slice_eq (s : Selector) (d : Text) : slice s d = .ok ((segments s d).map Segment.span) := by
  have hwalk := walk_eq (s := s) (List.append_nil (tokens d)).symm
  have hcut := cut_back (((Cut.machine s).emit .start (tokens d)).flatMap Segment.text)
    ((Cut.machine s).after .start (tokens d)).tokens.flatten
  rw [text_after, flatten_tokens] at hcut
  have hclose : ((Cut.machine s).after .start (tokens d)).close.map Segment.span =
      [⟨false, ((Cut.machine s).after .start (tokens d)).tokens.flatten⟩] := by
    cases (Cut.machine s).after .start (tokens d) <;> rfl
  rw [slice, tokenize_eq, ok_bind, hwalk, ok_bind, Walk.ofCut, hcut, ok_bind, pure_eq_ok,
    ← hclose, ← List.map_append]
  rfl

end Ranges

end MarkupTemplate
