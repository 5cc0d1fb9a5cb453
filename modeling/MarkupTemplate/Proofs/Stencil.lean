import MarkupTemplate.Proofs.Tags
import MarkupTemplate.Selector

/-!
Stencils: texts in which numbered gaps are left open, each between two quotes of one sort. What is
filled in, as long as it has no `<` and no `>`, has no part in where the tags are and of which kind.
-/
namespace MarkupTemplate

open Token

theorem Quote.char_ne_of_mem {q : Quote} {c : Char} (hc : c ∈ ['<', '>', '/']) : q.char ≠ c := by
  have hc' : c = '<' ∨ c = '>' ∨ c = '/' := by simpa using hc
  cases q <;> rcases hc' with rfl | rfl | rfl <;> decide

namespace Stencil

inductive Piece where
  | char (c : Char)
  /-- The gap with the number `i`, and the quotes around it. -/
  | gap (q : Quote) (i : Nat)
  deriving DecidableEq

def Piece.fill (w : Nat → Text) : Piece → Text
  | char c => [c]
  | gap q i => q.char :: w i ++ [q.char]

end Stencil

abbrev Stencil := List Stencil.Piece

namespace Stencil

/-- Each gap holds the text with its number. -/
def fill (w : Nat → Text) (p : Stencil) : Text := p.flatMap (Piece.fill w)

def ofText (t : Text) : Stencil := t.map .char

variable (w : Nat → Text)

@[simp] theorem fill_nil : fill w [] = [] := rfl

@[simp] theorem fill_cons (x : Piece) (p : Stencil) :
    fill w (x :: p) = x.fill w ++ fill w p := rfl

@[simp] theorem fill_append (p q : Stencil) : fill w (p ++ q) = fill w p ++ fill w q :=
  List.flatMap_append

@[simp] theorem fill_ofText (t : Text) : fill w (ofText t) = t := by
  induction t with
  | nil => rfl
  | cons c t ih => exact congrArg (c :: ·) ih

theorem fill_flatMap {α : Type} (as : List α) (f : α → Stencil) :
    fill w (as.flatMap f) = as.flatMap fun a => fill w (f a) := by
  induction as with
  | nil => rfl
  | cons a as ih => rw [List.flatMap_cons, fill_append, ih, List.flatMap_cons]

theorem Piece.fill_ne_nil (x : Piece) : x.fill w ≠ [] := by
  cases x <;> simp [fill]

theorem fill_ne_nil {p : Stencil} (h : p ≠ []) : fill w p ≠ [] := by
  obtain ⟨x, p, rfl⟩ := List.exists_cons_of_ne_nil h
  simp [x.fill_ne_nil w]

variable {w}

/-- A character that is neither in the gaps nor a quote is filled in by itself only. -/
theorem Piece.not_mem_fill {c : Char} (hc : c ∈ ['<', '>', '/']) (hw : ∀ i, c ∉ w i) {x : Piece}
    (hx : x ≠ .char c) : c ∉ x.fill w := by
  cases x with
  | char d =>
    have hne : c ≠ d := fun he => hx (congrArg _ he.symm)
    simpa [fill] using hne
  | gap q i =>
    have hq : c ≠ q.char := (Quote.char_ne_of_mem hc).symm
    simp [fill, hq, hw i]

/-- The state holds the pieces since the last `<` with which a tag may have begun, latest first. -/
def step : Option Stencil → Piece → List Stencil × Option Stencil
  | none, x => ([], if x = .char '<' then some [] else none)
  | some body, x =>
    if x = .char '>' then
      if body = [] then ([], none) else ([.char '<' :: body.reverse ++ [.char '>']], none)
    else ([], some (x :: body))

def scanner : Machine (Option Stencil) Piece Stencil := ⟨step, fun _ => []⟩

/-- `<`, at least one piece that is no `>`, and `>`, from left to right. -/
def tags (p : Stencil) : List Stencil := scanner.run none p

theorem run_none_char (p : Stencil) :
    scanner.run none (.char '<' :: p) = scanner.run (some []) p := rfl

theorem run_none_of_ne {x : Piece} (hx : x ≠ .char '<') (p : Stencil) :
    scanner.run none (x :: p) = scanner.run none p := by
  simp [scanner, step, hx]

theorem run_some_nil (p : Stencil) :
    scanner.run (some []) (.char '>' :: p) = scanner.run none p := rfl

theorem run_some_char {body : Stencil} (h : body ≠ []) (p : Stencil) :
    scanner.run (some body) (.char '>' :: p) =
      (.char '<' :: body.reverse ++ [.char '>']) :: scanner.run none p := by
  simp [scanner, step, h]

theorem run_some_of_ne {x : Piece} (hx : x ≠ .char '>') (body p : Stencil) :
    scanner.run (some body) (x :: p) = scanner.run (some (x :: body)) p := by
  simp [scanner, step, hx]

/-- The text with which a tag may have begun. -/
def held (w : Nat → Text) : Option Stencil → Text
  | none => []
  | some body => '<' :: fill w body.reverse

/-- The two searches for tags go on side by side. -/
theorem tags_held_append (hw : ∀ c ∈ ['<', '>'], ∀ i, c ∉ w i) (begun : Option Stencil)
    (hgt : '>' ∉ held w begun) (p : Stencil) :
    MarkupTemplate.tags (held w begun ++ fill w p) = (scanner.run begun p).map (fill w) := by
  induction p generalizing begun with
  | nil =>
    rw [fill_nil, List.append_nil, tags_of_not_mem hgt]
    rfl
  | cons x p ih =>
    have hnone : MarkupTemplate.tags (fill w p) = (scanner.run none p).map (fill w) :=
      ih none (by simp [held])
    cases begun with
    | none =>
      by_cases hx : x = .char '<'
      · subst hx
        rw [run_none_char]
        exact ih (some []) (by simp [held])
      · have hclosed : Closed (x.fill w) :=
          .of_not_mem (Piece.not_mem_fill (by simp) (hw _ (by simp)) hx)
        rw [run_none_of_ne hx, held, List.nil_append, fill_cons, tags_closed_append hclosed, hnone]
    | some body =>
      have hbody : '>' ∉ fill w body.reverse := fun hmem => hgt (List.mem_cons_of_mem _ hmem)
      by_cases hx : x = .char '>'
      · subst hx
        by_cases hnil : body = []
        · subst hnil
          have hpair : Closed ['<', '>'] := .pair .nil
          rw [run_some_nil, ← hnone]
          exact tags_closed_append hpair (fill w p)
        · have hne : fill w body.reverse ≠ [] := fill_ne_nil w (by simpa using hnil)
          have htag : IsTag ('<' :: fill w body.reverse ++ ['>']) := ⟨_, hne, hbody, rfl⟩
          have htext : held w (some body) ++ fill w (.char '>' :: p) =
              ('<' :: fill w body.reverse ++ ['>']) ++ fill w p := by
            simp [held, Piece.fill]
          rw [run_some_char hnil, htext, tags_tag_append htag, hnone]
          simp [Piece.fill]
      · have hpiece : '>' ∉ x.fill w := Piece.not_mem_fill (by simp) (hw _ (by simp)) hx
        have hheld : held w (some (x :: body)) = held w (some body) ++ x.fill w := by simp [held]
        have hgt' : '>' ∉ held w (some (x :: body)) := by
          rw [hheld, List.mem_append, not_or]
          exact ⟨hgt, hpiece⟩
        have hnext := ih _ hgt'
        rwa [hheld, List.append_assoc, ← fill_cons, ← run_some_of_ne hx] at hnext

/-- With no `<` and no `>` in the gaps the tags of the text are those of the stencil. -/
theorem tags_fill (hw : ∀ c ∈ ['<', '>'], ∀ i, c ∉ w i) (p : Stencil) :
    MarkupTemplate.tags (fill w p) = (tags p).map (fill w) :=
  tags_held_append hw none (by simp [held]) p

/-- As of a text; a gap is neither `<` nor `/` nor `>`. -/
def kind (p : Stencil) : Kind :=
  if (ofText ['<', '/']).isPrefixOf p then .closing
  else if (ofText ['/', '>']).isSuffixOf p then .selfClosing
  else if (ofText ['<']).isPrefixOf p then .opening
  else .text

/-- A text without quotes is at the front only if none of it is in a gap. -/
theorem isPrefixOf_fill {t : Text} (ht : ∀ c ∈ t, c ∈ ['<', '>', '/']) (p : Stencil) :
    t.isPrefixOf (fill w p) = (ofText t).isPrefixOf p := by
  induction t generalizing p with
  | nil => simp [ofText]
  | cons c t ih =>
    obtain ⟨hc, ht⟩ := List.forall_mem_cons.mp ht
    cases p with
    | nil => rfl
    | cons x p =>
      cases x with
      | char d =>
        have hrest : t.isPrefixOf (fill w p) = (ofText t).isPrefixOf p := ih ht p
        have hhead : (Piece.char c == Piece.char d) = (c == d) := by simp [BEq.beq]
        have hright : (ofText (c :: t)).isPrefixOf (.char d :: p) =
            ((Piece.char c == Piece.char d) && (ofText t).isPrefixOf p) := rfl
        rw [hright, hhead, ← hrest]
        rfl
      | gap q i =>
        have hq : (c == q.char) = false := by simpa using (Quote.char_ne_of_mem hc).symm
        have hleft : (c :: t).isPrefixOf (fill w (.gap q i :: p)) =
            ((c == q.char) && t.isPrefixOf (w i ++ [q.char] ++ fill w p)) := rfl
        rw [hleft, hq]
        rfl

theorem reverse_fill (w : Nat → Text) (p : Stencil) :
    (fill w p).reverse = fill (fun i => (w i).reverse) p.reverse := by
  induction p with
  | nil => rfl
  | cons x p ih =>
    rw [fill_cons, List.reverse_append, ih, List.reverse_cons, fill_append]
    cases x <;> simp [Piece.fill]

theorem isSuffixOf_fill {t : Text} (ht : ∀ c ∈ t, c ∈ ['<', '>', '/']) (p : Stencil) :
    t.isSuffixOf (fill w p) = (ofText t).isSuffixOf p := by
  have ht' : ∀ c ∈ t.reverse, c ∈ ['<', '>', '/'] := by simpa using ht
  rw [List.isSuffixOf, List.isSuffixOf, reverse_fill, isPrefixOf_fill ht']
  simp [ofText]

theorem kind_fill (w : Nat → Text) (p : Stencil) : Token.kind (fill w p) = p.kind := by
  unfold Token.kind kind
  rw [isPrefixOf_fill (by simp), isPrefixOf_fill (by simp), isSuffixOf_fill (by simp)]

/--
The text is the stencil with `w` in its gaps, and its tags are those of the stencil with `w` in
theirs, each of the kind that it is without.
-/
structure Shows (p : Stencil) (w : Nat → Text) (t : Text) : Prop where
  text : t = fill w p
  tags : MarkupTemplate.tags t = (tags p).map (fill w)
  kind : ∀ m ∈ Stencil.tags p, Token.kind (fill w m) = m.kind

theorem shows_fill (hw : ∀ c ∈ ['<', '>'], ∀ i, c ∉ w i) (p : Stencil) : p.Shows w (fill w p) where
  text := rfl
  tags := tags_fill hw p
  kind := fun m _ => kind_fill w m

end Stencil

end MarkupTemplate
