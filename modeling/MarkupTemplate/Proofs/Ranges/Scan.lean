import MarkupTemplate.Proofs.Placement
import MarkupTemplate.Proofs.Ranges.Cuts

/-!
Tokens and tag names cut out by their bytes. Tags are sought from the left, each behind the last; a
run is what stands between two of them.
-/
namespace MarkupTemplate

open Token

namespace Element

/-- The first tag of a text, between what stands before and after it. -/
def cutTag? : Text → Option (Text × Token × Text)
  | [] => none
  | c :: t =>
    match splitOpening? (c :: t) with
    | some (tag, rest) => some ([], tag, rest)
    | none => (cutTag? t).map fun (before, tag, after) => (c :: before, tag, after)

theorem length_of_cutTag? {t before after : Text} {tag : Token}
    (h : cutTag? t = some (before, tag, after)) : after.length < t.length := by
  induction t generalizing before with
  | nil => cases h
  | cons c t ih =>
    simp only [cutTag?] at h
    split at h
    · next hsplit =>
      cases h
      have htag := List.length_pos_iff.mpr (isTag_of_splitOpening? hsplit).ne_nil
      rw [eq_of_splitOpening? hsplit, List.length_append]
      omega
    · obtain ⟨⟨b, tag', a⟩, hcut, he⟩ := Option.map_eq_some_iff.mp h
      cases he
      exact Nat.lt_succ_of_lt (ih hcut)

theorem cutTag?_closed_append {r : Text} (h : Closed r) {t : Token} (ht : IsTag t) (rest : Text) :
    cutTag? (r ++ (t ++ rest)) = some (r, t, rest) := by
  induction h with
  | nil =>
    have hsplit := splitOpening?_tag_append ht rest
    obtain ⟨c, t, rfl⟩ := List.exists_cons_of_ne_nil ht.ne_nil
    rw [List.cons_append] at hsplit
    simp [cutTag?, hsplit]
  | char hc _ ih =>
    rw [List.cons_append, cutTag?, splitOpening?_of_ne hc, ih]
    rfl
  | pair _ ih =>
    have hgt : '>' ≠ '<' := by decide
    rw [List.cons_append, List.cons_append, cutTag?, splitOpening?_pair, cutTag?,
      splitOpening?_of_ne hgt, ih]
    rfl

theorem cutTag?_eq_none {t : Text} (h : tags t = []) : cutTag? t = none := by
  induction t with
  | nil => rfl
  | cons c t ih =>
    cases hsplit : splitOpening? (c :: t) with
    | some p =>
      have htag := isTag_of_splitOpening? hsplit
      rw [eq_of_splitOpening? hsplit, tags_tag_append htag] at h
      cases h
    | none =>
      rw [tags_cons_of_none hsplit] at h
      rw [cutTag?, hsplit, ih h]
      rfl

end Element

namespace Ranges

/-- The ranges of the tags in a text that begins at `offset`. -/
def tagRanges (offset : Nat) (t : Text) : List (Nat × Nat) :=
  match _h : Element.cutTag? t with
  | some (before, tag, after) =>
    let start := offset + Text.byteSize before
    (start, start + Text.byteSize tag) :: tagRanges (start + Text.byteSize tag) after
  | none => []
termination_by t.length
decreasing_by exact Element.length_of_cutTag? _h

/-- An empty range holds no token. -/
def tokenAt (d : Text) (start stop : Nat) : Except Abort (List Placed) :=
  if start < stop then return [⟨start, ← cut d start stop⟩] else return []

/-- The tokens from `cursor` on, where the tags behind it are in these ranges. -/
def tokensFrom (d : Text) (cursor : Nat) : List (Nat × Nat) → Except Abort (List Placed)
  | [] => tokenAt d cursor (Text.byteSize d)
  | (start, stop) :: ranges => do
    let run ← tokenAt d cursor start
    let tag ← tokenAt d start stop
    return run ++ tag ++ (← tokensFrom d stop ranges)

def tokenize (d : Text) : Except Abort (List Placed) := tokensFrom d 0 (tagRanges 0 d)

theorem tagRanges_closed_append {r : Text} (hr : Closed r) {t : Token} (ht : IsTag t)
    (offset : Nat) (rest : Text) : tagRanges offset (r ++ (t ++ rest)) =
      (offset + Text.byteSize r, offset + Text.byteSize r + Text.byteSize t) ::
        tagRanges (offset + Text.byteSize r + Text.byteSize t) rest := by
  have hcut := Element.cutTag?_closed_append hr ht rest
  rw [tagRanges]
  split
  · next h =>
    rw [hcut] at h
    cases h
    rfl
  · next h => simp [hcut] at h

theorem tagRanges_tail {r : Text} (h : IsTail r) (offset : Nat) : tagRanges offset r = [] := by
  have hcut := Element.cutTag?_eq_none (tags_tail h)
  rw [tagRanges]
  split
  · next h' => simp [hcut] at h'
  · rfl

theorem tokenAt_append (front r back : Text) :
    tokenAt (front ++ (r ++ back)) (Text.byteSize front) (Text.byteSize front + Text.byteSize r) =
      .ok (Placed.ofTokens (Text.byteSize front) (ofText r)) := by
  by_cases hr : r = []
  · subst hr
    simp [tokenAt, Placed.ofTokens, pure, Except.pure]
  · have hpos : Text.byteSize r ≠ 0 := fun h => hr (Text.byteSize_eq_zero.mp h)
    rw [tokenAt, if_pos (by omega), cut_append, ofText_of_ne_nil hr]
    rfl

theorem tokensFrom_tail {r : Text} (h : IsTail r) (front : Text) :
    tokensFrom (front ++ r) (Text.byteSize front) (tagRanges (Text.byteSize front) r) =
      .ok (Placed.ofTokens (Text.byteSize front) (ofText r)) := by
  have hrun := tokenAt_append front r []
  rw [List.append_nil] at hrun
  rw [tagRanges_tail h, tokensFrom, Text.byteSize_append, hrun]

theorem tokensFrom_tag {r t : Token} {ts : List Token} (hr : Closed r) (ht : IsTag t)
    (h : ∀ front, tokensFrom (front ++ ts.flatten) (Text.byteSize front)
      (tagRanges (Text.byteSize front) ts.flatten) =
        .ok (Placed.ofTokens (Text.byteSize front) ts)) (front : Text) :
    tokensFrom (front ++ (r ++ (t ++ ts.flatten))) (Text.byteSize front)
      (tagRanges (Text.byteSize front) (r ++ (t ++ ts.flatten))) =
        .ok (Placed.ofTokens (Text.byteSize front) (ofText r ++ t :: ts)) := by
  have hrun := tokenAt_append front r (t ++ ts.flatten)
  have htag := tokenAt_append (front ++ r) t ts.flatten
  have hrest := h (front ++ r ++ t)
  rw [ofText_of_ne_nil ht.ne_nil] at htag
  simp only [Text.byteSize_append, List.append_assoc] at htag hrest
  rw [← Nat.add_assoc] at hrest
  rw [tagRanges_closed_append hr ht, tokensFrom, hrun, htag, hrest, Placed.ofTokens_append,
    flatten_ofText]
  simp [Placed.ofTokens, bind, Except.bind, pure, Except.pure]

/-- The cuts give the tokens in their places. -/
theorem tokenize_eq (d : Text) : tokenize d = .ok (Placed.ofTokens 0 (tokens d)) := by
  suffices h : ∀ ts, Tokenized ts → ∀ front : Text,
      tokensFrom (front ++ ts.flatten) (Text.byteSize front)
        (tagRanges (Text.byteSize front) ts.flatten) =
          .ok (Placed.ofTokens (Text.byteSize front) ts) by
    simpa [tokenize] using h (tokens d) (tokenized_tokens d) []
  intro ts hts
  induction hts with
  | nil => exact tokensFrom_tail (.inl .nil)
  | tag ht _ ih => exact tokensFrom_tag .nil ht ih
  | run hne hr ht _ ih =>
    have htag := tokensFrom_tag hr ht ih
    rwa [ofText_of_ne_nil hne] at htag
  | tail hne hr =>
    have htail := tokensFrom_tail hr
    simpa [ofText_of_ne_nil hne] using htail

/-- A name is cut out of what follows `<` or `</`. -/
def nameIn? (rest : Text) : Except Abort (Option Text) :=
  let stop := (Text.firstAt? endsName rest).getD (Text.byteSize rest)
  if 0 < stop then return some (← cut rest 0 stop) else return none

def name? (t : Token) : Except Abort (Option Text) :=
  if t.kind = .text then return none
  else
    match t with
    | '<' :: '/' :: rest => nameIn? rest
    | '<' :: rest => nameIn? rest
    | _ => return none

theorem nameIn?_eq (rest : Text) : nameIn? rest = .ok (nameAt? rest) := by
  have hcut := cut_front (rest.takeWhile (!endsName ·)) (rest.dropWhile (!endsName ·))
  rw [List.takeWhile_append_dropWhile] at hcut
  simp only [nameIn?, nameAt?, Text.getD_firstAt?, hcut]
  cases rest.takeWhile (!endsName ·) with
  | nil => rfl
  | cons c name =>
    have hpos := c.utf8Size_pos
    rw [if_pos (by rw [Text.byteSize_cons]; omega)]
    rfl

theorem name?_eq (t : Token) : name? t = .ok t.name? := by
  unfold name?
  split
  · next hk =>
    rw [name?_eq_none_of_kind hk]
    rfl
  · split
    · exact nameIn?_eq _
    · next hslash _ =>
      rw [nameIn?_eq, Token.name?]
      exact hslash
    · next hslash hmark =>
      rw [Token.name?]
      · rfl
      · exact hslash
      · exact hmark

end Ranges

end MarkupTemplate
