import MarkupTemplate.Proofs.Marks

/-!
Setting an attribute twice. The second value goes where the first one stands if that is still behind
the last mark of the first tag.
-/
namespace MarkupTemplate

namespace Slot

variable {attr : Text} {q : Quote} {segment value : Text} {s : Slot}

/-- With the value in it the slot is found again. -/
structure Settled (attr : Text) (s : Slot) (value : Text) : Prop where
  last : IsLast attr s.quote (value ++ s.after)
  preferred : s.quote = .single → existing? attr .double (s.fill value) = none

instance (attr : Text) (s : Slot) (value : Text) : Decidable (s.Settled attr value) :=
  decidable_of_iff (IsLast attr s.quote (value ++ s.after) ∧
      (s.quote = .single → existing? attr .double (s.fill value) = none))
    ⟨fun h => ⟨h.1, h.2⟩, fun h => ⟨h.last, h.preferred⟩⟩

/-- A value of the attribute is one that could have been written, or there is no mark at all. -/
inductive IsTidy (attr segment : Text) : Prop
  | value {q : Quote} (h : existing? attr q segment = some (ofSegment attr segment))
      (hv : IsInert (ofSegment attr segment).value)
  | absent (h : ∀ q, ¬ mark attr q <:+: segment.takeWhile (· ≠ '>'))

theorem not_mem_splitName (t : Text) : '>' ∉ (splitName t).1 := by
  unfold splitName
  split
  · next t =>
    have hname : '>' ∉ t.takeWhile (!Token.endsName ·) := by
      intro hmem
      have hends := List.mem_takeWhile_imp hmem
      simp [Token.endsName] at hends
    simp [hname]
  · simp

theorem isMarked_fresh (hattr : '>' ∉ attr) (hsegment : segment.head? = some '<') :
    (fresh attr segment).IsMarked attr .double := by
  obtain ⟨t, rfl⟩ := List.head?_eq_some_iff.mp hsegment
  refine ⟨?_, ⟨_, rfl⟩, ?_⟩
  · cases hname : t.takeWhile (!Token.endsName ·) with
    | nil => exact ⟨' ', [], by simp [fresh, splitName, hname, mark, Quote.char]⟩
    | cons c name => exact ⟨c, name ++ [' '], by simp [fresh, splitName, hname, mark, Quote.char]⟩
  · have hname := not_mem_splitName ('<' :: t)
    simp [fresh, hname, hattr]

theorem exists_isMarked (hattr : '>' ∉ attr) (hsegment : segment.head? = some '<') :
    ∃ q, (ofSegment attr segment).IsMarked attr q := by
  unfold ofSegment
  cases hdouble : existing? attr .double segment with
  | some s => exact ⟨.double, isMarked_of_existing? hdouble⟩
  | none =>
    cases hsingle : existing? attr .single segment with
    | some s => exact ⟨.single, isMarked_of_existing? hsingle⟩
    | none => exact ⟨.double, isMarked_fresh hattr hsegment⟩

theorem IsMarked.ofSegment_fill (h : s.IsMarked attr q) (hv : IsInert value)
    (hsettled : s.Settled attr value) :
    ofSegment attr (s.fill value) = ⟨s.before, value, s.after⟩ := by
  have hlast := hsettled.last
  rw [h.quote_eq] at hlast
  have hfound := h.existing?_fill (hv.not_mem_quote q) hlast
  cases q with
  | double => rw [ofSegment, hfound, Option.some_or, Option.getD_some]
  | single =>
    have hnone := hsettled.preferred h.quote_eq
    rw [ofSegment, hnone, hfound, Option.none_or, Option.getD_some]

theorem existing?_eq_none_iff : existing? attr q segment = none ↔
    ∀ c front rest, Text.cutLast? (mark attr q) (segment.takeWhile (· ≠ '>')) =
      some ('<' :: c :: front, rest) → q.char ∉ rest ++ segment.dropWhile (· ≠ '>') := by
  rw [mark]
  simp only [existing?]
  split
  · next c front rest hcut =>
    rw [Option.map_eq_none_iff, Text.cutFirst?_eq_none_iff]
    constructor
    · intro h c' front' rest' hcut'
      rw [hcut] at hcut'
      cases hcut'
      exact h
    · intro h
      exact h c front rest hcut
  · next hcut =>
    refine iff_of_true rfl ?_
    intro c front rest h
    exact absurd h (hcut c front rest)

/-- A value between other quotes has no part in a mark. -/
theorem cutLast?_mark_quoted {p : Quote} (hp : q.char ∉ mark attr p) (hv : p.char ∉ value)
    (front back : Text) :
    Text.cutLast? (mark attr p) (front ++ q.char :: (value ++ q.char :: back)) =
      ((Text.cutLast? (mark attr p) back).map fun (before, after) =>
          (front ++ q.char :: (value ++ q.char :: before), after)).or
        ((Text.cutLast? (mark attr p) front).map fun (before, after) =>
          (before, after ++ q.char :: (value ++ q.char :: back))) := by
  have hmark : mark attr p ≠ [] := by simp [mark]
  cases hback : Text.cutLast? (mark attr p) back with
  | some cut =>
    have hcut := Text.cutLast?_append_of_some hback (front ++ q.char :: (value ++ [q.char]))
    simpa using hcut
  | none =>
    have hvalue : Text.cutLast? (mark attr p) value = none := by
      rw [Text.cutLast?_eq_none_iff]
      intro hoccurs
      exact hv (hoccurs.subset (by simp [mark]))
    have hrest := Text.cutLast?_append_of_none hmark hp hback value
    rw [hvalue, Option.map_none] at hrest
    simpa using Text.cutLast?_append_of_none hmark hp hrest front

theorem takeWhile_quoted {front : Text} (hfront : '>' ∉ front) (hv : IsInert value) (back : Text) :
    (front ++ q.char :: (value ++ q.char :: back)).takeWhile (· ≠ '>') =
      front ++ q.char :: (value ++ q.char :: back.takeWhile (· ≠ '>')) := by
  have hquote : '>' ≠ q.char := by cases q <;> decide
  have hinside : '>' ∉ front ++ q.char :: (value ++ [q.char]) := by
    simp [hfront, hv.not_mem_gt, hquote]
  simpa using Text.takeWhile_ne_append hinside back

theorem dropWhile_quoted {front : Text} (hfront : '>' ∉ front) (hv : IsInert value) (back : Text) :
    (front ++ q.char :: (value ++ q.char :: back)).dropWhile (· ≠ '>') =
      back.dropWhile (· ≠ '>') := by
  have hquote : '>' ≠ q.char := by cases q <;> decide
  have hinside : '>' ∉ front ++ q.char :: (value ++ [q.char]) := by
    simp [hfront, hv.not_mem_gt, hquote]
  simpa using Text.dropWhile_ne_append hinside back

theorem IsMarked.fill_eq (h : s.IsMarked attr q) : ∃ c front back, '>' ∉ '<' :: c :: front ∧
    ∀ value, s.fill value = '<' :: c :: front ++ q.char :: (value ++ q.char :: back) := by
  obtain ⟨c, front, hfront⟩ := h.before
  obtain ⟨back, hback⟩ := h.after
  have hinside := h.inside
  rw [hfront] at hinside
  refine ⟨c, front ++ attr ++ ['='], back, ?_, ?_⟩
  · simp_all [mark]
  · intro value
    simp [fill, hfront, hback, mark]

/-- Whether there is a value in other quotes does not depend on the value in the slot. -/
theorem IsMarked.existing?_fill_eq_none (h : s.IsMarked attr q) {p : Quote}
    (hp : q.char ∉ mark attr p) {value' : Text} (hv : IsInert value) (hv' : IsInert value')
    (hnone : existing? attr p (s.fill value) = none) :
    existing? attr p (s.fill value') = none := by
  obtain ⟨c, front, back, hinside, hfill⟩ := h.fill_eq
  rw [hfill, existing?_eq_none_iff, takeWhile_quoted hinside hv, dropWhile_quoted hinside hv,
    cutLast?_mark_quoted hp (hv.not_mem_quote p)] at hnone
  rw [hfill, existing?_eq_none_iff, takeWhile_quoted hinside hv', dropWhile_quoted hinside hv',
    cutLast?_mark_quoted hp (hv'.not_mem_quote p)]
  cases hback : Text.cutLast? (mark attr p) (back.takeWhile (· ≠ '>')) with
  | some cut =>
    intro c' front' rest hcut
    rw [hback] at hnone
    cases hcut
    exact hnone _ _ _ rfl
  | none =>
    cases hfront : Text.cutLast? (mark attr p) ('<' :: c :: front) with
    | none => simp
    | some cut =>
      obtain ⟨before, after⟩ := cut
      intro c' front' rest hcut
      rw [hback, hfront] at hnone
      cases hcut
      have hrest := hnone _ _ _ rfl
      simp only [List.mem_append, List.mem_cons, not_or] at hrest ⊢
      exact ⟨⟨hrest.1.1, hrest.1.2.1, hv'.not_mem_quote p, hrest.1.2.2.2⟩, hrest.2⟩

/-- Only the end of the value in it decides whether a slot is found again. -/
theorem IsMarked.settled_iff (h : s.IsMarked attr q) (hattr : ∀ p : Quote, p.char ∉ attr)
    (hv : IsInert value) :
    s.Settled attr value ↔ ¬ attr ++ ['='] <:+ value ∧ s.Settled attr [] := by
  obtain ⟨back, hback⟩ := h.after
  have hlast : IsLast attr s.quote (value ++ s.after) ↔
      ¬ attr ++ ['='] <:+ value ∧ IsLast attr s.quote s.after := by
    have hvalue := isLast_append_iff (hattr q) hv back
    have hnil := isLast_append_iff (hattr q) isInert_nil back
    rw [h.quote_eq, hback, hvalue]
    simpa using fun _ => hnil.symm
  have hpreferred : s.quote = .single → (existing? attr .double (s.fill value) = none ↔
      existing? attr .double (s.fill []) = none) := by
    intro hquote
    have hother : q.char ∉ mark attr .double := by
      rw [h.quote_eq] at hquote
      subst hquote
      have hsingle := hattr .single
      simpa [mark, Quote.char] using hsingle
    exact ⟨h.existing?_fill_eq_none hother hv isInert_nil,
      h.existing?_fill_eq_none hother isInert_nil hv⟩
  constructor
  · intro hsettled
    obtain ⟨hend, hrest⟩ := hlast.mp hsettled.last
    exact ⟨hend, hrest, fun hquote => (hpreferred hquote).mp (hsettled.preferred hquote)⟩
  · rintro ⟨hend, hsettled⟩
    exact ⟨hlast.mpr ⟨hend, hsettled.last⟩,
      fun hquote => (hpreferred hquote).mpr (hsettled.preferred hquote)⟩

/-- A slot that was found is found again with its value. -/
theorem settled_of_existing? (h : existing? attr q segment = some (ofSegment attr segment)) :
    (ofSegment attr segment).Settled attr (ofSegment attr segment).value := by
  have hmarked := isMarked_of_existing? h
  have hlast := isLast_of_existing? h
  rw [← hmarked.quote_eq] at hlast
  refine ⟨hlast, ?_⟩
  intro hsingle
  rw [fill_existing? h]
  cases hdouble : existing? attr .double segment with
  | none => rfl
  | some s =>
    have hs : ofSegment attr segment = s := by
      rw [ofSegment, hdouble, Option.some_or, Option.getD_some]
    rw [hs, (isMarked_of_existing? hdouble).quote_eq] at hsingle
    cases hsingle

theorem settled_fresh (hattr : ∀ p : Quote, p.char ∉ attr)
    (h : ¬ mark attr .double <:+: segment.takeWhile (· ≠ '>')) :
    (fresh attr segment).Settled attr [] := by
  have hquote := (isQuoted_fresh attr segment).quote_eq
  refine ⟨?_, fun hsingle => absurd (hquote.symm.trans hsingle) (by decide)⟩
  have hiff := isLast_append_iff (hattr .double) isInert_nil (splitName segment).2
  rw [hquote]
  refine hiff.mpr ⟨by simp, ?_⟩
  intro hoccurs
  have hsegment := Text.takeWhile_ne_append (not_mem_splitName segment) (splitName segment).2
  rw [splitName_append] at hsegment
  rw [hsegment] at h
  exact h (hoccurs.trans (List.suffix_append _ _).isInfix)

theorem IsTidy.settled_nil (h : IsTidy attr segment) (hattr : ∀ p : Quote, p.char ∉ attr) :
    (ofSegment attr segment).Settled attr [] := by
  cases h with
  | value h hv =>
    exact (((isMarked_of_existing? h).settled_iff hattr hv).mp (settled_of_existing? h)).2
  | absent h =>
    have hfresh : ofSegment attr segment = fresh attr segment := by
      rw [ofSegment, existing?_eq_none (h .double), existing?_eq_none (h .single), Option.or_none,
        Option.getD_none]
    rw [hfresh]
    exact settled_fresh hattr (h .double)

end Slot

/--
What is written into an attribute last is what it would have been alone, if the slot is found again
with the earlier value in it. Unless there are quotes in the name of the attribute, only the end of
that value matters, and nothing else does in a tag that has a plain value or no mark.
-/
theorem putItem_putItem_of_settled {s : Selector} {attr : Selector.Part} (hs : s.IsAttribute attr)
    (hattr : '>' ∉ attr.val) {segment : Text} (hsegment : segment.head? = some '<') (v : Text) :
    ((Slot.ofSegment attr segment).Settled attr (Entity.encode v) →
      ∃ t, putItem s segment (some v) = .ok t ∧
        ∀ w, putItem s t (some w) = putItem s segment (some w)) ∧
    ((∀ q : Quote, q.char ∉ attr.val) →
      ((Slot.ofSegment attr segment).Settled attr (Entity.encode v) ↔
        ¬ attr.val ++ ['='] <:+ Entity.encode v ∧
          (Slot.ofSegment attr segment).Settled attr []) ∧
      (Slot.IsTidy attr segment → (Slot.ofSegment attr segment).Settled attr [])) := by
  obtain ⟨q, hmarked⟩ := Slot.exists_isMarked hattr hsegment
  have hv := Slot.isInert_encode v
  constructor
  · intro hsettled
    have hfound := hmarked.ofSegment_fill hv hsettled
    refine ⟨_, putItem_attribute hs segment v, ?_⟩
    intro w
    rw [putItem_attribute hs, putItem_attribute hs, hfound]
    rfl
  · intro hquotes
    exact ⟨hmarked.settled_iff hquotes hv, fun htidy => htidy.settled_nil hquotes⟩

/-- A value that goes on behind the tag is not plain, and still nothing else is in the way. -/
theorem putItem_putItem_of_long_value :
    (Slot.ofSegment ['a'] ['<', 'p', ' ', 'a', '=', '\'', 'x', '\'', '>']).Settled ['a'] [] ∧
    (Slot.ofSegment ['a']
      ['<', 'p', ' ', 'a', '=', '\'', 'x', '>', '\'', ' ', 'b', '=', '"', '"', '>']).Settled ['a']
        ['b', '='] ∧
    ∃ t, putItem (.parse ['p', ':', 'a'])
        ['<', 'p', ' ', 'a', '=', '\'', 'x', '>', '\'', ' ', 'b', '=', '"', '"', '>']
        (some ['b', '=']) = .ok t ∧
      ∀ w, putItem (.parse ['p', ':', 'a']) t (some w) = putItem (.parse ['p', ':', 'a'])
        ['<', 'p', ' ', 'a', '=', '\'', 'x', '>', '\'', ' ', 'b', '=', '"', '"', '>'] (some w) := by
  have hs : (Selector.parse ['p', ':', 'a']).IsAttribute ⟨['a'], by decide⟩ :=
    ⟨by decide, by decide⟩
  have hsegment : List.head?
      ['<', 'p', ' ', 'a', '=', '\'', 'x', '>', '\'', ' ', 'b', '=', '"', '"', '>'] =
        some '<' := rfl
  have hboth := putItem_putItem_of_settled hs (by decide) hsegment ['b', '=']
  have hquotes : ∀ q : Quote, q.char ∉ ['a'] := by
    intro q
    cases q <;> decide
  have hsettled := (hboth.2 hquotes).1.mpr ⟨by decide, by decide⟩
  have hplain : List.head? ['<', 'p', ' ', 'a', '=', '\'', 'x', '\'', '>'] = some '<' := rfl
  have htidy : Slot.IsTidy ['a'] ['<', 'p', ' ', 'a', '=', '\'', 'x', '\'', '>'] :=
    .value (q := .single) (by decide) (by decide)
  have hnil := ((putItem_putItem_of_settled hs (by decide) hplain []).2 hquotes).2 htidy
  exact ⟨hnil, hsettled, hboth.1 hsettled⟩

/-- The value ends at its quote, behind the first `>`, so that another one comes into the tag. -/
theorem not_forall_putItem_putItem :
    ¬ ∀ (s : Selector) (attr : Selector.Part) (d : Text) (g : Segment) (v w : Text),
      s.IsAttribute attr → g ∈ segments s d → g.matched = true →
      (putItem s g.text (some v) >>= fun t => putItem s t (some w)) =
        putItem s g.text (some w) := by
  intro h
  have hput := h (.parse ['p', ':', 'a']) ⟨['a'], by decide⟩
    ['<', 'p', ' ', 'a', '=', '"', 'x', '>', '"', ' ', 'a', '=', '"', 'y', '"', '>',
      '<', '/', 'p', '>']
    ⟨true, [['<', 'p', ' ', 'a', '=', '"', 'x', '>'], ['"', ' ', 'a', '=', '"', 'y', '"', '>'],
      ['<', '/', 'p', '>']]⟩ ['v'] ['w'] ⟨by decide, by decide⟩ (by decide) rfl
  exact absurd hput (by decide)

end MarkupTemplate
