import MarkupTemplate.Proofs.Attributes
import MarkupTemplate.Proofs.Canonical
import MarkupTemplate.Proofs.Entities

/-!
Where the value of an attribute is found: behind the last mark in the first tag. A mark is the name
of the attribute, `=` and a quote.
-/
namespace MarkupTemplate

namespace Text

variable {c : Char} {mark t before after : Text}

theorem cutFirst?_eq_none_iff : cutFirst? [c] t = none ↔ c ∉ t := by
  refine ⟨?_, cutFirst?_eq_none⟩
  intro hcut hmem
  obtain ⟨front, back, rfl, hfront⟩ := List.eq_append_cons_of_mem hmem
  rw [cutFirst?_of_not_mem hfront] at hcut
  cases hcut

theorem append_cons_inj {before' after' : Text} (h : c ∉ before) (h' : c ∉ before')
    (he : before ++ c :: after = before' ++ c :: after') : before = before' ∧ after = after' := by
  have hcut := cutFirst?_of_not_mem h after
  rw [he, cutFirst?_of_not_mem h'] at hcut
  cases hcut
  exact ⟨rfl, rfl⟩

theorem cutLast?_eq_none_iff : cutLast? mark t = none ↔ ¬ mark <:+: t := by
  induction t with
  | nil => by_cases hmark : mark = [] <;> simp [cutLast?, hmark]
  | cons d t ih =>
    rw [List.infix_cons_iff, not_or, ← ih, ← List.isPrefixOf_iff_prefix]
    cases hcut : cutLast? mark t <;> simp [cutLast?, hcut]

theorem not_infix_of_cutLast? (hmark : mark ≠ []) (h : cutLast? mark t = some (before, after)) :
    ¬ mark <:+: mark.tail ++ after := by
  induction t generalizing before with
  | nil => simp [cutLast?, hmark] at h
  | cons d t ih =>
    cases hcut : cutLast? mark t with
    | some cut =>
      obtain ⟨before', after'⟩ := cut
      have hcons : (d :: before', after') = (before, after) := by simpa [cutLast?, hcut] using h
      cases hcons
      exact ih hcut
    | none =>
      -- The occurrence is at the front, and behind its first character there is none.
      have hempty : before = [] := by
        simp only [cutLast?, hcut] at h
        split at h <;> cases h
        rfl
      have ht := eq_of_cutLast? h
      rw [hempty, List.nil_append] at ht
      have htail : t = mark.tail ++ after := by
        rw [← List.tail_append_of_ne_nil hmark, ← ht, List.tail_cons]
      rw [← htail]
      exact cutLast?_eq_none_iff.mp hcut

/-- The last occurrence is the one behind whose first character there is none. -/
theorem cutLast?_append (hmark : mark ≠ []) (h : ¬ mark <:+: mark.tail ++ after) (before : Text) :
    cutLast? mark (before ++ (mark ++ after)) = some (before, after) := by
  induction before with
  | nil =>
    obtain ⟨c, tail, rfl⟩ := List.exists_cons_of_ne_nil hmark
    have hnone := cutLast?_eq_none_iff.mpr h
    rw [List.tail_cons] at hnone
    simp [cutLast?, hnone]
  | cons d before ih =>
    rw [List.cons_append, cutLast?, ih]

theorem cutLast?_append_of_some {t' : Text} (h : cutLast? mark t' = some (before, after))
    (t : Text) : cutLast? mark (t ++ t') = some (t ++ before, after) := by
  induction t with
  | nil => exact h
  | cons d t ih => simp [cutLast?, ih]

theorem prefix_append_cons_iff (hc : c ∉ mark) (before after : Text) :
    mark <+: before ++ c :: after ↔ mark <+: before := by
  constructor
  · intro h
    rcases List.prefix_or_prefix_of_prefix h (List.prefix_append before (c :: after)) with h' | h'
    · exact h'
    · obtain ⟨rest, rfl⟩ := h'
      have hrest := (List.prefix_append_right_inj before).mp h
      cases rest with
      | nil => simp
      | cons d rest =>
        obtain ⟨rfl, -⟩ := List.cons_prefix_cons.mp hrest
        exact absurd (by simp) hc
  · intro h
    exact h.trans (List.prefix_append before (c :: after))

/-- No occurrence goes over a character that is not in the mark. -/
theorem cutLast?_append_of_none {t' : Text} (hmark : mark ≠ []) (hc : c ∉ mark)
    (h : cutLast? mark t' = none) (t : Text) :
    cutLast? mark (t ++ c :: t') =
      (cutLast? mark t).map fun (before, after) => (before, after ++ c :: t') := by
  induction t with
  | nil =>
    have hprefix : ¬ mark <+: c :: t' := by
      have hiff := prefix_append_cons_iff hc [] t'
      simpa [hmark] using hiff
    simp [cutLast?, h, hmark, List.isPrefixOf_iff_prefix, hprefix]
  | cons d t ih =>
    cases hcut : cutLast? mark t with
    | some p => simp [cutLast?, hcut, ih]
    | none =>
      have hprefix := prefix_append_cons_iff hc (d :: t) t'
      rw [List.cons_append] at hprefix
      simp only [List.cons_append, cutLast?, hcut, ih, Option.map_none, List.isPrefixOf_iff_prefix,
        hprefix]
      split
      · next hp =>
        have hlength := hp.length_le
        rw [← List.cons_append, List.drop_append_of_le_length hlength]
        rfl
      · rfl

end Text

namespace Slot

variable {attr : Text} {q : Quote} {segment : Text} {s : Slot}

/-- A value that can stand in a slot: it ends neither the slot nor the tag. -/
def IsInert (value : Text) : Prop := ∀ c ∈ Entity.delimiters, c ∉ value

instance (value : Text) : Decidable (IsInert value) :=
  List.decidableBAll (fun c => c ∉ value) Entity.delimiters

theorem isInert_nil : IsInert [] := fun _ _ => List.not_mem_nil

theorem isInert_encode (t : Text) : IsInert (Entity.encode t) := fun _ hc =>
  Entity.not_mem_encode hc t

theorem IsInert.not_mem_quote {value : Text} (h : IsInert value) (q : Quote) : q.char ∉ value := by
  cases q <;> exact h _ (by decide)

theorem IsInert.not_mem_gt {value : Text} (h : IsInert value) : '>' ∉ value := h '>' (by decide)

def mark (attr : Text) (q : Quote) : Text := attr ++ ['=', q.char]

theorem not_mem_assigned (hq : q.char ∉ attr) : q.char ∉ attr ++ ['='] := by
  cases q <;> simpa [Quote.char] using hq

/-- A mark ends at the first quote of a text or begins behind it. -/
theorem mark_infix_iff (hq : q.char ∉ attr) {front back : Text} (hfront : q.char ∉ front) :
    mark attr q <:+: front ++ q.char :: back ↔
      attr ++ ['='] <:+ front ∨ mark attr q <:+: back := by
  have hassigned := not_mem_assigned hq
  constructor
  · rintro ⟨x, y, h⟩
    have heq : x ++ (attr ++ ['=']) ++ q.char :: y = front ++ q.char :: back := by
      rw [← h]
      simp [mark]
    by_cases hx : q.char ∈ x
    · obtain ⟨x, z, rfl, hleft⟩ := List.eq_append_cons_of_mem hx
      simp only [List.append_assoc, List.cons_append] at heq
      have hback := (Text.append_cons_inj hleft hfront heq).2
      exact .inr ⟨z, y, by simp [← hback, mark]⟩
    · have hleft : q.char ∉ x ++ (attr ++ ['=']) := by
        rw [List.mem_append, not_or]
        exact ⟨hx, hassigned⟩
      exact .inl ⟨x, (Text.append_cons_inj hleft hfront heq).1⟩
  · rintro (⟨x, rfl⟩ | ⟨x, y, rfl⟩)
    · exact ⟨x, back, by simp [mark]⟩
    · exact ⟨front ++ q.char :: x, y, by simp⟩

/-- Behind its own first character a mark does not occur before it ends. -/
theorem mark_infix_tail_iff (hq : q.char ∉ attr) (y : Text) :
    mark attr q <:+: (attr ++ ['=']).tail ++ q.char :: y ↔ mark attr q <:+: y := by
  have hu : q.char ∉ (attr ++ ['=']).tail := fun hmem =>
    not_mem_assigned hq (List.mem_of_mem_tail hmem)
  rw [mark_infix_iff hq hu, or_iff_right]
  intro hsuffix
  have hle := hsuffix.length_le
  rw [List.length_tail, List.length_append, List.length_singleton] at hle
  omega

/-- The slot stands in the first tag, between a mark and a quote of its sort. -/
structure IsMarked (attr : Text) (q : Quote) (s : Slot) : Prop where
  before : ∃ c front, s.before = '<' :: c :: front ++ mark attr q
  after : ∃ back, s.after = q.char :: back
  inside : '>' ∉ s.before

theorem IsMarked.quote_eq (h : s.IsMarked attr q) : s.quote = q := by
  obtain ⟨c, front, hfront⟩ := h.before
  have hbefore : s.before = '<' :: c :: front ++ (attr ++ ['=']) ++ [q.char] := by
    simp [hfront, mark]
  have hquoted : s.IsQuoted q := ⟨⟨_, hbefore⟩, h.after⟩
  exact hquoted.quote_eq

/-- Behind the mark in front of a slot there is no other one, as long as the first tag lasts. -/
def IsLast (attr : Text) (q : Quote) (rest : Text) : Prop :=
  ¬ mark attr q <:+: (mark attr q).tail ++ rest.takeWhile (· ≠ '>')

instance (attr : Text) (q : Quote) (rest : Text) : Decidable (IsLast attr q rest) :=
  decidable_of_iff
    (Text.hasMark (mark attr q) ((mark attr q).tail ++ rest.takeWhile (· ≠ '>')) = false)
    (by rw [IsLast, ← Text.hasMark_iff, Bool.not_eq_true])

/-- The value behind the last mark ends before the next quote. -/
theorem existing?_append {c : Char} {front rest : Text}
    (hinside : '>' ∉ '<' :: c :: front ++ mark attr q) (h : IsLast attr q rest) :
    existing? attr q ('<' :: c :: front ++ mark attr q ++ rest) =
      (Text.cutFirst? [q.char] rest).map fun (value, after) =>
        ⟨'<' :: c :: front ++ mark attr q, value, q.char :: after⟩ := by
  have hcut := Text.cutLast?_append (by simp [mark]) h ('<' :: c :: front)
  rw [← List.append_assoc, ← Text.takeWhile_ne_append hinside] at hcut
  have hrest := List.takeWhile_append_dropWhile (p := (· ≠ '>')) (l := rest)
  rw [mark] at hcut hinside ⊢
  simp only [existing?, hcut, Text.dropWhile_ne_append hinside, hrest]

theorem IsMarked.existing?_fill (h : s.IsMarked attr q) {value : Text} (hq : q.char ∉ value)
    (hlast : IsLast attr q (value ++ s.after)) :
    existing? attr q (s.fill value) = some ⟨s.before, value, s.after⟩ := by
  obtain ⟨c, front, hfront⟩ := h.before
  obtain ⟨back, hback⟩ := h.after
  have hinside := h.inside
  rw [hfront] at hinside
  rw [fill, hfront, List.append_assoc, existing?_append hinside hlast, hback,
    Text.cutFirst?_of_not_mem hq]
  rfl

theorem existing?_eq_none (h : ¬ mark attr q <:+: segment.takeWhile (· ≠ '>')) :
    existing? attr q segment = none := by
  have hcut := Text.cutLast?_eq_none_iff.mpr h
  rw [mark] at hcut
  simp only [existing?, hcut]

/-- A name that has no such quote is read over at once. -/
theorem isLast_iff (hq : q.char ∉ attr) (rest : Text) :
    IsLast attr q rest ↔ ¬ mark attr q <:+: rest.takeWhile (· ≠ '>') := by
  have hmark : (mark attr q).tail = (attr ++ ['=']).tail ++ [q.char] := by
    cases attr <;> simp [mark]
  rw [IsLast, hmark, List.append_assoc, List.singleton_append, mark_infix_tail_iff hq]

/-- Behind a value only its end can be part of a mark. -/
theorem isLast_append_iff (hq : q.char ∉ attr) {value : Text} (hv : IsInert value) (back : Text) :
    IsLast attr q (value ++ q.char :: back) ↔
      ¬ attr ++ ['='] <:+ value ∧ ¬ mark attr q <:+: back.takeWhile (· ≠ '>') := by
  have hquote : q.char ≠ '>' := by cases q <;> decide
  rw [isLast_iff hq, Text.takeWhile_ne_append hv.not_mem_gt,
    List.takeWhile_cons_of_pos (by simpa using hquote), mark_infix_iff hq (hv.not_mem_quote q),
    not_or]

/-- What a search has found: the last mark, and behind it the value up to the next quote. -/
theorem exists_cut_of_existing? (h : existing? attr q segment = some s) : ∃ c front rest back,
    Text.cutLast? (mark attr q) (segment.takeWhile (· ≠ '>')) = some ('<' :: c :: front, rest) ∧
      rest ++ segment.dropWhile (· ≠ '>') = s.value ++ q.char :: back ∧
      s.before = '<' :: c :: front ++ mark attr q ∧ s.after = q.char :: back := by
  unfold existing? at h
  simp only at h
  split at h
  · next c front rest hlast =>
    obtain ⟨⟨value, back⟩, hfirst, rfl⟩ := Option.map_eq_some_iff.mp h
    have hvalue := Text.eq_of_cutFirst? hfirst
    rw [List.append_assoc, List.singleton_append] at hvalue
    exact ⟨c, front, rest, back, hlast, hvalue, rfl, rfl⟩
  · cases h

theorem isMarked_of_existing? (h : existing? attr q segment = some s) : s.IsMarked attr q := by
  obtain ⟨c, front, rest, back, hlast, -, hbefore, hafter⟩ := exists_cut_of_existing? h
  refine ⟨⟨c, front, hbefore⟩, ⟨back, hafter⟩, ?_⟩
  have hhead := Text.not_mem_takeWhile_ne '>' segment
  rw [Text.eq_of_cutLast? hlast, ← hbefore, List.mem_append, not_or] at hhead
  exact hhead.1

theorem isLast_of_existing? (h : existing? attr q segment = some s) :
    IsLast attr q (s.value ++ s.after) := by
  have hinside := (isMarked_of_existing? h).inside
  obtain ⟨c, front, rest, back, hlast, hvalue, hbefore, hafter⟩ := exists_cut_of_existing? h
  have hhead := Text.eq_of_cutLast? hlast
  have hsegment := List.takeWhile_append_dropWhile (p := (· ≠ '>')) (l := segment)
  have htake := Text.takeWhile_ne_append hinside (rest ++ segment.dropWhile (· ≠ '>'))
  rw [← hbefore] at hhead
  rw [hhead, List.append_assoc] at hsegment
  rw [hsegment, hhead, hvalue, ← hafter] at htake
  rw [IsLast, ← List.append_cancel_left htake]
  exact Text.not_infix_of_cutLast? (by simp [mark]) hlast

theorem eq_nil_of_fill {s s' : Slot} {t : Text}
    (h : ∀ v, s.fill (Entity.encode v) = s'.fill (Entity.encode v))
    (hbefore : s'.before = s.before ++ t) (hafter : s.after = t ++ s'.after) : t = [] := by
  cases t with
  | nil => rfl
  | cons c t =>
    have hx := h ['x']
    have hy := h ['y']
    simp only [fill, hbefore, hafter, Entity.encode_cons, Entity.encode_nil, Entity.ofChar,
      List.append_assoc, List.append_cancel_left_eq, List.cons_append] at hx hy
    have hcx := (List.cons.inj hx).1
    have hcy := (List.cons.inj hy).1
    exact absurd (hcx.trans hcy.symm) (by decide)

/-- Slots that show the same with each value are in the same place. -/
theorem before_eq_of_fill {s s' : Slot}
    (h : ∀ v, s.fill (Entity.encode v) = s'.fill (Entity.encode v)) : s.before = s'.before := by
  have hnil := h []
  simp only [fill, Entity.encode_nil, List.append_nil] at hnil
  rcases List.append_eq_append_iff.mp hnil with ⟨t, hbefore, hafter⟩ | ⟨t, hbefore, hafter⟩
  · have ht := eq_nil_of_fill h hbefore hafter
    rw [hbefore, ht, List.append_nil]
  · have ht := eq_nil_of_fill (fun v => (h v).symm) hbefore hafter
    rw [hbefore, ht, List.append_nil]

end Slot

end MarkupTemplate
