import MarkupTemplate.Proofs.StartTags

/-!
The classes of a start tag in the usual form. They are read behind the first mark of `class`, which
can be the end of a longer name or of a value.
-/
namespace MarkupTemplate

namespace Text

theorem cutFirst?_append (mark after : Text) :
    cutFirst? mark (mark ++ after) = some ([], after) := by
  cases mark with
  | nil => cases after <;> simp [cutFirst?]
  | cons c mark =>
    have hprefix : (c :: mark).isPrefixOf (c :: (mark ++ after)) = true := by
      simp [List.isPrefixOf_iff_prefix]
    rw [List.cons_append, cutFirst?, if_pos hprefix]
    simp

theorem cutFirst?_cons {mark t : Text} {c : Char} (h : ¬ mark <+: c :: t) :
    cutFirst? mark (c :: t) =
      (cutFirst? mark t).map fun (before, after) => (c :: before, after) := by
  rw [cutFirst?, if_neg (by rwa [List.isPrefixOf_iff_prefix])]

end Text

namespace Slot

variable {attr front : Text} {q : Quote}

theorem mark_prefix_iff (hq : q.char ∉ attr) (hfront : q.char ∉ front) (back : Text) :
    mark attr q <+: front ++ q.char :: back ↔ front = attr ++ ['='] := by
  constructor
  · rintro ⟨rest, h⟩
    have heq : attr ++ ['='] ++ q.char :: rest = front ++ q.char :: back := by
      rw [← h]
      simp [mark]
    exact (Text.append_cons_inj (not_mem_assigned hq) hfront heq).1.symm
  · rintro rfl
    exact ⟨back, by simp [mark]⟩

/-- A mark that ends at the first quote of a text is its first one. -/
theorem cutFirst?_mark_of_suffix (hq : q.char ∉ attr) (hfront : q.char ∉ front)
    (h : attr ++ ['='] <:+ front) (back : Text) :
    ∃ before, Text.cutFirst? (mark attr q) (front ++ q.char :: back) = some (before, back) := by
  induction front with
  | nil => simp at h
  | cons c front ih =>
    rcases List.suffix_cons_iff.mp h with heq | hsuffix
    · have hmark : c :: front ++ q.char :: back = mark attr q ++ back := by simp [← heq, mark]
      exact ⟨[], by rw [hmark, Text.cutFirst?_append]⟩
    · have hprefix : ¬ mark attr q <+: c :: front ++ q.char :: back := by
        rw [mark_prefix_iff hq hfront]
        intro heq
        have hle := hsuffix.length_le
        rw [← heq, List.length_cons] at hle
        omega
      obtain ⟨before, hcut⟩ := ih (List.not_mem_of_not_mem_cons hfront) hsuffix
      rw [List.cons_append] at hprefix ⊢
      rw [Text.cutFirst?_cons hprefix, hcut]
      exact ⟨c :: before, rfl⟩

/-- Without a mark at the first quote, the first mark is behind that. -/
theorem cutFirst?_mark_of_not_suffix (hq : q.char ∉ attr) (hfront : q.char ∉ front)
    (h : ¬ attr ++ ['='] <:+ front) (back : Text) :
    Text.cutFirst? (mark attr q) (front ++ q.char :: back) =
      (Text.cutFirst? (mark attr q) back).map fun (before, after) =>
        (front ++ q.char :: before, after) := by
  have hprefix : ¬ mark attr q <+: front ++ q.char :: back := by
    rw [mark_prefix_iff hq hfront]
    rintro rfl
    exact h List.suffix_rfl
  induction front with
  | nil => exact Text.cutFirst?_cons hprefix
  | cons c front ih =>
    have hfront' := List.not_mem_of_not_mem_cons hfront
    have hsuffix : ¬ attr ++ ['='] <:+ front := fun h' => h (h'.trans (List.suffix_cons c front))
    have hrest : ¬ mark attr q <+: front ++ q.char :: back := by
      rw [mark_prefix_iff hq hfront']
      rintro rfl
      exact hsuffix List.suffix_rfl
    rw [List.cons_append] at hprefix ⊢
    rw [Text.cutFirst?_cons hprefix, ih hfront' hsuffix hrest, Option.map_map]
    rfl

end Slot

namespace Selector

def classAttr : Text := ['c', 'l', 'a', 's', 's']

theorem isName_classAttr : IsName classAttr := by decide

theorem parse_class {c : Part} (hcolon : ':' ∉ c.val) (hbang : '!' ∉ c.val) :
    parse ('.' :: c.val) = ⟨.element none (some c), none, false⟩ := by
  have hlast : ('.' :: c.val).getLast? ≠ some '!' := by
    intro hlast
    have hmem := List.mem_of_getLast? hlast
    simp [hbang] at hmem
  have hcolon' : ':' ∉ '.' :: c.val := by simpa using hcolon
  have htarget : Target.parse ([] ++ '.' :: c.val) = .element none (some c) := by
    rw [Target.parse_append_dot List.not_mem_nil, Part.ofText?_val, Part.ofText?_nil]
  rw [parse_eq (splitEmbed_of_getLast?_ne hlast) (splitAttr_of_not_mem hcolon')]
  rw [← htarget, List.nil_append]

variable {q : Quote} {front : Text}

theorem classValue?_eq (q : Quote) (tag : Text) :
    classValue? q tag = (Text.cutFirst? (Slot.mark classAttr q) tag).bind fun (_, rest) =>
      (Text.cutFirst? [q.char] rest).map (·.1) := by
  have hmark : ['c', 'l', 'a', 's', 's', '=', q.char] = Slot.mark classAttr q := rfl
  unfold classValue?
  rw [hmark]
  cases Text.cutFirst? (Slot.mark classAttr q) tag with
  | none => rfl
  | some p => cases h : Text.cutFirst? [q.char] p.2 <;> simp [h]

theorem classValue?_of_suffix (hfront : q.char ∉ front) (h : classAttr ++ ['='] <:+ front)
    (back : Text) :
    classValue? q (front ++ q.char :: back) = (Text.cutFirst? [q.char] back).map (·.1) := by
  have hq : q.char ∉ classAttr := isName_classAttr.inert.not_mem_quote q
  obtain ⟨before, hcut⟩ := Slot.cutFirst?_mark_of_suffix hq hfront h back
  rw [classValue?_eq, hcut]
  rfl

theorem classValue?_of_not_suffix (hfront : q.char ∉ front) (h : ¬ classAttr ++ ['='] <:+ front)
    (back : Text) : classValue? q (front ++ q.char :: back) = classValue? q back := by
  have hq : q.char ∉ classAttr := isName_classAttr.inert.not_mem_quote q
  rw [classValue?_eq, classValue?_eq, Slot.cutFirst?_mark_of_not_suffix hq hfront h]
  cases Text.cutFirst? (Slot.mark classAttr q) back <;> rfl

theorem classValue?_eq_none (h : q.char ∉ front) : classValue? q front = none := by
  have hnone : Text.cutFirst? (Slot.mark classAttr q) front = none := by
    rw [← Option.not_isSome_iff_eq_none]
    intro hmark
    exact h ((Text.hasMark_iff.mp hmark).subset (by simp [Slot.mark]))
  rw [classValue?_eq, hnone]
  rfl

end Selector

namespace Attribute

open Selector (classAttr classValue?)

/--
What stands behind the first mark of `attr` up to the next quote: a value, or the name behind a
value that ends like a mark.
-/
def shown? (attr : Text) : List Attribute → Option Text
  | [] => none
  | x :: xs =>
    if attr.isSuffixOf x.name then some x.value
    else if (attr ++ ['=']).isSuffixOf x.value then xs.head?.map fun y => ' ' :: y.name ++ ['=']
    else shown? attr xs

/-- The next quote is in front of the value of the next attribute. -/
theorem cutFirst?_texts {back : Text} (hback : '"' ∉ back) (xs : List Attribute) :
    (Text.cutFirst? ['"'] (xs.flatMap text ++ back)).map (·.1) =
      xs.head?.map fun y => ' ' :: y.name ++ ['='] := by
  cases xs with
  | nil =>
    rw [Text.cutFirst?_eq_none (by simpa using hback)]
    rfl
  | cons y ys =>
    have hname : '"' ∉ ' ' :: y.name ++ ['='] := by
      have hy := y.isName.inert.not_mem_quote .double
      simp_all [Quote.char]
    rw [List.flatMap_cons, List.append_assoc, text_eq, Text.cutFirst?_of_not_mem hname]
    rfl

theorem classValue?_texts {front back : Text} (hfront : '"' ∉ front) (hback : '"' ∉ back)
    (xs : List Attribute) :
    classValue? .double (front ++ (xs.flatMap text ++ back)) = shown? classAttr xs := by
  induction xs generalizing front with
  | nil =>
    have hmem : Quote.double.char ∉ front ++ back := by simp_all [Quote.char]
    exact Selector.classValue?_eq_none hmem
  | cons x xs ih =>
    have hname : '"' ∉ front ++ ' ' :: x.name ++ ['='] := by
      have hx := x.isName.inert.not_mem_quote .double
      simp_all [Quote.char]
    have hvalue := x.inert.not_mem_quote .double
    have htext : front ++ ((x :: xs).flatMap text ++ back) = (front ++ ' ' :: x.name ++ ['=']) ++
        Quote.double.char :: (x.value ++ Quote.double.char :: (xs.flatMap text ++ back)) := by
      simp [text_eq, Quote.char]
    have hrest : classValue? .double (xs.flatMap text ++ back) = shown? classAttr xs :=
      ih List.not_mem_nil
    rw [htext, shown?]
    simp only [List.isSuffixOf_iff_suffix]
    split
    · next h =>
      rw [← assigned_suffix_iff Selector.isName_classAttr front] at h
      rw [Selector.classValue?_of_suffix hname h, Text.cutFirst?_of_not_mem hvalue]
      rfl
    · next h =>
      rw [← assigned_suffix_iff Selector.isName_classAttr front] at h
      rw [Selector.classValue?_of_not_suffix hname h]
      split
      · next h' =>
        rw [Selector.classValue?_of_suffix hvalue h']
        exact cutFirst?_texts hback xs
      · next h' => rw [Selector.classValue?_of_not_suffix hvalue h', hrest]

/-- In front of `attr`, or without it, another attribute has a mark of it. -/
inductive IsObscured (attr : Text) : List Attribute → Prop
  | first {x : Attribute} {xs : List Attribute} (hshows : x.Shows attr) (hne : x.name ≠ attr) :
      IsObscured attr (x :: xs)
  | later {x : Attribute} {xs : List Attribute} (hne : x.name ≠ attr) (h : IsObscured attr xs) :
      IsObscured attr (x :: xs)

theorem shown?_cons_of_not_shows {attr : Text} {x : Attribute} (h : ¬ x.Shows attr)
    (xs : List Attribute) : shown? attr (x :: xs) = shown? attr xs := by
  rw [Shows, not_or] at h
  simp only [shown?, List.isSuffixOf_iff_suffix, if_neg h.1, if_neg h.2]

/-- An attribute that nothing obscures shows its value. -/
theorem shown?_eq_some_iff {attr : Text} {xs : List Attribute}
    (hdistinct : (xs.map (·.name)).Nodup) (h : ¬ IsObscured attr xs) (v : Text) :
    shown? attr xs = some v ↔ ∃ x ∈ xs, x.name = attr ∧ x.value = v := by
  induction xs with
  | nil => simp [shown?]
  | cons x xs ih =>
    rw [List.map_cons, List.nodup_cons] at hdistinct
    rw [List.exists_mem_cons_iff]
    by_cases hx : x.name = attr
    · subst hx
      have hother : ¬ ∃ y ∈ xs, y.name = x.name ∧ y.value = v := by
        rintro ⟨y, hy, hname, -⟩
        exact hdistinct.1 (hname ▸ List.mem_map_of_mem hy)
      simp [shown?, List.isSuffixOf_iff_suffix, hother]
    · have hshows : ¬ x.Shows attr := fun hshows => h (.first hshows hx)
      have hlater : ¬ IsObscured attr xs := fun hlater => h (.later hx hlater)
      rw [shown?_cons_of_not_shows hshows, ih hdistinct.2 hlater]
      simp [hx]

end Attribute

namespace StartTag

open Selector (classAttr)

variable {t : StartTag}

theorem classes_text (t : StartTag) : Selector.classes t.text =
    (Attribute.shown? classAttr t.attributes).elim [] (·.splitOn ' ') := by
  have hsingle : Selector.classValue? .single t.text = none := by
    apply Selector.classValue?_eq_none
    have hquote := not_mem_upTo (.inr rfl) t t.attributes
    simp_all [text, Quote.char]
  have hname : '"' ∉ '<' :: t.name := by
    have hquote := t.isName.inert.not_mem_quote .double
    simp_all [Quote.char]
  have hend : '"' ∉ t.slash ++ ['>'] := by simp [not_mem_slash]
  have htext : t.text = '<' :: t.name ++ (t.attributes.flatMap Attribute.text ++
      (t.slash ++ ['>'])) := by simp [text, upTo]
  have hdouble : Selector.classValue? .double t.text = Attribute.shown? classAttr t.attributes := by
    rw [htext, Attribute.classValue?_texts hname hend]
  rw [Selector.classes, hsingle, hdouble, Option.or_none]

def HasClass (t : StartTag) (c : Text) : Prop :=
  ∃ x ∈ t.attributes, x.name = classAttr ∧ c ∈ x.value.splitOn ' '

instance (t : StartTag) (c : Text) : Decidable (t.HasClass c) :=
  inferInstanceAs (Decidable (∃ x ∈ t.attributes, _))

theorem accepts_class_eq (t : StartTag) {c : Selector.Part} (hcolon : ':' ∉ c.val)
    (hbang : '!' ∉ c.val) : (Selector.parse ('.' :: c.val)).accepts t.text = true ↔
      ∃ v, Attribute.shown? classAttr t.attributes = some v ∧ c.val ∈ v.splitOn ' ' := by
  rw [Selector.parse_class hcolon hbang]
  simp only [Selector.accepts, Selector.Target.accepts, Option.all_none, Option.all_some,
    Bool.true_and, List.contains_iff_mem, classes_text]
  cases Attribute.shown? classAttr t.attributes <;> simp

/--
A class is found behind the first mark of `class`. The tag has it then and only then, unless another
attribute has a mark in front.
-/
theorem accepts_class_iff (t : StartTag) {c : Selector.Part} (hcolon : ':' ∉ c.val)
    (hbang : '!' ∉ c.val) :
    ((Selector.parse ('.' :: c.val)).accepts t.text = true ↔
      ∃ v, Attribute.shown? classAttr t.attributes = some v ∧ c.val ∈ v.splitOn ' ') ∧
    (¬ Attribute.IsObscured classAttr t.attributes →
      ((Selector.parse ('.' :: c.val)).accepts t.text = true ↔ t.HasClass c.val)) := by
  have hshown := t.accepts_class_eq hcolon hbang
  refine ⟨hshown, fun h => ?_⟩
  rw [hshown]
  constructor
  · rintro ⟨v, hv, hc⟩
    obtain ⟨x, hx, hname, rfl⟩ := (Attribute.shown?_eq_some_iff t.distinct h v).mp hv
    exact ⟨x, hx, hname, hc⟩
  · rintro ⟨x, hx, hname, hc⟩
    exact ⟨x.value, (Attribute.shown?_eq_some_iff t.distinct h _).mpr ⟨x, hx, hname, rfl⟩, hc⟩

/-- `<p class="a c" x-class="b">` -/
def classInFront : StartTag where
  name := ['p']
  attributes := [⟨classAttr, ['a', ' ', 'c'], by decide, by decide⟩,
    ⟨['x', '-', 'c', 'l', 'a', 's', 's'], ['b'], by decide, by decide⟩]
  selfClosing := false
  isName := isName_p
  distinct := by decide

/-- A longer name behind `class` has no part in the classes. -/
theorem accepts_class_iff_of_class_in_front :
    (':' ∉ ['c'] ∧ '!' ∉ ['c']) ∧
      (Selector.parse ['.', 'c']).accepts ['<', 'p', ' ', 'c', 'l', 'a', 's', 's', '=', '"', 'a',
        ' ', 'c', '"', ' ', 'x', '-', 'c', 'l', 'a', 's', 's', '=', '"', 'b', '"', '>'] = true := by
  have hcolon : ':' ∉ ['c'] := by decide
  have hbang : '!' ∉ ['c'] := by decide
  have hobscured : ¬ Attribute.IsObscured classAttr classInFront.attributes := by
    intro h
    cases h with
    | first _ hne => exact hne rfl
    | later hne => exact hne rfl
  have hclass : classInFront.HasClass ['c'] := by decide
  have haccepts := accepts_class_iff classInFront (c := ⟨['c'], by decide⟩) hcolon hbang
  exact ⟨⟨hcolon, hbang⟩, (haccepts.2 hobscured).mpr hclass⟩

/-- `<p x-class="b" class="c">` -/
def classBehind : StartTag where
  name := ['p']
  attributes := [⟨['x', '-', 'c', 'l', 'a', 's', 's'], ['b'], by decide, by decide⟩,
    ⟨classAttr, ['c'], by decide, by decide⟩]
  selfClosing := false
  isName := isName_p
  distinct := by decide

/-- The end of a longer name in front of `class` is taken for it. -/
theorem not_forall_accepts_class :
    ¬ ∀ (t : StartTag) (c : Selector.Part), (∀ d ∈ [' ', '"', '\'', ':', '!'], d ∉ c.val) →
      ((Selector.parse ('.' :: c.val)).accepts t.text = true ↔ t.HasClass c.val) := by
  intro h
  have hrefused : (Selector.parse ['.', 'c']).accepts classBehind.text = false := rfl
  have hclass : classBehind.HasClass ['c'] := by decide
  have haccepted := (h classBehind ⟨['c'], by decide⟩ (by simp)).mpr hclass
  exact Bool.false_ne_true (hrefused.symm.trans haccepted)

end StartTag

end MarkupTemplate
