import Mathlib.Data.List.Nodup
import MarkupTemplate.Proofs.Marks

/-!
Setting an attribute of a start tag in the usual form, with its attributes in double quotes. A mark
is looked for as a text, so that the end of a value can be taken for the start of another one.
-/
namespace MarkupTemplate

open Slot (mark IsInert IsLast)

structure IsName (t : Text) : Prop where
  ne_nil : t ≠ []
  ends : ∀ c ∈ t, Token.endsName c = false
  inert : IsInert t

instance (t : Text) : Decidable (IsName t) :=
  decidable_of_iff (t ≠ [] ∧ t.all (!Token.endsName ·) = true ∧ IsInert t)
    ⟨fun h => ⟨h.1, by simpa using h.2.1, h.2.2⟩,
      fun h => ⟨h.ne_nil, by simpa using h.ends, h.inert⟩⟩

theorem IsName.not_mem_blank {t : Text} (h : IsName t) : ' ' ∉ t := fun hmem =>
  absurd (h.ends ' ' hmem) (by decide)

theorem IsName.splitName {t : Text} (h : IsName t) {c : Char} (hc : Token.endsName c = true)
    (rest : Text) : Slot.splitName ('<' :: t ++ c :: rest) = ('<' :: t, c :: rest) := by
  have hpos : ∀ d ∈ t, (!Token.endsName d) = true := by simpa using h.ends
  have htake : (t ++ c :: rest).takeWhile (!Token.endsName ·) =
      t ++ (c :: rest).takeWhile (!Token.endsName ·) := List.takeWhile_append_of_pos hpos
  have hdrop : (t ++ c :: rest).dropWhile (!Token.endsName ·) =
      (c :: rest).dropWhile (!Token.endsName ·) := List.dropWhile_append_of_pos hpos
  simp [Slot.splitName, htake, hdrop, hc]

/-- Either no element has the property, or one is the last that has it. -/
theorem exists_last_or_forall_not {α : Type} (p : α → Prop) (xs : List α) :
    (∀ x ∈ xs, ¬ p x) ∨ ∃ front x back, xs = front ++ x :: back ∧ p x ∧ ∀ y ∈ back, ¬ p y := by
  induction xs with
  | nil => exact .inl (by simp)
  | cons x xs ih =>
    rcases ih with hnone | ⟨front, y, back, rfl, hy, hback⟩
    · by_cases hx : p x
      · exact .inr ⟨[], x, xs, rfl, hx, hnone⟩
      · exact .inl (List.forall_mem_cons.mpr ⟨hx, hnone⟩)
    · exact .inr ⟨x :: front, y, back, rfl, hy, hback⟩

structure Attribute where
  name : Text
  value : Text
  isName : IsName name
  inert : IsInert value

namespace Attribute

def text (x : Attribute) : Text := ' ' :: Selector.assignment x.name x.value .double

/-- There is a mark of `attr` in front of the value, or at its end. -/
def Shows (attr : Text) (x : Attribute) : Prop := attr <:+ x.name ∨ attr ++ ['='] <:+ x.value

theorem text_eq (x : Attribute) (rest : Text) :
    x.text ++ rest = ' ' :: x.name ++ ['='] ++ '"' :: (x.value ++ '"' :: rest) := by
  simp [text, Selector.assignment, Quote.char]

theorem count_text (x : Attribute) : x.text.count '"' = 2 := by
  have hname := List.count_eq_zero.mpr (x.isName.inert.not_mem_quote .double)
  have hvalue := List.count_eq_zero.mpr (x.inert.not_mem_quote .double)
  simp only [Quote.char] at hname hvalue
  simp [text, Selector.assignment, Quote.char, hname, hvalue]

theorem count_texts (xs : List Attribute) : (xs.flatMap text).count '"' = 2 * xs.length := by
  induction xs with
  | nil => rfl
  | cons x xs ih =>
    rw [List.flatMap_cons, List.count_append, count_text, ih, List.length_cons]
    omega

theorem not_mem_text {c : Char} (hc : c = '>' ∨ c = '\'') (x : Attribute) : c ∉ x.text := by
  have hname := x.isName.inert c
  have hvalue := x.inert c
  rcases hc with rfl | rfl <;>
    simp_all [text, Selector.assignment, Quote.char, Entity.delimiters]

theorem not_mem_texts {c : Char} (hc : c = '>' ∨ c = '\'') (xs : List Attribute) :
    c ∉ xs.flatMap text := by
  simpa using fun x _ => x.not_mem_text hc

variable {attr : Text} {x : Attribute}

/-- In front of a value a name does not go over the blank. -/
theorem assigned_suffix_iff (hattr : IsName attr) (front : Text) :
    attr ++ ['='] <:+ front ++ ' ' :: x.name ++ ['='] ↔ attr <:+ x.name := by
  have hblank : ' ' ∉ attr.reverse := by simpa using hattr.not_mem_blank
  have hiff := Text.prefix_append_cons_iff hblank x.name.reverse front.reverse
  rw [← List.reverse_prefix, ← List.reverse_prefix]
  simpa using hiff

/-- Marks are in front of values and at their ends only, because each ends with a quote. -/
theorem mark_infix_texts_iff (hattr : IsName attr) {front back : Text} (hfront : '"' ∉ front)
    (hback : '"' ∉ back) (xs : List Attribute) :
    mark attr .double <:+: front ++ (xs.flatMap text ++ back) ↔ ∃ x ∈ xs, x.Shows attr := by
  have hquote : Quote.double.char ∉ attr := hattr.inert.not_mem_quote .double
  induction xs generalizing front with
  | nil =>
    refine iff_of_false ?_ (by simp)
    intro hoccurs
    have hmem : '"' ∈ front ++ back := hoccurs.subset (by simp [mark, Quote.char])
    simp_all
  | cons x xs ih =>
    have hname : '"' ∉ front ++ ' ' :: x.name ++ ['='] := by
      have hx := x.isName.inert.not_mem_quote .double
      simp_all [Quote.char]
    have htext : front ++ ((x :: xs).flatMap text ++ back) = (front ++ ' ' :: x.name ++ ['=']) ++
        Quote.double.char :: (x.value ++ Quote.double.char :: (xs.flatMap text ++ back)) := by
      simp [text_eq, Quote.char]
    -- A mark ends at the first quote of the attribute, at the second one or behind both.
    rw [htext, Slot.mark_infix_iff hquote hname,
      Slot.mark_infix_iff hquote (x.inert.not_mem_quote .double), assigned_suffix_iff hattr]
    have hrest : mark attr .double <:+: xs.flatMap text ++ back ↔ ∃ y ∈ xs, y.Shows attr :=
      ih List.not_mem_nil
    rw [hrest, List.exists_mem_cons_iff, Shows, or_assoc]

end Attribute

/-- An opening or self-closing tag with attributes of different names. -/
structure StartTag where
  name : Text
  attributes : List Attribute
  selfClosing : Bool
  isName : IsName name
  distinct : (attributes.map (·.name)).Nodup

namespace StartTag

/-- The tag as far as some of its attributes. -/
def upTo (t : StartTag) (front : List Attribute) : Text :=
  '<' :: t.name ++ front.flatMap Attribute.text

/-- What is between the last attribute and the end of the tag. -/
def slash (t : StartTag) : Text := if t.selfClosing then ['/'] else []

def text (t : StartTag) : Text := t.upTo t.attributes ++ t.slash ++ ['>']

def Carries (t : StartTag) (attr : Text) : Prop := attr ∈ t.attributes.map (·.name)

instance (t : StartTag) (attr : Text) : Decidable (t.Carries attr) :=
  inferInstanceAs (Decidable (_ ∈ _))

/-- The new value in the place of the old one, or a new attribute in front of all others. -/
def set (t : StartTag) (x : Attribute) : StartTag where
  name := t.name
  attributes :=
    if t.Carries x.name then t.attributes.map fun y => if y.name = x.name then x else y
    else x :: t.attributes
  selfClosing := t.selfClosing
  isName := t.isName
  distinct := by
    split
    · have hnames : (fun y : Attribute => (if y.name = x.name then x else y).name) = (·.name) := by
        funext y
        split
        · next h => exact h.symm
        · rfl
      rw [List.map_map, Function.comp_def, hnames]
      exact t.distinct
    · next h =>
      rw [List.map_cons, List.nodup_cons]
      exact ⟨h, t.distinct⟩

/-- The slot of an attribute that stands between some of the attributes and others. -/
def slot (t : StartTag) (attr : Text) (front back : List Attribute) (rest : Text) : Slot :=
  ⟨t.upTo front ++ ' ' :: attr ++ ['=', '"'], [],
    '"' :: back.flatMap Attribute.text ++ t.slash ++ '>' :: rest⟩

variable {t : StartTag} {attr : Text} {front back : List Attribute} {x : Attribute}

theorem fill_slot (rest value : Text) :
    (t.slot attr front back rest).fill value =
      t.upTo front ++ ' ' :: Selector.assignment attr value .double ++
        back.flatMap Attribute.text ++ t.slash ++ '>' :: rest := by
  simp [slot, Slot.fill, Selector.assignment, Quote.char]

theorem text_eq_fill (ht : t.attributes = front ++ x :: back) (rest : Text) :
    t.text ++ rest = (t.slot x.name front back rest).fill x.value := by
  rw [fill_slot]
  simp [text, upTo, ht, Attribute.text]

theorem set_attributes_of_mem (ht : t.attributes = front ++ x :: back) {y : Attribute}
    (hy : y.name = x.name) : (t.set y).attributes = front ++ y :: back := by
  have hcarries : t.Carries y.name := by simp [Carries, ht, hy]
  have hdistinct := t.distinct
  rw [ht, List.map_append, List.map_cons, List.nodup_middle, List.nodup_cons, List.mem_append,
    not_or] at hdistinct
  have hkept : ∀ zs : List Attribute, x.name ∉ zs.map (·.name) →
      zs.map (fun z => if z.name = y.name then y else z) = zs := by
    intro zs hzs
    have hsame : ∀ z ∈ zs, (if z.name = y.name then y else z) = id z := by
      intro z hz
      rw [hy, if_neg, id]
      intro he
      exact hzs (he ▸ List.mem_map_of_mem hz)
    rw [List.map_congr_left hsame, List.map_id]
  simp only [set, if_pos hcarries]
  rw [ht, List.map_append, List.map_cons, if_pos hy.symm, hkept front hdistinct.1.1,
    hkept back hdistinct.1.2]

theorem text_set_of_mem (ht : t.attributes = front ++ x :: back) {y : Attribute}
    (hy : y.name = x.name) (rest : Text) :
    (t.set y).text ++ rest = (t.slot y.name front back rest).fill y.value :=
  text_eq_fill (set_attributes_of_mem ht hy) rest

theorem text_set_of_not_carries {y : Attribute} (h : ¬ t.Carries y.name) (rest : Text) :
    (t.set y).text ++ rest = (t.slot y.name [] t.attributes rest).fill y.value := by
  have ht : (t.set y).attributes = [] ++ y :: t.attributes := by
    simp only [set, if_neg h, List.nil_append]
  exact text_eq_fill ht rest

theorem not_mem_upTo {c : Char} (hc : c = '>' ∨ c = '\'') (t : StartTag) (front : List Attribute) :
    c ∉ t.upTo front ++ t.slash := by
  have hname := t.isName.inert c
  have hfront := Attribute.not_mem_texts hc front
  rcases hc with rfl | rfl <;> cases hslash : t.selfClosing <;>
    simp_all [upTo, slash, Entity.delimiters]

theorem takeWhile_text (t : StartTag) (rest : Text) :
    (t.text ++ rest).takeWhile (· ≠ '>') = t.upTo t.attributes ++ t.slash := by
  have hhead := Text.takeWhile_ne (not_mem_upTo (.inl rfl) t t.attributes) rest
  simpa [text] using hhead

/-- A blank, `/` or `>` is behind the name. -/
theorem exists_endsName (t : StartTag) (rest : Text) :
    ∃ c back, Token.endsName c = true ∧
      t.attributes.flatMap Attribute.text ++ t.slash ++ '>' :: rest = c :: back := by
  cases t.attributes with
  | cons x back => exact ⟨' ', _, by decide, rfl⟩
  | nil =>
    unfold slash
    cases t.selfClosing with
    | true => exact ⟨'/', _, by decide, rfl⟩
    | false => exact ⟨'>', _, by decide, rfl⟩

theorem fresh_text (t : StartTag) (attr rest : Text) :
    Slot.fresh attr (t.text ++ rest) = t.slot attr [] t.attributes rest := by
  obtain ⟨c, back, hc, hback⟩ := t.exists_endsName rest
  have htext : t.text ++ rest = '<' :: t.name ++ c :: back := by
    rw [← hback]
    simp [text, upTo]
  rw [Slot.fresh, htext, t.isName.splitName hc]
  simp [slot, upTo, ← hback]

theorem isMarked_slot (hattr : IsName attr) (rest : Text) :
    (t.slot attr front back rest).IsMarked attr .double := by
  obtain ⟨c, name, hname⟩ := List.exists_cons_of_ne_nil t.isName.ne_nil
  refine ⟨⟨c, name ++ front.flatMap Attribute.text ++ [' '], ?_⟩, ⟨_, rfl⟩, ?_⟩
  · simp [slot, upTo, hname, mark, Quote.char]
  · have hfront := not_mem_upTo (.inl rfl) t front
    have hgt := hattr.inert.not_mem_gt
    simp_all [slot]

theorem not_mem_slash {c : Char} (hc : c ≠ '/') (t : StartTag) : c ∉ t.slash := by
  unfold slash
  split <;> simp [hc]

theorem ofSegment_eq (t : StartTag) (rest : Text) : Slot.ofSegment attr (t.text ++ rest) =
    (Slot.existing? attr .double (t.text ++ rest)).getD (t.slot attr [] t.attributes rest) := by
  have hsingle : Slot.existing? attr .single (t.text ++ rest) = none := by
    apply Slot.existing?_eq_none
    rw [takeWhile_text]
    intro hoccurs
    exact not_mem_upTo (.inr rfl) t t.attributes (hoccurs.subset (by simp [mark, Quote.char]))
  rw [Slot.ofSegment, hsingle, fresh_text, Option.or_none]

theorem isLast_rest_iff (hattr : IsName attr) (t : StartTag) (rest : Text) :
    IsLast attr .double (back.flatMap Attribute.text ++ t.slash ++ '>' :: rest) ↔
      ∀ y ∈ back, ¬ y.Shows attr := by
  have hgt : '>' ∉ back.flatMap Attribute.text ++ t.slash := by
    have hback := Attribute.not_mem_texts (.inl rfl) back
    simp [hback, not_mem_slash]
  rw [Slot.isLast_iff (hattr.inert.not_mem_quote .double), Text.takeWhile_ne hgt]
  have hiff := Attribute.mark_infix_texts_iff hattr List.not_mem_nil
    (not_mem_slash (by decide) t) back
  rw [List.nil_append] at hiff
  rw [hiff]
  simp

theorem ofSegment_of_not_shows (hattr : IsName attr) (h : ∀ y ∈ t.attributes, ¬ y.Shows attr)
    (rest : Text) :
    Slot.ofSegment attr (t.text ++ rest) = t.slot attr [] t.attributes rest := by
  have hname : '"' ∉ '<' :: t.name := by
    have hquote := t.isName.inert.not_mem_quote .double
    simp_all [Quote.char]
  have hiff := Attribute.mark_infix_texts_iff hattr hname (not_mem_slash (by decide) t) t.attributes
  have hnone : Slot.existing? attr .double (t.text ++ rest) = none := by
    apply Slot.existing?_eq_none
    rw [takeWhile_text, upTo, List.append_assoc, hiff]
    rintro ⟨y, hy, hshows⟩
    exact h y hy hshows
  rw [ofSegment_eq, hnone, Option.getD_none]

/-- If the last mark is in front of a value, this is the value that is replaced. -/
theorem ofSegment_of_name (hattr : IsName attr) (ht : t.attributes = front ++ x :: back)
    (hx : x.name = attr) (hvalue : ¬ attr ++ ['='] <:+ x.value)
    (hback : ∀ y ∈ back, ¬ y.Shows attr) (rest : Text) :
    Slot.ofSegment attr (t.text ++ rest) =
      ⟨(t.slot attr front back rest).before, x.value, (t.slot attr front back rest).after⟩ := by
  have hquote : Quote.double.char ∉ attr := hattr.inert.not_mem_quote .double
  have hrest := (isLast_rest_iff hattr t rest).mpr hback
  have hlast : IsLast attr .double (x.value ++ (t.slot attr front back rest).after) := by
    rw [Slot.isLast_iff hquote] at hrest
    exact (Slot.isLast_append_iff hquote x.inert _).mpr ⟨hvalue, hrest⟩
  have hfound := (isMarked_slot hattr rest).existing?_fill (x.inert.not_mem_quote .double) hlast
  rw [ofSegment_eq, text_eq_fill ht, hx, hfound, Option.getD_some]

/-- The quote behind a value is taken for one in front of a value. -/
theorem existing?_of_value (hattr : IsName attr) (ht : t.attributes = front ++ x :: back)
    (hx : attr ++ ['='] <:+ x.value) (hback : ∀ y ∈ back, ¬ y.Shows attr) (rest : Text) :
    Slot.existing? attr .double (t.text ++ rest) =
      (Text.cutFirst? ['"'] (back.flatMap Attribute.text ++ t.slash ++ '>' :: rest)).map
        fun (value, after) => ⟨t.upTo (front ++ [x]), value, '"' :: after⟩ := by
  obtain ⟨z, hz⟩ := hx
  obtain ⟨c, name, hname⟩ := List.exists_cons_of_ne_nil t.isName.ne_nil
  have hbefore : t.upTo (front ++ [x]) = '<' :: c :: (name ++ front.flatMap Attribute.text ++
      ' ' :: x.name ++ ['=', '"'] ++ z) ++ mark attr .double := by
    simp [upTo, hname, Attribute.text, Selector.assignment, ← hz, mark, Quote.char]
  have htext : t.text ++ rest =
      t.upTo (front ++ [x]) ++ (back.flatMap Attribute.text ++ t.slash ++ '>' :: rest) := by
    simp [text, upTo, ht]
  have hinside : '>' ∉ t.upTo (front ++ [x]) := fun hmem =>
    not_mem_upTo (.inl rfl) t _ (List.mem_append_left _ hmem)
  rw [hbefore] at hinside
  rw [htext, hbefore]
  exact Slot.existing?_append hinside ((isLast_rest_iff hattr t rest).mpr hback)

/-- The last mark is at the end of a value, and the attribute is in the tag or a quote follows. -/
def Misleads (t : StartTag) (attr rest : Text) : Prop :=
  ∃ front x back, t.attributes = front ++ x :: back ∧ attr ++ ['='] <:+ x.value ∧
    (∀ y ∈ back, ¬ y.Shows attr) ∧ (t.Carries attr ∨ back ≠ [] ∨ '"' ∈ rest)

theorem mem_rest_iff (t : StartTag) (back : List Attribute) (rest : Text) :
    '"' ∈ back.flatMap Attribute.text ++ t.slash ++ '>' :: rest ↔ back ≠ [] ∨ '"' ∈ rest := by
  have hslash := not_mem_slash (c := '"') (by decide) t
  cases back with
  | nil => simp [hslash]
  | cons y back => simp [Attribute.text, Selector.assignment, Quote.char]

theorem Carries.exists_eq (h : t.Carries attr) :
    ∃ front x back, t.attributes = front ++ x :: back ∧ x.name = attr := by
  obtain ⟨x, hx, hname⟩ := List.mem_map.mp h
  obtain ⟨front, back, ht, -⟩ := List.eq_append_cons_of_mem hx
  exact ⟨front, x, back, ht, hname⟩

theorem exists_text_set (t : StartTag) (attr rest : Text) : ∃ front back, ∀ y : Attribute,
    y.name = attr → (t.set y).text ++ rest = (t.slot attr front back rest).fill y.value := by
  by_cases hcarries : t.Carries attr
  · obtain ⟨front, x, back, ht, hx⟩ := hcarries.exists_eq
    refine ⟨front, back, fun y hy => ?_⟩
    rw [text_set_of_mem ht (hy.trans hx.symm), hy]
  · refine ⟨[], t.attributes, fun y hy => ?_⟩
    subst hy
    exact text_set_of_not_carries hcarries rest

theorem count_upTo (t : StartTag) (front : List Attribute) :
    (t.upTo front).count '"' = 2 * front.length := by
  have hname := List.count_eq_zero.mpr (t.isName.inert.not_mem_quote .double)
  rw [Quote.char] at hname
  simp [upTo, hname, Attribute.count_texts]

/-- In front of a slot the number of quotes is odd, and up to the end of an attribute it is even. -/
theorem upTo_ne_before (hattr : IsName attr) (t : StartTag) (shown front back : List Attribute)
    (rest : Text) : t.upTo shown ≠ (t.slot attr front back rest).before := by
  intro heq
  have hname := List.count_eq_zero.mpr (hattr.inert.not_mem_quote .double)
  rw [Quote.char] at hname
  have hcount := congrArg (List.count '"') heq
  rw [count_upTo, slot, List.count_append, List.count_append, count_upTo] at hcount
  simp [hname] at hcount
  omega

/-- Then a value is written behind the end of another one, or the attribute is written twice. -/
theorem Misleads.exists_fill_ne (hattr : IsName attr) {rest : Text} (h : t.Misleads attr rest) :
    ∃ v, (Slot.ofSegment attr (t.text ++ rest)).fill (Entity.encode v) ≠
      (t.set ⟨attr, Entity.encode v, hattr, Slot.isInert_encode v⟩).text ++ rest := by
  obtain ⟨front, x, back, ht, hx, hback, hdiffers⟩ := h
  have hfound := existing?_of_value hattr ht hx hback rest
  by_cases hquote : '"' ∈ back.flatMap Attribute.text ++ t.slash ++ '>' :: rest
  · obtain ⟨value, after, hrest, hvalue⟩ := List.eq_append_cons_of_mem hquote
    rw [hrest, Text.cutFirst?_of_not_mem hvalue, Option.map_some] at hfound
    obtain ⟨front', back', hset⟩ := t.exists_text_set attr rest
    -- If all values came to the same, the slot that was found would be one behind a name.
    by_contra hnot
    push Not at hnot
    have hbefore := Slot.before_eq_of_fill fun v => (hnot v).trans (hset _ rfl)
    rw [ofSegment_eq, hfound, Option.getD_some] at hbefore
    exact upTo_ne_before hattr t _ front' back' rest hbefore
  · have hcarries : t.Carries attr := by
      rw [mem_rest_iff] at hquote
      exact hdiffers.resolve_right hquote
    obtain ⟨front', y, back', ht', hy⟩ := hcarries.exists_eq
    -- The attribute is written once more, so that the text gets longer than it should.
    rw [Text.cutFirst?_eq_none hquote, Option.map_none] at hfound
    refine ⟨[], fun heq => ?_⟩
    rw [ofSegment_eq, hfound, Option.getD_none, text_set_of_mem ht' hy.symm, fill_slot,
      fill_slot] at heq
    have hlength := congrArg List.length heq
    simp [ht', upTo, Attribute.text, Selector.assignment] at hlength
    omega

theorem fill_of_not_misleads (hattr : IsName attr)
    (hend : ∀ x ∈ t.attributes, attr <:+ x.name → x.name = attr) {rest : Text}
    (h : ¬ t.Misleads attr rest) (v : Text) :
    (Slot.ofSegment attr (t.text ++ rest)).fill (Entity.encode v) =
      (t.set ⟨attr, Entity.encode v, hattr, Slot.isInert_encode v⟩).text ++ rest := by
  rcases exists_last_or_forall_not (Attribute.Shows attr) t.attributes with
    hnone | ⟨front, x, back, ht, hx, hback⟩
  · have hcarries : ¬ t.Carries attr := by
      intro hcarries
      obtain ⟨y, hy, hname⟩ := List.mem_map.mp hcarries
      have hsuffix : attr <:+ y.name := by simp [hname]
      exact hnone y hy (.inl hsuffix)
    rw [ofSegment_of_not_shows hattr hnone, text_set_of_not_carries hcarries]
  · by_cases hvalue : attr ++ ['='] <:+ x.value
    · have hno : ¬ (t.Carries attr ∨ back ≠ [] ∨ '"' ∈ rest) := fun hor =>
        h ⟨front, x, back, ht, hvalue, hback, hor⟩
      rw [not_or, ← mem_rest_iff t] at hno
      rw [ofSegment_eq, existing?_of_value hattr ht hvalue hback, Text.cutFirst?_eq_none hno.2,
        Option.map_none, Option.getD_none, text_set_of_not_carries hno.1]
    · have hname := hend x (by simp [ht]) (hx.resolve_right hvalue)
      rw [ofSegment_of_name hattr ht hname hvalue hback, text_set_of_mem ht hname.symm]
      rfl

/--
An attribute of a start tag is set, and all else is left alone, unless a value that ends like the
start of the attribute misleads.
-/
theorem putItem_startTag_iff {s : Selector} {attr : Selector.Part} (hs : s.IsAttribute attr)
    (hattr : IsName attr.val) (t : StartTag)
    (hend : ∀ x ∈ t.attributes, attr.val <:+ x.name → x.name = attr.val) (rest : Text) :
    (∀ v, putItem s (t.text ++ rest) (some v) =
      .ok ((t.set ⟨attr, Entity.encode v, hattr, Slot.isInert_encode v⟩).text ++ rest)) ↔
      ¬ t.Misleads attr rest := by
  constructor
  · intro hall hmisleads
    obtain ⟨v, hv⟩ := hmisleads.exists_fill_ne hattr
    have hput := hall v
    rw [putItem_attribute hs] at hput
    exact hv (Except.ok.inj hput)
  · intro hnot v
    rw [putItem_attribute hs, fill_of_not_misleads hattr hend hnot]

theorem isName_p : IsName ['p'] := by decide

/-- `<p b="a=" a="1"/>` -/
def valueInFront : StartTag where
  name := ['p']
  attributes := [⟨['b'], ['a', '='], by decide, by decide⟩, ⟨['a'], ['1'], by decide, by decide⟩]
  selfClosing := true
  isName := isName_p
  distinct := by decide

/-- The attribute is behind the value that ends like its start. -/
theorem putItem_startTag_of_value_in_front :
    IsName ['a'] ∧ ∀ v, putItem (.parse ['p', ':', 'a'])
        ['<', 'p', ' ', 'b', '=', '"', 'a', '=', '"', ' ', 'a', '=', '"', '1', '"', '/', '>', '"']
        (some v) =
      .ok (['<', 'p', ' ', 'b', '=', '"', 'a', '=', '"', ' ', 'a', '=', '"'] ++
        (Entity.encode v ++ ['"', '/', '>', '"'])) := by
  have hs : (Selector.parse ['p', ':', 'a']).IsAttribute ⟨['a'], by decide⟩ :=
    ⟨by decide, by decide⟩
  have hattr : IsName ['a'] := by decide
  have hend : ∀ x ∈ valueInFront.attributes, ['a'] <:+ x.name → x.name = ['a'] := by decide
  have hnot : ¬ valueInFront.Misleads ['a'] ['"'] := by
    rintro ⟨front, x, back, ht, hx, hback, -⟩
    cases front with
    | nil =>
      obtain ⟨-, rfl⟩ := List.cons.inj ht
      exact hback _ List.mem_cons_self (.inl List.suffix_rfl)
    | cons y front =>
      -- Only the value of `b` ends like the start of `a`.
      have hmem : x ∈ valueInFront.attributes.tail := by simp [ht]
      have hvalue : ∀ z ∈ valueInFront.attributes.tail, ¬ ['a'] ++ ['='] <:+ z.value := by decide
      exact hvalue x hmem hx
  have hput := (putItem_startTag_iff hs hattr valueInFront hend ['"']).mpr hnot
  refine ⟨hattr, fun v => (hput v).trans ?_⟩
  simp [set, text, upTo, slash, Carries, valueInFront, Attribute.text, Selector.assignment,
    Quote.char]

/-- `<p a="1" b="a=">` -/
def valueBehind : StartTag where
  name := ['p']
  attributes := [⟨['a'], ['1'], by decide, by decide⟩, ⟨['b'], ['a', '='], by decide, by decide⟩]
  selfClosing := false
  isName := isName_p
  distinct := by decide

/-- The quote behind the value of `b` is taken for one in front of a value of `a`. -/
theorem not_forall_putItem_startTag :
    ¬ ∀ (s : Selector) (attr : Selector.Part) (hattr : IsName attr.val) (t : StartTag)
      (rest v : Text), s.IsAttribute attr →
      (∀ x ∈ t.attributes, attr.val <:+ x.name → x.name = attr.val) →
      putItem s (t.text ++ rest) (some v) =
        .ok ((t.set ⟨attr, Entity.encode v, hattr, Slot.isInert_encode v⟩).text ++ rest) := by
  intro h
  have hput := h (.parse ['p', ':', 'a']) ⟨['a'], by decide⟩ (by decide) valueBehind [] ['v']
    ⟨by decide, by decide⟩ (by decide)
  exact absurd hput (by decide)

end StartTag

end MarkupTemplate
