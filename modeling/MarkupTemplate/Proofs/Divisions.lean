import MarkupTemplate.Proofs.Closings

/-!
The ways to divide a segment into an opening tag, content and a closing tag. The opening tag is the
same in all of them, and new content takes the place of the longest content.
-/
namespace MarkupTemplate

open Token

namespace Element

variable {t : Text} {e f : Element}

/-- The text is a complete tag, any content, and a complete closing tag. -/
structure Divides (t : Text) (e : Element) : Prop where
  text : e.text = t
  shaped : e.IsShaped

structure IsWidest (t : Text) (e : Element) : Prop extends Divides t e where
  widest : ∀ f, Divides t f → f.content.length ≤ e.content.length

theorem Divides.isClosing (h : Divides t e) : Element.isClosing e.closing = true :=
  isClosing_iff.mpr h.shaped.closing

theorem Divides.splitOpening? (h : Divides t e) :
    Element.splitOpening? t = some (e.opening, e.content ++ e.closing) := by
  have hsplit := splitOpening?_tag_append h.shaped.opening (e.content ++ e.closing)
  rwa [← List.append_assoc, ← Element.text, h.text] at hsplit

theorem Divides.append_inj (he : Divides t e) (hf : Divides t f) :
    e.opening = f.opening ∧ e.content ++ e.closing = f.content ++ f.closing := by
  have hsplit := he.splitOpening?
  rw [hf.splitOpening?] at hsplit
  obtain ⟨hopening, hrest⟩ := Prod.mk.inj (Option.some.inj hsplit)
  exact ⟨hopening.symm, hrest.symm⟩

theorem Divides.opening_eq (h : Divides t e) : e.opening = t.takeWhile (· ≠ '>') ++ ['>'] := by
  obtain ⟨body, -, hgt, hopening⟩ := h.shaped.opening
  have hgt' : '>' ∉ '<' :: body := by simpa using hgt
  have ht : t = '<' :: body ++ '>' :: (e.content ++ e.closing) := by
    rw [← h.text, Element.text, hopening]
    simp
  rw [ht, Text.takeWhile_ne hgt', hopening]

theorem divides_of_ofText? (h : ofText? t = some e) : Divides t e :=
  ⟨text_of_ofText? h, isShaped_of_ofText? h⟩

theorem Divides.exists_ofText? (h : Divides t e) : ∃ x, ofText? t = some x := by
  obtain ⟨content, closing, hclosing⟩ := exists_splitClosing? h.isClosing
  have hrest := splitClosing?_append hclosing e.content
  exact ⟨⟨e.opening, e.content ++ content, closing⟩,
    ofText?_eq_some_iff_split.mpr ⟨_, h.splitOpening?, hrest⟩⟩

/-- The closing tag that is found is the end of that of every division. -/
theorem closing_suffix_of_ofText? (h : ofText? t = some e) (hf : Divides t f) :
    e.closing <:+ f.closing := by
  obtain ⟨rest, ho, hc⟩ := ofText?_eq_some_iff_split.mp h
  have hrest : rest = f.content ++ f.closing := by
    rw [hf.splitOpening?] at ho
    exact (Prod.mk.inj (Option.some.inj ho)).2.symm
  have hshortest := isShortestClosing_of_splitClosing? hc
  exact hshortest.shortest f.closing ⟨f.content, hrest.symm⟩ hf.isClosing

theorem isWidest_of_ofText? (h : ofText? t = some e) : IsWidest t e := by
  have he := divides_of_ofText? h
  refine ⟨he, fun f hf => ?_⟩
  have hclosing := (closing_suffix_of_ofText? h hf).length_le
  have hlength := congrArg List.length (he.append_inj hf).2
  rw [List.length_append, List.length_append] at hlength
  omega

theorem IsWidest.eq (he : IsWidest t e) (hf : IsWidest t f) : e = f := by
  obtain ⟨hopening, hrest⟩ := he.append_inj hf.toDivides
  have hlength := Nat.le_antisymm (hf.widest e he.toDivides) (he.widest f hf.toDivides)
  obtain ⟨hcontent, hclosing⟩ := List.append_inj hrest hlength
  cases e
  cases f
  simp_all

/-- Of all divisions the one with the longest content is found. -/
theorem ofText?_eq_some_iff : ofText? t = some e ↔ IsWidest t e := by
  refine ⟨isWidest_of_ofText?, fun h => ?_⟩
  obtain ⟨x, hx⟩ := h.toDivides.exists_ofText?
  rw [hx, h.eq (isWidest_of_ofText? hx)]

end Element

/--
Content can be put into just those texts that can be divided into an opening tag, content and a
closing tag. All divisions have the opening tag that ends with the first `>`. Of the one with the
longest content, which has the shortest closing tag, the new content keeps the two tags.
-/
theorem exists_putItem_iff_divides {s : Selector} (hs : s.attr = none) (t v : Text) :
    ((∃ out, putItem s t (some v) = .ok out) ↔ ∃ e, Element.Divides t e) ∧
      (∀ e, Element.Divides t e → e.opening = t.takeWhile (· ≠ '>') ++ ['>']) ∧
      (∀ e, Element.IsWidest t e → ∀ f, Element.Divides t f → e.closing <:+ f.closing) ∧
      ∀ out, putItem s t (some v) = .ok out ↔
        ∃ e, Element.IsWidest t e ∧ out = e.opening ++ s.written v ++ e.closing := by
  have hput : ∀ out, putItem s t (some v) = .ok out ↔
      ∃ e, Element.IsWidest t e ∧ out = e.opening ++ s.written v ++ e.closing := by
    intro out
    simp only [← Element.ofText?_eq_some_iff]
    cases hx : Element.ofText? t <;> simp [putItem, hs, hx, eq_comm]
  refine ⟨?_, fun e he => he.opening_eq, ?_, hput⟩
  · constructor
    · rintro ⟨out, hout⟩
      obtain ⟨e, he, -⟩ := (hput out).mp hout
      exact ⟨e, he.toDivides⟩
    · rintro ⟨e, he⟩
      obtain ⟨x, hx⟩ := he.exists_ofText?
      exact ⟨_, (hput _).mpr ⟨x, Element.isWidest_of_ofText? hx, rfl⟩⟩
  · intro e he f hf
    exact Element.closing_suffix_of_ofText? (Element.ofText?_eq_some_iff.mpr he) hf

/-- Of `<p></></a </b>` the shortest closing tag stays. -/
theorem exists_putItem_iff_divides_of_inner_closing :
    let t : Text := ['<', 'p', '>', '<', '/', '>', '<', '/', 'a', ' ', '<', '/', 'b', '>']
    let out : Text := ['<', 'p', '>', 'x', '<', '/', 'b', '>']
    (Selector.parse ['p']).attr = none ∧ putItem (.parse ['p']) t (some ['x']) = .ok out ∧
      ∃ e, Element.IsWidest t e ∧
        out = e.opening ++ (Selector.parse ['p']).written ['x'] ++ e.closing := by
  intro t out
  have hattr : (Selector.parse ['p']).attr = none := rfl
  have hout : putItem (.parse ['p']) t (some ['x']) = .ok out := rfl
  exact ⟨hattr, hout, ((exists_putItem_iff_divides hattr t ['x']).2.2.2 out).mp hout⟩

end MarkupTemplate
