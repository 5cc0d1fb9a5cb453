import MarkupTemplate.Fill
import MarkupTemplate.Proofs.Elements

/-!
The closing tag that a new content leaves behind it. An element is cut off after its whole closing
tag, but of that only the shortest closing tag at the end is kept.
-/
namespace MarkupTemplate

open Token

namespace Element

structure IsShortestClosing (t closing : Text) : Prop where
  suffix : closing <:+ t
  tag : isClosing closing = true
  shortest : ∀ u, u <:+ t → isClosing u = true → closing <:+ u

theorem isShortestClosing_of_splitClosing? {t content closing : Text}
    (h : splitClosing? t = some (content, closing)) : IsShortestClosing t closing := by
  refine ⟨⟨content, (eq_of_splitClosing? h).symm⟩, isClosing_of_splitClosing? h, ?_⟩
  rintro u ⟨front, rfl⟩ hu
  obtain ⟨content', closing', hsplit⟩ := exists_splitClosing? hu
  have hall := splitClosing?_append hsplit front
  rw [h] at hall
  cases hall
  exact ⟨content', (eq_of_splitClosing? hsplit).symm⟩

theorem IsShortestClosing.eq_iff {t closing : Text} (h : IsShortestClosing t closing) :
    closing = t ↔ ∀ u, u <:+ t → isClosing u = true → u = t := by
  constructor
  · rintro rfl u hsuffix hu
    have hle := hsuffix.length_le
    have hge := (h.shortest u hsuffix hu).length_le
    exact hsuffix.eq_of_length (by omega)
  · intro hall
    exact hall closing h.suffix h.tag

end Element

/-- An element with two tags has a name, which its closing tag shows as well. -/
theorem exists_splitClosing?_of_mem_segments {s : Selector} {d : Text} {g : Segment}
    (hg : g ∈ segments s d) (hm : g.matched = true) {o c : Token} {mid : List Token}
    (ht : g.tokens = o :: (mid ++ [c])) (hc : IsTag c) :
    IsTag o ∧ ∃ content closing, Element.splitClosing? c = some (content, closing) := by
  have hcases := matched_cases hg hm
  rw [ht] at hcases
  generalize he : o :: (mid ++ [c]) = e at hcases
  rcases hcases with hreal | hrun | ⟨hcut, -⟩
  · cases hreal with
    | selfClosing => simp at he
    | @pair o' c' mid' n ho _ _ hc' hk _ hn =>
      obtain ⟨rfl, hrest⟩ := List.cons.inj he
      obtain ⟨rfl, hlast⟩ := List.append_inj' hrest rfl
      obtain ⟨rfl, -⟩ := List.cons.inj hlast
      exact ⟨ho, Element.exists_splitClosing? (Element.isClosing_of_isTag hc' hk (by simp [hn]))⟩
  · cases hrun
    simp at he
  · cases hcut with
    | @intro o' c' mid' n _ _ _ hgt =>
      have hlast := (List.append_inj' (List.cons.inj he).2 rfl).2
      obtain ⟨rfl, -⟩ := List.cons.inj hlast
      obtain ⟨body, -, -, rfl⟩ := hc
      simp at hgt

/--
New content stands between the opening tag of an element and the shortest closing tag at its end.
The closing tag stays whole if no other closing tag is at its end.
-/
theorem exists_isShortestClosing_putItem {s : Selector} (hs : s.attr = none) {d : Text}
    {g : Segment} (hg : g ∈ segments s d) (hm : g.matched = true) {o c : Token} {mid : List Token}
    (ht : g.tokens = o :: (mid ++ [c])) (hc : IsTag c) :
    ∃ closing, Element.IsShortestClosing c closing ∧
      (∀ v, putItem s g.text (some v) = .ok (o ++ s.written v ++ closing)) ∧
      ((∀ v, putItem s g.text (some v) = .ok (o ++ s.written v ++ c)) ↔
        ∀ u, u <:+ c → Element.isClosing u = true → u = c) := by
  obtain ⟨ho, content, closing, hsplit⟩ := exists_splitClosing?_of_mem_segments hg hm ht hc
  have hshortest := Element.isShortestClosing_of_splitClosing? hsplit
  have hput : ∀ v, putItem s g.text (some v) = .ok (o ++ s.written v ++ closing) := by
    intro v
    have hshape := Element.ofText?_tags ho hsplit mid.flatten
    have htext : g.text = o ++ (mid.flatten ++ c) := by simp [Segment.text, ht]
    simp [putItem, hs, htext, hshape]
  refine ⟨closing, hshortest, hput, ?_⟩
  rw [← hshortest.eq_iff]
  constructor
  · intro hall
    have hequal := Except.ok.inj ((hput []).symm.trans (hall []))
    exact List.append_cancel_left hequal
  · rintro rfl
    exact hput

theorem exists_isShortestClosing_of_inner_closing :
    ∃ closing, Element.IsShortestClosing ['<', '/', 'p', ' ', '<', '/', 'p', '>'] closing ∧
      (∀ v, putItem (.parse ['p'])
          ['<', 'p', '>', 'x', '<', '/', 'p', ' ', '<', '/', 'p', '>'] (some v) =
        .ok (['<', 'p', '>'] ++ (Selector.parse ['p']).written v ++ closing)) ∧
      ((∀ v, putItem (.parse ['p'])
          ['<', 'p', '>', 'x', '<', '/', 'p', ' ', '<', '/', 'p', '>'] (some v) =
        .ok (['<', 'p', '>'] ++ (Selector.parse ['p']).written v ++
          ['<', '/', 'p', ' ', '<', '/', 'p', '>'])) ↔
        ∀ u, u <:+ ['<', '/', 'p', ' ', '<', '/', 'p', '>'] → Element.isClosing u = true →
          u = ['<', '/', 'p', ' ', '<', '/', 'p', '>']) := by
  have hg : ⟨true, [['<', 'p', '>'], ['x'], ['<', '/', 'p', ' ', '<', '/', 'p', '>']]⟩ ∈
      segments (.parse ['p']) ['<', 'p', '>', 'x', '<', '/', 'p', ' ', '<', '/', 'p', '>'] := by
    decide
  have ht : [['<', 'p', '>'], ['x'], ['<', '/', 'p', ' ', '<', '/', 'p', '>']] =
      ['<', 'p', '>'] :: ([['x']] ++ [['<', '/', 'p', ' ', '<', '/', 'p', '>']]) := rfl
  exact exists_isShortestClosing_putItem (by decide) hg rfl ht (by decide)

/-- Of `</p </p>` only `</p>` is left. -/
theorem not_forall_putItem_eq_tags :
    ¬ ∀ (s : Selector) (d : Text) (g : Segment) (o c : Token) (mid : List Token) (v : Text),
      s.attr = none → g ∈ segments s d → g.matched = true → g.tokens = o :: (mid ++ [c]) →
      IsTag o → IsTag c → putItem s g.text (some v) = .ok (o ++ s.written v ++ c) := by
  intro h
  have hput := h (.parse ['p']) ['<', 'p', '>', 'x', '<', '/', 'p', ' ', '<', '/', 'p', '>']
    ⟨true, [['<', 'p', '>'], ['x'], ['<', '/', 'p', ' ', '<', '/', 'p', '>']]⟩
    ['<', 'p', '>'] ['<', '/', 'p', ' ', '<', '/', 'p', '>'] [['x']] ['v']
    (by decide) (by decide) rfl rfl (by decide) (by decide)
  exact absurd hput (by decide)

end MarkupTemplate
