import MarkupTemplate.Proofs.Content

/-!
Which fillings fail, and on which element: those that give text to an element in which there is no
content to replace.
-/
namespace MarkupTemplate

open Token

namespace Segment

def IsVoid (g : Segment) : Prop := ∃ t, g.tokens = [t] ∧ t.kind = .selfClosing

/-- The document ends in the closing tag of the segment, before its `>`. -/
def IsCutShort (d : Text) (g : Segment) : Prop :=
  (∃ c ∈ g.tokens.getLast?, c.kind = .closing ∧ '>' ∉ c) ∧
    ∃ before, MarkupTemplate.tokens d = before ++ g.tokens

def IsShapeless (d : Text) (g : Segment) : Prop :=
  g.matched = true ∧ (g.IsVoid ∨ g.IsCutShort d)

end Segment

theorem getLast?_pair (o c : Token) (mid : List Token) : (o :: (mid ++ [c])).getLast? = some c := by
  rw [← List.cons_append]
  exact List.getLast?_concat

theorem Selector.IsReal.ofText?_eq_none_iff {s : Selector} {e : List Token} (h : s.IsReal e)
    (d : Text) : Element.ofText? e.flatten = none ↔ Segment.IsShapeless d ⟨true, e⟩ := by
  cases h with
  | @selfClosing t ht hk =>
    have hnone : Element.ofText? [t].flatten = none := by simpa using Element.ofText?_isTag ht
    exact iff_of_true hnone ⟨rfl, .inl ⟨t, rfl, hk⟩⟩
  | @pair o c mid n ho _ _ hc hk' _ hn' =>
    have hname : c.name? ≠ none := by simp [hn']
    obtain ⟨content, closing, hsplit⟩ :=
      Element.exists_splitClosing? (Element.isClosing_of_isTag hc hk' hname)
    have hsome := Element.ofText?_tags ho hsplit mid.flatten
    apply iff_of_false
    · have hflat : (o :: (mid ++ [c])).flatten = o ++ (mid.flatten ++ c) := by simp
      rw [hflat, hsome]
      simp
    · intro hshapeless
      rcases hshapeless.2 with ⟨t, ht, -⟩ | ⟨⟨c', hlast, -, hgt⟩, -⟩
      · simp at ht
      · rw [Option.mem_def, getLast?_pair] at hlast
        obtain rfl := Option.some.inj hlast
        obtain ⟨body, -, -, rfl⟩ := hc
        exact hgt (by simp)

/-- Slicing and rewriting agree on which elements have content. -/
theorem ofText?_eq_none_iff {s : Selector} {d : Text} {g : Segment} (hg : g ∈ segments s d)
    (hm : g.matched = true) : Element.ofText? g.text = none ↔ g.IsShapeless d := by
  have hcases := matched_cases hg hm
  obtain ⟨matched, e⟩ := g
  obtain rfl : matched = true := hm
  rcases hcases with hreal | hrun | ⟨hcut, hend⟩
  · exact hreal.ofText?_eq_none_iff d
  · have hnone := (Element.ofText?_of_isBareRun hrun).1
    cases hrun with
    | @intro r _ hk => exact iff_of_true hnone ⟨rfl, .inl ⟨r, rfl, hk⟩⟩
  · have hnone := (Element.ofText?_of_isCutOff hcut).1
    cases hcut with
    | @intro o c mid _ _ _ _ hgt hk =>
      exact iff_of_true hnone ⟨rfl, .inr ⟨⟨c, getLast?_pair o c mid, hk, hgt⟩, hend⟩⟩

def NeedsContent (s : Selector) (value : Value) : Prop := s.attr = none ∧ value.texts ≠ []

theorem Segment.eq_error_iff {s : Selector} {d : Text} {g : Segment} (hg : g ∈ segments s d)
    (value : Value) (e : ShapeError) :
    g.fill s value.items = .error e ↔
      NeedsContent s value ∧ g.IsShapeless d ∧ e = ⟨s, g.text⟩ := by
  cases hs : s.attr with
  | some attr =>
    rw [fill_attr hs]
    simp [NeedsContent, hs]
  | none =>
    by_cases hm : g.matched = true
    · have hshape := ofText?_eq_none_iff hg hm
      obtain ⟨matched, ts⟩ := g
      obtain rfl : matched = true := hm
      rw [fill_matched hs]
      by_cases hvs : value.texts = []
      · simp [NeedsContent, hvs]
      rw [if_neg hvs]
      cases hx : Element.ofText? ts.flatten with
      | none =>
        have hshapeless := hshape.mp hx
        simp [NeedsContent, hs, hvs, hshapeless, Segment.text, eq_comm]
      | some x =>
        have hshaped : ¬ IsShapeless d ⟨true, ts⟩ := by
          intro hshapeless
          have hnone := hshape.mpr hshapeless
          rw [Segment.text, hx] at hnone
          cases hnone
        simp [hshaped]
    · rw [fill_unmatched s _ hm]
      simp [IsShapeless, hm]

theorem Segment.exists_fill_iff {s : Selector} {d : Text} {g : Segment} (hg : g ∈ segments s d)
    {value : Value} (h : NeedsContent s value) :
    (∃ t, g.fill s value.items = .ok t) ↔ ¬ g.IsShapeless d := by
  cases hfill : g.fill s value.items with
  | ok t =>
    refine iff_of_true ⟨t, rfl⟩ fun hshapeless => ?_
    have hfails := (Segment.eq_error_iff hg value ⟨s, g.text⟩).mpr ⟨h, hshapeless, rfl⟩
    rw [hfill] at hfails
    cases hfails
  | error e =>
    have hshapeless := ((Segment.eq_error_iff hg value e).mp hfill).2.1
    exact iff_of_false (by simp) fun hnot => hnot hshapeless

/-- An element with content keeps its two tags in each copy. -/
theorem Segment.exists_isShaped {s : Selector} (hs : s.attr = none) {d : Text} {g : Segment}
    (hg : g ∈ segments s d) (hm : g.matched = true) (h : ¬ g.IsShapeless d) (value : Value) :
    ∃ x : Element, x.text = g.text ∧ x.IsShaped ∧ g.fill s value.items =
      .ok (value.texts.flatMap fun v => x.opening ++ s.written v ++ x.closing) := by
  have hsome : Element.ofText? g.text ≠ none := fun hnone =>
    h ((ofText?_eq_none_iff hg hm).mp hnone)
  obtain ⟨x, hx⟩ := Option.ne_none_iff_exists'.mp hsome
  refine ⟨x, Element.text_of_ofText? hx, Element.isShaped_of_ofText? hx, ?_⟩
  obtain ⟨matched, ts⟩ := g
  obtain rfl : matched = true := hm
  have hx' : Element.ofText? ts.flatten = some x := hx
  rw [fill_matched hs, hx']
  by_cases hvs : value.texts = []
  · rw [if_pos hvs, hvs]
    rfl
  · rw [if_neg hvs]

/--
A filling fails on the first element without content, and only if it has text for the content of
elements. Each other element is shaped, and its copies have its two tags. What becomes of the
segments, one behind the other, is the text of a filling that does not fail.
-/
theorem fill_eq_error_iff (s : Selector) (value : Value) (d : Text) :
    (∀ e, fill s value d = .error e ↔
      NeedsContent s value ∧ ∃ front g back, segments s d = front ++ g :: back ∧
        (∀ f ∈ front, ¬ f.IsShapeless d) ∧ g.IsShapeless d ∧ e = ⟨s, g.text⟩) ∧
      (s.attr = none → ∀ g ∈ segments s d, g.matched = true → ¬ g.IsShapeless d →
        ∃ x : Element, x.text = g.text ∧ x.IsShaped ∧ g.fill s value.items =
          .ok (value.texts.flatMap fun v => x.opening ++ s.written v ++ x.closing)) ∧
      ∀ f, fill s value d = .ok f ↔
        ∃ ts, List.Forall₂ (fun g t => Segment.fill s value.items g = .ok t) (segments s d) ts ∧
          f = ⟨ts.flatten, (segments s d).any (·.matched)⟩ := by
  refine ⟨?_, fun hs g hg hm h => Segment.exists_isShaped hs hg hm h value, fun f => fill_eq_ok_iff⟩
  intro e
  have hmem : ∀ {front back : List Segment} {g : Segment}, segments s d = front ++ g :: back →
      g ∈ segments s d ∧ ∀ f ∈ front, f ∈ segments s d := by
    intro front back g hgs
    rw [hgs]
    exact ⟨by simp, fun f hf => List.mem_append_left _ hf⟩
  rw [fill_eq_mapM, map_eq_error_iff, mapM_eq_error_iff]
  constructor
  · intro h
    obtain ⟨front, g, back, hgs, hfront, hg⟩ := h
    obtain ⟨hneeds, hshapeless, he⟩ := (Segment.eq_error_iff (hmem hgs).1 value e).mp hg
    refine ⟨hneeds, front, g, back, hgs, ?_, hshapeless, he⟩
    intro f hf
    exact (Segment.exists_fill_iff ((hmem hgs).2 f hf) hneeds).mp (hfront f hf)
  · intro h
    obtain ⟨hneeds, front, g, back, hgs, hfront, hshapeless, he⟩ := h
    refine ⟨front, g, back, hgs, ?_, ?_⟩
    · intro f hf
      exact (Segment.exists_fill_iff ((hmem hgs).2 f hf) hneeds).mpr (hfront f hf)
    · exact (Segment.eq_error_iff (hmem hgs).1 value e).mpr ⟨hneeds, hshapeless, he⟩

end MarkupTemplate
