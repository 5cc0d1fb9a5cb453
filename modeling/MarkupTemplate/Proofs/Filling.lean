import MarkupTemplate.Fill
import MarkupTemplate.Proofs.Outcomes

/-!
A filling segment by segment: what a binding makes of one segment, for content and for an attribute,
and how the document is put together from that.
-/
namespace MarkupTemplate

/-- The texts of a value, one for each copy of an element that shows one. -/
def Value.texts : Value → List Text
  | .absent => []
  | .text t => [t]
  | .list ts => ts

/-- The first text already shows whether a segment has the tags that its copies keep. -/
theorem mapM_putItem {s : Selector} (hs : s.attr = none) (segment v : Text) (vs : List Text) :
    ((v :: vs).map some).mapM (putItem s segment) =
      match Element.ofText? segment with
      | some x => .ok ((v :: vs).map fun v => x.opening ++ s.written v ++ x.closing)
      | none => .error ⟨s, segment⟩ := by
  cases hx : Element.ofText? segment with
  | none =>
    have hput : putItem s segment (some v) = .error ⟨s, segment⟩ := by simp [putItem, hs, hx]
    rw [List.map_cons, List.mapM_cons, hput]
    rfl
  | some x =>
    have hall : ∀ item ∈ (v :: vs).map some, putItem s segment item =
        .ok (x.opening ++ s.written (item.getD []) ++ x.closing) := by
      intro item hitem
      obtain ⟨v, -, rfl⟩ := List.mem_map.mp hitem
      simp [putItem, hs, hx]
    rw [mapM_eq_ok hall, List.map_map]
    rfl

/-- A binding without attribute sees of an element only the tags at its ends. -/
theorem Segment.fill_matched {s : Selector} (hs : s.attr = none) (e : List Token) (value : Value) :
    fill s value.items ⟨true, e⟩ =
      if value.texts = [] then .ok []
      else
        match Element.ofText? e.flatten with
        | some x => .ok (value.texts.flatMap fun v => x.opening ++ s.written v ++ x.closing)
        | none => .error ⟨s, e.flatten⟩ := by
  have htexts : ∀ vs : List Text, fill s (vs.map some) ⟨true, e⟩ =
      if vs = [] then .ok []
      else
        match Element.ofText? e.flatten with
        | some x => .ok (vs.flatMap fun v => x.opening ++ s.written v ++ x.closing)
        | none => .error ⟨s, e.flatten⟩ := by
    intro vs
    cases vs with
    | nil => rfl
    | cons v vs =>
      have hput := mapM_putItem hs e.flatten v vs
      simp only [fill, if_true, Segment.text, hput, if_neg (List.cons_ne_nil v vs)]
      cases Element.ofText? e.flatten <;> rfl
  cases value with
  | absent =>
    have hput : putItem s e.flatten none = .ok [] := by simp [putItem, hs]
    simp only [fill, if_true, Segment.text, Value.items, List.mapM_cons, List.mapM_nil, hput]
    rfl
  | text t => exact htexts [t]
  | list ts => exact htexts ts

theorem Segment.fill_attr {s : Selector} {attr : Selector.Part} (hs : s.attr = some attr)
    (items : List (Option Text)) (g : Segment) :
    g.fill s items = .ok (if g.matched then
      items.flatMap fun item =>
        item.elim g.text fun v => (Slot.ofSegment attr g.text).fill (s.written v)
      else g.text) := by
  have hput : ∀ item ∈ items, putItem s g.text item =
      .ok (item.elim g.text fun v => (Slot.ofSegment attr g.text).fill (s.written v)) := by
    intro item _
    cases item <;> simp [putItem, hs]
  unfold fill
  rw [mapM_eq_ok hput]
  cases g.matched <;> rfl

theorem Segment.fill_unmatched (s : Selector) (items : List (Option Text)) {g : Segment}
    (h : ¬ g.matched = true) : g.fill s items = .ok g.text := if_neg h

/-- A document without elements is put together from its segments as any other. -/
theorem fill_eq_mapM (s : Selector) (value : Value) (d : Text) :
    fill s value d =
      (fun ts => ⟨ts.flatten, (segments s d).any (·.matched)⟩) <$>
        (segments s d).mapM (Segment.fill s value.items) := by
  unfold fill
  by_cases hany : (segments s d).any (·.matched) = true
  · rw [if_pos hany, hany]
    rfl
  · have hkept : ∀ g ∈ segments s d, g.fill s value.items = .ok g.text := by
      intro g hg
      exact g.fill_unmatched s _ fun hm => hany (List.any_eq_true.mpr ⟨g, hg, hm⟩)
    have hany' : (segments s d).any (·.matched) = false := by simpa using hany
    have htext : ((segments s d).map Segment.text).flatten = d := text_segments s d
    have hfilled : (⟨d, false⟩ : Filled) =
        ⟨((segments s d).map Segment.text).flatten, (segments s d).any (·.matched)⟩ := by
      rw [htext, hany']
    rw [if_neg hany, mapM_eq_ok hkept]
    exact congrArg Except.ok hfilled

/-- The text of a filling that succeeds is that of its segments, one behind the other. -/
theorem fill_eq_ok_iff {s : Selector} {value : Value} {d : Text} {f : Filled} :
    fill s value d = .ok f ↔
      ∃ ts, List.Forall₂ (fun g t => Segment.fill s value.items g = .ok t) (segments s d) ts ∧
        f = ⟨ts.flatten, (segments s d).any (·.matched)⟩ := by
  rw [fill_eq_mapM]
  constructor
  · intro h
    obtain ⟨ts, hts, hf⟩ := exists_of_map_eq_ok h
    exact ⟨ts, mapM_eq_ok_iff.mp hts, hf.symm⟩
  · rintro ⟨ts, hts, rfl⟩
    rw [mapM_eq_ok_iff.mpr hts]
    rfl

theorem fill_eq_self {s : Selector} {d : Text} (h : ∀ g ∈ segments s d, g.matched = false)
    (value : Value) : fill s value d = .ok ⟨d, false⟩ := by
  have hany : ¬ (segments s d).any (·.matched) = true := by
    rw [List.any_eq_true]
    rintro ⟨g, hg, hm⟩
    rw [h g hg] at hm
    cases hm
  rw [fill, if_neg hany]
  rfl

end MarkupTemplate
