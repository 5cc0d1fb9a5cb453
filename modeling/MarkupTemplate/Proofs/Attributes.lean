import MarkupTemplate.Proofs.Noninterference
import MarkupTemplate.Proofs.Stencil

/-!
Filling an attribute: the document is a stencil of which each gap is a slot, with its quotes, so
that no value has a part in the tags.
-/
namespace MarkupTemplate

namespace Slot

/-- The slot is between two quotes of one sort. -/
structure IsQuoted (s : Slot) (q : Quote) : Prop where
  before : ∃ front, s.before = front ++ [q.char]
  after : ∃ back, s.after = q.char :: back

theorem isQuoted_existing? {attr segment : Text} {q : Quote} {s : Slot}
    (h : existing? attr q segment = some s) : s.IsQuoted q := by
  unfold existing? at h
  simp only at h
  split at h
  · next c front rest hc =>
    obtain ⟨⟨value, after⟩, -, rfl⟩ := Option.map_eq_some_iff.mp h
    exact ⟨⟨'<' :: c :: front ++ attr ++ ['='], by simp⟩, ⟨after, rfl⟩⟩
  · cases h

theorem isQuoted_fresh (attr segment : Text) : (fresh attr segment).IsQuoted .double :=
  ⟨⟨(splitName segment).1 ++ ' ' :: attr ++ ['='], by simp [fresh, Quote.char]⟩,
    ⟨(splitName segment).2, rfl⟩⟩

theorem exists_isQuoted (attr segment : Text) : ∃ q, (ofSegment attr segment).IsQuoted q := by
  unfold ofSegment
  cases hdouble : existing? attr .double segment with
  | some s => exact ⟨.double, isQuoted_existing? hdouble⟩
  | none =>
    cases hsingle : existing? attr .single segment with
    | some s => exact ⟨.single, isQuoted_existing? hsingle⟩
    | none => exact ⟨.double, isQuoted_fresh attr segment⟩

def quote (s : Slot) : Quote := if s.after.head? = some Quote.double.char then .double else .single

theorem IsQuoted.quote_eq {s : Slot} {q : Quote} (h : s.IsQuoted q) : s.quote = q := by
  obtain ⟨back, hback⟩ := h.after
  unfold quote
  rw [hback]
  cases q <;> simp [Quote.char]

def stencil (s : Slot) (i : Nat) : Stencil :=
  Stencil.ofText s.before.dropLast ++ .gap s.quote i :: Stencil.ofText s.after.tail

theorem IsQuoted.fill_stencil {s : Slot} {q : Quote} (h : s.IsQuoted q) (w : Nat → Text) (i : Nat) :
    (s.stencil i).fill w = s.fill (w i) := by
  have hquote := h.quote_eq
  obtain ⟨⟨front, hfront⟩, ⟨back, hback⟩⟩ := h
  rw [stencil, hquote, hfront, hback]
  simp [fill, hfront, hback, Stencil.Piece.fill]

end Slot

/-- Values are written into an attribute, and not as markup. -/
structure Selector.IsAttribute (s : Selector) (attr : Selector.Part) : Prop where
  attr : s.attr = some attr
  embed : s.embed = false

theorem putItem_attribute {s : Selector} {attr : Selector.Part} (hs : s.IsAttribute attr)
    (segment v : Text) :
    putItem s segment (some v) = .ok ((Slot.ofSegment attr segment).fill (Entity.encode v)) := by
  simp [putItem, Selector.written, hs.attr, hs.embed]

/-- A document with `n` copies of each element, of which the copy `i` has a gap for the text `i`. -/
def Selector.page (s : Selector) (attr : Part) (d : Text) (n : Nat) : Stencil :=
  (segments s d).flatMap fun g =>
    if g.matched then (List.range n).flatMap (Slot.ofSegment attr g.text).stencil
    else Stencil.ofText g.text

/-- The texts of a value by number, as they are written. -/
def Value.encodedAt (v : Value) (i : Nat) : Text := Entity.encode (v.texts.getD i [])

theorem Value.not_mem_encodedAt {c : Char} (hc : c ∈ ['<', '>']) (v : Value) (i : Nat) :
    c ∉ v.encodedAt i := by
  have hc' : c = '<' ∨ c = '>' := by simpa using hc
  rcases hc' with rfl | rfl <;> exact Entity.not_mem_encode (by decide) _

theorem Value.items_eq {v : Value} (h : v ≠ .absent) : v.items = v.texts.map some := by
  cases v with
  | absent => exact absurd rfl h
  | text t => rfl
  | list ts => rfl

theorem flatMap_range_getD (ts : List Text) (f : Text → Text) :
    (List.range ts.length).flatMap (fun i => f (ts.getD i [])) = ts.flatMap f := by
  have hmap : (List.range ts.length).map (fun i => ts.getD i []) = ts := by
    apply List.ext_getElem
    · simp
    · intro i _ hi
      simp [List.getElem?_eq_getElem hi]
  conv_rhs => rw [← hmap]
  rw [List.flatMap_map]

theorem fill_copies {s : Selector} {attr : Selector.Part} (hs : s.IsAttribute attr) (v : Value)
    (segment : Text) :
    Stencil.fill v.encodedAt
        ((List.range v.texts.length).flatMap (Slot.ofSegment attr segment).stencil) =
      v.texts.flatMap fun t => (Slot.ofSegment attr segment).fill (s.written t) := by
  obtain ⟨q, hq⟩ := Slot.exists_isQuoted attr segment
  have hcopy : ∀ i, Stencil.fill v.encodedAt ((Slot.ofSegment attr segment).stencil i) =
      (Slot.ofSegment attr segment).fill (s.written (v.texts.getD i [])) := by
    intro i
    rw [hq.fill_stencil]
    simp [Selector.written, hs.embed, Value.encodedAt]
  rw [Stencil.fill_flatMap, ← flatMap_range_getD v.texts]
  simp only [hcopy]

/-- A filling puts its texts into the page, which does not know them. -/
theorem fill_attribute {s : Selector} {attr : Selector.Part} (hs : s.IsAttribute attr) {v : Value}
    (hv : v ≠ .absent) (d : Text) :
    fill s v d =
      .ok ⟨(s.page attr d v.texts.length).fill v.encodedAt, (segments s d).any (·.matched)⟩ := by
  have hsegment : ∀ g ∈ segments s d, g.fill s v.items =
      .ok (Stencil.fill v.encodedAt (if g.matched then
        (List.range v.texts.length).flatMap (Slot.ofSegment attr g.text).stencil
        else Stencil.ofText g.text)) := by
    intro g _
    rw [g.fill_attr hs.attr]
    cases g.matched with
    | false => simp
    | true =>
      rw [if_pos rfl, if_pos rfl, fill_copies hs, Value.items_eq hv, List.flatMap_map]
      rfl
  rw [fill_eq_mapM, mapM_eq_ok hsegment, Selector.page, Stencil.fill_flatMap]
  rfl

/--
Texts of the same number, in an attribute, give the same tags. Both documents show one page, so that
tag for tag they differ by the texts in its gaps only, and no tag is of another kind.
-/
theorem shows_fill_attribute {s : Selector} {attr : Selector.Part} (hs : s.IsAttribute attr)
    {v w : Value} (h : v.SameShape w) (hv : v ≠ .absent) (d : Text) :
    ∃ f g, fill s v d = .ok f ∧ fill s w d = .ok g ∧
      (s.page attr d v.texts.length).Shows v.encodedAt f.text ∧
      (s.page attr d v.texts.length).Shows w.encodedAt g.text := by
  have hw : w ≠ .absent := by
    intro hw
    subst hw
    cases h
    exact hv rfl
  have hlength := h.length_texts
  have hf := fill_attribute hs hv d
  have hg := fill_attribute hs hw d
  rw [← hlength] at hg
  refine ⟨_, _, hf, hg, ?_, ?_⟩
  · exact Stencil.shows_fill (fun c hc i => v.not_mem_encodedAt hc i) _
  · exact Stencil.shows_fill (fun c hc i => w.not_mem_encodedAt hc i) _

/-- The value that is replaced here ends behind its tag. -/
theorem shows_fill_attribute_of_long_value :
    ∃ f g,
      fill (.parse ['p', ':', 'a']) (.list [['>'], []])
        ['<', 'p', ' ', 'a', '=', '"', 'x', '>', '"', '<', '/', 'p', '>'] = .ok f ∧
      fill (.parse ['p', ':', 'a']) (.list [['"', '<'], ['x']])
        ['<', 'p', ' ', 'a', '=', '"', 'x', '>', '"', '<', '/', 'p', '>'] = .ok g ∧
      ((Selector.parse ['p', ':', 'a']).page ⟨['a'], by decide⟩
        ['<', 'p', ' ', 'a', '=', '"', 'x', '>', '"', '<', '/', 'p', '>'] 2).Shows
          (Value.list [['>'], []]).encodedAt f.text ∧
      ((Selector.parse ['p', ':', 'a']).page ⟨['a'], by decide⟩
        ['<', 'p', ' ', 'a', '=', '"', 'x', '>', '"', '<', '/', 'p', '>'] 2).Shows
          (Value.list [['"', '<'], ['x']]).encodedAt g.text := by
  have hs : (Selector.parse ['p', ':', 'a']).IsAttribute ⟨['a'], by decide⟩ :=
    ⟨by decide, by decide⟩
  have hshape : Value.SameShape (.list [['>'], []]) (.list [['"', '<'], ['x']]) := .list rfl
  exact shows_fill_attribute hs hshape (by decide) _

end MarkupTemplate
