import MarkupTemplate.Proofs.Outcomes
import MarkupTemplate.Proofs.Ranges.Walk

/-!
Fillings by cuts. A run of bindings cuts all that it takes of a text out by its bytes. None of the
cuts ends it: it does what a run does that counts no bytes.
-/
namespace MarkupTemplate

open Token

/-- The bytes of the value. -/
def Slot.range (s : Slot) : Nat × Nat :=
  (Text.byteSize s.before, Text.byteSize s.before + Text.byteSize s.value)

namespace Ranges

/-- The range of the value of `attr` in the first tag, sought behind the last mark. -/
def valueRange? (attr : Text) (q : Quote) (segment : Text) : Except Abort (Option (Nat × Nat)) := do
  let head ← cut segment 0 ((Text.firstAt? (· = '>') segment).getD (Text.byteSize segment))
  let mark := attr ++ ['=', q.char]
  match Text.lastAt? mark head with
  | none => return none
  | some found =>
    if found < 2 ∨ head.head? ≠ some '<' then return none
    else
      let start := found + Text.byteSize mark
      let rest ← cut segment start (Text.byteSize segment)
      return (Text.firstAt? (· = q.char) rest).map fun size => (start, start + size)

/-- The byte behind `<` and the tag name. -/
def nameStop : Text → Nat
  | '<' :: t => 1 + (Text.firstAt? endsName t).getD (Text.byteSize t)
  | _ => 0

def setAttribute (attr segment value : Text) : Except Abort Text := do
  let existing? ←
    match ← valueRange? attr .double segment with
    | some range => pure (some range)
    | none => valueRange? attr .single segment
  match existing? with
  | some (start, stop) =>
    return (← cut segment 0 start) ++ value ++ (← cut segment stop (Text.byteSize segment))
  | none =>
    let stop := nameStop segment
    let name ← cut segment 0 stop
    return name ++ ' ' :: attr ++ ['=', '"'] ++ value ++
      '"' :: (← cut segment stop (Text.byteSize segment))

/-- Two bytes in front of a mark, the first of them `<`, are `<` and one more character. -/
theorem two_le_byteSize_iff (before rest : Text) :
    ¬ (Text.byteSize before < 2 ∨ (before ++ rest).head? ≠ some '<') ↔
      ∃ c front, before = '<' :: c :: front := by
  have hmark : '<'.utf8Size = 1 := rfl
  match before with
  | [] => simp
  | [c] =>
    by_cases hc : c = '<'
    · simp [hc, hmark]
    · simp [hc]
  | c :: d :: front =>
    have hpos := c.utf8Size_pos
    have hpos' := d.utf8Size_pos
    by_cases hc : c = '<'
    · simp [hc, hmark]; omega
    · simp [hc]

theorem cut_head (segment : Text) :
    cut segment 0 ((Text.firstAt? (· = '>') segment).getD (Text.byteSize segment)) =
      .ok (segment.takeWhile (· ≠ '>')) := by
  have hcut := cut_front (segment.takeWhile (· ≠ '>')) (segment.dropWhile (· ≠ '>'))
  rw [List.takeWhile_append_dropWhile] at hcut
  simpa [Text.getD_firstAt?] using hcut

theorem valueRange?_eq (attr : Text) (q : Quote) (segment : Text) :
    valueRange? attr q segment = .ok ((Slot.existing? attr q segment).map Slot.range) := by
  simp only [valueRange?, Slot.existing?, cut_head, ok_bind, Text.lastAt?]
  cases hlast : Text.cutLast? (attr ++ ['=', q.char]) (segment.takeWhile (· ≠ '>')) with
  | none => rfl
  | some p =>
    obtain ⟨before, rest⟩ := p
    have hhead := Text.eq_of_cutLast? hlast
    have hinside := two_le_byteSize_iff before (attr ++ ['=', q.char] ++ rest)
    rw [← List.append_assoc, ← hhead] at hinside
    by_cases hbefore : ∃ c front, before = '<' :: c :: front
    · -- The mark is found in the first tag, and the cut behind it is made in the segment.
      have hsegment := List.takeWhile_append_dropWhile (p := (· ≠ '>')) (l := segment)
      rw [hhead, List.append_assoc] at hsegment
      have hcut := cut_back (before ++ (attr ++ ['=', q.char]))
        (rest ++ segment.dropWhile (· ≠ '>'))
      rw [hsegment, Text.byteSize_append] at hcut
      simp only [Option.map_some, if_neg (hinside.mpr hbefore), hcut, ok_bind, Text.firstAt?_eq]
      obtain ⟨c, front, rfl⟩ := hbefore
      simp only [Option.map_map, pure_eq_ok]
      cases Text.cutFirst? [q.char] (rest ++ segment.dropWhile (· ≠ '>')) with
      | none => rfl
      | some value => simp [Slot.range, Nat.add_assoc]
    · simp only [Option.map_some, if_pos (not_not.mp (mt hinside.mp hbefore))]
      split
      · next c front rest' h =>
        cases h
        exact absurd ⟨c, front, rfl⟩ hbefore
      · rfl

/-- The bytes of `ü` in `<é a="ü">`. -/
example : valueRange? ['a'] .double ['<', 'é', ' ', 'a', '=', '"', 'ü', '"', '>'] =
    .ok (some (7, 9)) := by
  rfl

theorem exists_valueRange? (attr : Text) (q : Quote) (segment : Text) :
    ∃ range?, valueRange? attr q segment = .ok range? ∧
      ∀ r ∈ range?, Text.IsRange segment r.1 r.2 := by
  refine ⟨_, valueRange?_eq attr q segment, fun r hr => ?_⟩
  obtain ⟨s, hs, rfl⟩ := Option.map_eq_some_iff.mp hr
  have hsegment := Slot.fill_existing? hs
  rw [Slot.fill, List.append_assoc] at hsegment
  rw [← hsegment]
  exact Text.isRange_append s.before s.value s.after

theorem nameStop_eq (segment : Text) :
    nameStop segment = Text.byteSize (Slot.splitName segment).1 := by
  have hmark : '<'.utf8Size = 1 := rfl
  cases segment with
  | nil => rfl
  | cons c t =>
    by_cases hc : c = '<'
    · subst hc
      rw [nameStop, Slot.splitName, Text.getD_firstAt?, Text.byteSize_cons, hmark]
    · simp [nameStop, Slot.splitName, hc]

theorem isRange_nameStop (segment : Text) : Text.IsRange segment 0 (nameStop segment) := by
  have h := Text.isRange_append [] (Slot.splitName segment).1 (Slot.splitName segment).2
  rwa [List.nil_append, Slot.splitName_append, Text.byteSize_nil, Nat.zero_add,
    ← nameStop_eq] at h

/-- The cuts around a slot. -/
theorem cut_slot {s : Slot} {segment : Text} (h : s.fill s.value = segment) :
    cut segment 0 s.range.1 = .ok s.before ∧
      cut segment s.range.2 (Text.byteSize segment) = .ok s.after := by
  have hfront := cut_front s.before (s.value ++ s.after)
  have hback := cut_back (s.before ++ s.value) s.after
  rw [← List.append_assoc] at hfront
  rw [Text.byteSize_append s.before] at hback
  rw [← h]
  exact ⟨hfront, hback⟩

/-- The value is put between what stands before and after the slot. -/
theorem setAttribute_eq (attr segment value : Text) :
    setAttribute attr segment value = .ok ((Slot.ofSegment attr segment).fill value) := by
  have hslot : ∀ {q : Quote} {s : Slot}, Slot.existing? attr q segment = some s → (do
      return (← cut segment 0 s.range.1) ++ value ++
        (← cut segment s.range.2 (Text.byteSize segment))) = Except.ok (s.fill value) := by
    intro q s hs
    obtain ⟨hfront, hback⟩ := cut_slot (Slot.fill_existing? hs)
    simp [hfront, hback, Slot.fill]
  simp only [setAttribute, valueRange?_eq, Slot.ofSegment, ok_bind]
  cases hd : Slot.existing? attr .double segment with
  | some s => exact hslot hd
  | none =>
    cases hs : Slot.existing? attr .single segment with
    | some s => exact hslot hs
    | none =>
      have happend := Slot.splitName_append segment
      have hfront := cut_front (Slot.splitName segment).1 (Slot.splitName segment).2
      have hback := cut_back (Slot.splitName segment).1 (Slot.splitName segment).2
      rw [happend] at hfront hback
      simp [nameStop_eq, hfront, hback, Slot.fresh, Slot.fill]

/-- What follows the last colon is cut off. -/
def splitAttr (t : Text) : Except Abort (Text × Option Selector.Part) :=
  match Text.lastAt? [':'] t with
  | some colon => do
    let attr ← cut t (colon + 1) (Text.byteSize t)
    return (← cut t 0 colon, Selector.Part.ofText? attr)
  | none => return (t, none)

def parse (t : Text) : Except Abort Selector := do
  let (front, embed) := Selector.splitEmbed t
  let (front, attr) ← splitAttr front
  return ⟨.parse front, attr, embed⟩

theorem splitAttr_eq (t : Text) : splitAttr t = .ok (Selector.splitAttr t) := by
  have hmark : ':'.utf8Size = 1 := rfl
  unfold splitAttr Selector.splitAttr Text.lastAt?
  cases h : Text.cutLast? [':'] t with
  | none => rfl
  | some p =>
    obtain ⟨front, attr⟩ := p
    have hfront := cut_front front ([':'] ++ attr)
    have hback := cut_back (front ++ [':']) attr
    rw [← List.append_assoc] at hfront
    rw [Text.byteSize_append front, Text.byteSize_cons, Text.byteSize_nil, hmark] at hback
    rw [← Text.eq_of_cutLast? h] at hfront hback
    simp [hfront, hback]

theorem parse_eq (t : Text) : parse t = .ok (Selector.parse t) := by
  simp only [parse, splitAttr_eq]
  rfl

/-- Only the value of an attribute is put in by cuts. -/
def putItem (s : Selector) (segment : Text) (item : Option Text) : Except Abort Text :=
  match s.attr, item with
  | some attr, some value => setAttribute attr segment (s.written value)
  | _, _ => (MarkupTemplate.putItem s segment item).mapError .shape

def Span.fill (s : Selector) (items : List (Option Text)) (g : Span) : Except Abort Text :=
  if g.matched then return (← items.mapM (putItem s g.text)).flatten else return g.text

def fill (s : Selector) (value : Value) (d : Text) : Except Abort Filled := do
  let spans ← slice s d
  if spans.any (·.matched) then
    return ⟨(← spans.mapM (Span.fill s value.items)).flatten, true⟩
  else return ⟨d, false⟩

def fillNext (f : Filled) (b : Binding) : Except Abort Filled := do
  let g ← fill (← parse b.selector) b.value f.text
  return ⟨g.text, f.touched || g.touched⟩

def fillAll (bs : Bindings) (template : Text) : Except Abort Filled :=
  bs.foldlM fillNext ⟨template, false⟩

theorem putItem_eq (s : Selector) (segment : Text) (item : Option Text) :
    putItem s segment item = (MarkupTemplate.putItem s segment item).mapError .shape := by
  unfold putItem
  split
  · next attr value hattr =>
    rw [setAttribute_eq, MarkupTemplate.putItem, hattr]
    rfl
  · rfl

theorem Span.fill_eq (s : Selector) (items : List (Option Text)) (g : Segment) :
    Span.fill s items g.span = (g.fill s items).mapError .shape := by
  have hput : putItem s g.text =
      fun item => (MarkupTemplate.putItem s g.text item).mapError .shape :=
    funext (putItem_eq s g.text)
  unfold Span.fill Segment.fill Segment.span
  split
  · rw [mapError_bind, mapError_mapM, hput]
    rfl
  · rfl

theorem fill_eq (s : Selector) (value : Value) (d : Text) :
    fill s value d = (MarkupTemplate.fill s value d).mapError .shape := by
  have hmatched : ((segments s d).map Segment.span).any (·.matched) =
      (segments s d).any (·.matched) := by
    rw [List.any_map]
    rfl
  have hfill : Span.fill s value.items ∘ Segment.span =
      fun g => (Segment.fill s value.items g).mapError .shape :=
    funext (Span.fill_eq s value.items)
  rw [fill, slice_eq, ok_bind, hmatched, MarkupTemplate.fill]
  split
  · rw [mapError_bind, mapError_mapM, List.mapM_map, hfill]
    rfl
  · rfl

theorem fillNext_eq (f : Filled) (b : Binding) :
    fillNext f b = (f.fill b).mapError .shape := by
  rw [fillNext, parse_eq, ok_bind, fill_eq, Filled.fill, mapError_bind]
  rfl

theorem fillAll_eq (bs : Bindings) (template : Text) :
    fillAll bs template = (MarkupTemplate.fillAll bs template).mapError .shape := by
  have hnext : fillNext = fun f b => (f.fill b).mapError .shape := by
    funext f b
    exact fillNext_eq f b
  rw [fillAll, MarkupTemplate.fillAll, mapError_foldlM, hnext]

/--
A run by cuts ends as one without them does: no cut is out of its text or through a character, and
no depth falls below zero. Whatever was read, a segment starts no later than the next token; the
value of an attribute and the name of a tag are ranges in the segment.
-/
theorem fillAll_eq_and_isRange (bs : Bindings) (template : Text) :
    fillAll bs template = (MarkupTemplate.fillAll bs template).mapError .shape ∧
      (∀ s d, ∃ ps, tokenize d = .ok ps ∧ ∀ front p back, ps = front ++ p :: back →
        ∃ w, walk s d front = .ok w ∧ w.start ≤ p.offset) ∧
      (∀ attr q segment, ∃ range?, valueRange? attr q segment = .ok range? ∧
        ∀ r ∈ range?, Text.IsRange segment r.1 r.2) ∧
      ∀ segment, Text.IsRange segment 0 (nameStop segment) :=
  ⟨fillAll_eq bs template, exists_walk_start_le, exists_valueRange?, isRange_nameStop⟩

end Ranges

end MarkupTemplate
