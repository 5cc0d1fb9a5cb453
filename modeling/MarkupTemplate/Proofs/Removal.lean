import MarkupTemplate.Proofs.Elements
import MarkupTemplate.Proofs.Filling

/-!
Taking elements out of a document. What stood around an element is joined then, and nothing that a
name could find begins where it is, so that no element is left.
-/
namespace MarkupTemplate

open Token

def remainder (gs : List Segment) : Text := (gs.filter fun g => !g.matched).flatMap Segment.text

@[simp] theorem remainder_unmatched (ts : List Token) (gs : List Segment) :
    remainder (⟨false, ts⟩ :: gs) = ts.flatten ++ remainder gs := rfl

@[simp] theorem remainder_matched (e : List Token) (gs : List Segment) :
    remainder (⟨true, e⟩ :: gs) = remainder gs := rfl

@[simp] theorem remainder_nil : remainder [] = [] := rfl

/-- A run that grows at its front takes in a run that follows, and no tag. -/
theorem exists_tokens_closed_append {r : Text} (hr : Closed r) (hne : r ≠ []) (t : Text) :
    ∃ u us, tokens (r ++ t) = (r ++ u) :: us ∧ tokens t = ofText u ++ us ∧
      (Closed u ∨ us = []) := by
  suffices h : ∀ ts, Tokenized ts →
      ∃ u us, Tokenized ((r ++ u) :: us) ∧ ts = ofText u ++ us ∧ (Closed u ∨ us = []) by
    obtain ⟨u, us, htok, ht, hu⟩ := h (tokens t) (tokenized_tokens t)
    refine ⟨u, us, tokens_eq_of_tokenized htok ?_, ht, hu⟩
    have hflat := congrArg List.flatten ht
    rw [flatten_tokens] at hflat
    simp [hflat]
  intro ts h
  cases h with
  | nil => exact ⟨[], [], .tail (by simpa) (.inl (by simpa)), rfl, .inr rfl⟩
  | @tag u us hu h => exact ⟨[], u :: us, .run (by simpa) (by simpa) hu h, rfl, .inl .nil⟩
  | @run r' u us hne' hr' hu h =>
    have hjoined : Tokenized ((r ++ r') :: u :: us) := .run (by simp [hne]) (hr.append hr') hu h
    exact ⟨r', u :: us, hjoined, by simp [ofText_of_ne_nil hne'], .inl hr'⟩
  | @tail r' hne' hr' =>
    have hjoined : Tokenized [r ++ r'] := .tail (by simp [hne]) (hr.append_isTail hr')
    exact ⟨r', [], hjoined, by simp [ofText_of_ne_nil hne'], .inr rfl⟩

namespace Selector

/-- A name is demanded, and it is one that a tag can have. -/
def IsNamed (s : Selector) : Prop :=
  ∃ name className, s.target = .element (some name) className ∧ '>' ∉ name.val

variable {s : Selector}

theorem IsNamed.begins_closed_append (hs : s.IsNamed) {r : Text} (hr : Closed r) (hne : r ≠ [])
    (u : Text) : s.begins (r ++ u) = false := by
  obtain ⟨name, className, htarget, hgt⟩ := hs
  by_contra hbegins
  have haccepts : s.accepts (r ++ u) = true := by simp_all [begins]
  simp only [accepts, htarget, Target.accepts, Option.all_some, Bool.and_eq_true,
    List.isPrefixOf_iff_prefix] at haccepts
  obtain ⟨rest, hrest⟩ := haccepts.1
  obtain ⟨c, n, hname⟩ := List.exists_cons_of_ne_nil name.property
  cases hr with
  | nil => exact hne rfl
  | char hc => exact hc (List.cons.inj hrest).1.symm
  | pair =>
    rw [hname] at hrest hgt
    have hc : c = '>' := (List.cons.inj (List.cons.inj hrest).2).1
    exact hgt (hc ▸ List.mem_cons_self)

/-- No element begins in the tokens, but for one at the end that is left open. -/
inductive IsEmptied (s : Selector) : List Token → Prop
  | plain {ts : List Token} (h : s.Plain ts) : IsEmptied s ts
  | dangling {ts us : List Token} (h : s.Plain ts) (hd : s.IsDangling us) : IsEmptied s (ts ++ us)

namespace IsEmptied

theorem cons {t : Token} {ts : List Token} (ht : s.begins t = false) (h : s.IsEmptied ts) :
    s.IsEmptied (t :: ts) := by
  cases h with
  | plain h => exact .plain (List.forall_mem_cons.mpr ⟨ht, h⟩)
  | @dangling ts us h hd =>
    have hfront : s.Plain (t :: ts) := List.forall_mem_cons.mpr ⟨ht, h⟩
    exact .dangling hfront hd

theorem of_cons {t : Token} {ts : List Token} (ht : s.begins t = false)
    (h : s.IsEmptied (t :: ts)) : s.IsEmptied ts := by
  generalize hall : t :: ts = all at h
  cases h with
  | plain h =>
    subst hall
    exact .plain (List.forall_mem_cons.mp h).2
  | @dangling us vs h hd =>
    cases us with
    | nil =>
      cases hd with
      | intro hk ha =>
        obtain ⟨rfl, -⟩ := List.cons.inj hall
        simp [begins, hk, ha] at ht
    | cons u us =>
      obtain ⟨-, rfl⟩ := List.cons.inj hall
      exact .dangling (List.forall_mem_cons.mp h).2 hd

theorem of_ofText_append (hs : s.IsNamed) {u : Text} {us : List Token} (hu : Closed u ∨ us = [])
    (h : s.IsEmptied (ofText u ++ us)) : s.IsEmptied us := by
  rcases hu with hu | rfl
  · by_cases hne : u = []
    · subst hne
      exact h
    · have hbegins := hs.begins_closed_append hu hne []
      rw [List.append_nil] at hbegins
      rw [ofText_of_ne_nil hne] at h
      exact h.of_cons hbegins
  · exact .plain (by simp [Plain])

/-- No element begins where two texts are joined behind a tag or a run of the first. -/
theorem flatten_append (hs : s.IsNamed) {ts : List Token} (hts : ∀ t ∈ ts, IsTag t ∨ Closed t)
    (hplain : s.Plain ts) {rest : Text} (h : s.IsEmptied (tokens rest)) :
    s.IsEmptied (tokens (ts.flatten ++ rest)) := by
  induction ts with
  | nil => exact h
  | cons t ts ih =>
    obtain ⟨ht, hts⟩ := List.forall_mem_cons.mp hts
    obtain ⟨hbegins, hplain⟩ := List.forall_mem_cons.mp hplain
    have htail := ih hts hplain
    rw [List.flatten_cons, List.append_assoc]
    rcases ht with ht | ht
    · rw [tokens_tag_append ht]
      exact htail.cons hbegins
    · by_cases hne : t = []
      · subst hne
        exact htail
      obtain ⟨u, us, htokens, hrest, hu⟩ := exists_tokens_closed_append ht hne (ts.flatten ++ rest)
      rw [hrest] at htail
      rw [htokens]
      exact (htail.of_ofText_append hs hu).cons (hs.begins_closed_append ht hne u)

theorem segments_unmatched {d : Text} (h : s.IsEmptied (tokens d)) :
    ∀ g ∈ segments s d, g.matched = false := by
  generalize hts : tokens d = ts at h
  cases h with
  | plain h =>
    have htokens : [⟨false, ts⟩].flatMap Segment.tokens = tokens d := by simp [hts]
    simp [← eq_segments_of_segmented (.last h) htokens]
  | @dangling ts us h hd =>
    have htokens : [⟨false, ts⟩, ⟨false, us⟩].flatMap Segment.tokens = tokens d := by simp [hts]
    simp [← eq_segments_of_segmented (.dangling h hd) htokens]

end IsEmptied

theorem Segmented.isEmptied_remainder (hs : s.IsNamed) {gs : List Segment} (h : s.Segmented gs)
    (ht : Tokenized (gs.flatMap (·.tokens))) : s.IsEmptied (tokens (remainder gs)) := by
  induction h with
  | @last ts h =>
    have htokens : tokens (remainder [⟨false, ts⟩]) = ts := by
      apply tokens_eq_of_tokenized
      · simpa using ht
      · simp
    rw [htokens]
    exact .plain h
  | @dangling ts us h hd =>
    have htokens : tokens (remainder [⟨false, ts⟩, ⟨false, us⟩]) = ts ++ us := by
      apply tokens_eq_of_tokenized
      · simpa using ht
      · simp
    rw [htokens]
    exact .dangling h hd
  | @element ts e gs h he _ ih =>
    have hall : Tokenized (ts ++ (e ++ gs.flatMap (·.tokens))) := by simpa using ht
    have hne : e ++ gs.flatMap (·.tokens) ≠ [] := by simp [he.ne_nil s]
    have hrest := ih hall.of_append.2.of_append.2
    rw [remainder_unmatched, remainder_matched]
    exact hrest.flatten_append hs (hall.isTag_or_closed hne) h

end Selector

theorem fill_eq_remainder {s : Selector} (hs : s.attr = none) {value : Value}
    (hvalue : value.texts = []) (d : Text) :
    fill s value d = .ok ⟨remainder (segments s d), (segments s d).any (·.matched)⟩ := by
  have hfill : ∀ g ∈ segments s d,
      g.fill s value.items = .ok (if g.matched then [] else g.text) := by
    rintro ⟨matched, ts⟩ -
    cases matched with
    | false => rfl
    | true =>
      rw [Segment.fill_matched hs, if_pos hvalue]
      rfl
  have hflat : ∀ gs : List Segment,
      (gs.map fun g => if g.matched then [] else g.text).flatten = remainder gs := by
    intro gs
    induction gs with
    | nil => rfl
    | cons g gs ih =>
      obtain ⟨matched, ts⟩ := g
      cases matched <;> simpa [Segment.text] using ih
  rw [fill_eq_mapM, mapM_eq_ok hfill, ← hflat]
  rfl

/--
A selector with a name takes all its elements out at once. It finds none in what is left, and that
stays as it is then, whatever is to be filled in.
-/
theorem fill_remainder {s : Selector} (hattr : s.attr = none) (hname : s.IsNamed) {value : Value}
    (hvalue : value = .absent ∨ value = .list []) (d : Text) :
    fill s value d = .ok ⟨remainder (segments s d), (segments s d).any (·.matched)⟩ ∧
      (∀ g ∈ segments s (remainder (segments s d)), g.matched = false) ∧
      ∀ w, fill s w (remainder (segments s d)) = .ok ⟨remainder (segments s d), false⟩ := by
  have htexts : value.texts = [] := by rcases hvalue with rfl | rfl <;> rfl
  have htok := tokenized_tokens d
  rw [← tokens_segments s d] at htok
  have hunmatched := ((segmented_segments s d).isEmptied_remainder hname htok).segments_unmatched
  exact ⟨fill_eq_remainder hattr htexts d, hunmatched, fill_eq_self hunmatched⟩

/-- A `<>` and a `/>` from two sides of an element make a run that looks like an opening tag. -/
theorem fill_remainder_of_joined_runs :
    fill (.parse ['p']) (.list [])
        ['<', '>', '<', 'p', '>', '1', '<', '/', 'p', '>', '/', '>', '<', 'p', '/', '>', '<', 'p'] =
      .ok ⟨['<', '>', '/', '>', '<', 'p'], true⟩ ∧
    (∀ g ∈ segments (.parse ['p']) ['<', '>', '/', '>', '<', 'p'], g.matched = false) ∧
    ∀ w, fill (.parse ['p']) w ['<', '>', '/', '>', '<', 'p'] =
      .ok ⟨['<', '>', '/', '>', '<', 'p'], false⟩ := by
  have hname : (Selector.parse ['p']).IsNamed := ⟨⟨['p'], by decide⟩, none, rfl, by decide⟩
  have hrest : remainder (segments (.parse ['p']) ['<', '>', '<', 'p', '>', '1', '<', '/', 'p', '>',
      '/', '>', '<', 'p', '/', '>', '<', 'p']) = ['<', '>', '/', '>', '<', 'p'] := by decide
  have hremoved := fill_remainder (by decide) hname (.inr rfl) ['<', '>', '<', 'p', '>', '1', '<',
    '/', 'p', '>', '/', '>', '<', 'p', '/', '>', '<', 'p']
  rw [hrest] at hremoved
  exact hremoved

end MarkupTemplate
