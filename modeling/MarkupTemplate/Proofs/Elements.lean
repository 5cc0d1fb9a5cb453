import MarkupTemplate.Proofs.Segmentation
import MarkupTemplate.Proofs.Shape

/-!
The elements that a cut finds: which of them have complete tags at their ends, and which tags a
rewriting of their content keeps.
-/
namespace MarkupTemplate

open Token

namespace Token

theorem not_mem_of_isTail {t : Token} (h : IsTail t) (hk : t.kind = .closing) : '>' ∉ t := by
  rcases h with h | ⟨front, body, hf, hb, rfl⟩
  · exact absurd hk h.kind_ne_closing
  obtain ⟨r, hr⟩ := kind_eq_closing.mp hk
  cases hf with
  | nil => simpa using hb
  | char hc => exact absurd (List.cons.inj hr).1 hc
  | pair => cases hr

theorem closed_of_selfClosing {t : Token} (h : IsTail t) (hk : t.kind = .selfClosing) :
    Closed t := by
  rcases h with h | ⟨front, body, hf, hb, rfl⟩
  · exact h
  obtain ⟨r, hr⟩ := exists_of_kind_selfClosing hk
  have hlast := congrArg List.getLast? hr
  have hmem : '>' ∈ '<' :: body := by
    apply List.mem_of_getLast?
    simpa [List.getLast?_append] using hlast
  exact absurd hmem (by simpa using hb)

end Token

namespace Selector

variable {s : Selector}

/-- Complete tags of one name at both ends, or one complete self-closing tag. -/
inductive IsReal (s : Selector) : List Token → Prop
  | selfClosing {t : Token} (ht : IsTag t) (hk : t.kind = .selfClosing)
      (ha : s.accepts t = true) : IsReal s [t]
  | pair {o c : Token} {mid : List Token} {n : Text} (ho : IsTag o) (hk : o.kind = .opening)
      (ha : s.accepts o = true) (hc : IsTag c) (hk' : c.kind = .closing)
      (hn : o.name? = some n) (hn' : c.name? = some n) : IsReal s (o :: (mid ++ [c]))

/-- A run that ends as a self-closing tag does. -/
inductive IsBareRun (s : Selector) : List Token → Prop
  | intro {r : Token} (hr : Closed r) (hk : r.kind = .selfClosing) (ha : s.accepts r = true) :
      IsBareRun s [r]

/-- The closing tag of an element lacks its `>`. -/
inductive IsCutOff (s : Selector) : List Token → Prop
  | intro {o c : Token} {mid : List Token} {n : Text} (ho : IsTag o) (hk : o.kind = .opening)
      (ha : s.accepts o = true) (hc : '>' ∉ c) (hk' : c.kind = .closing) (hn : o.name? = some n)
      (hn' : c.name? = some n) : IsCutOff s (o :: (mid ++ [c]))

/-- Where it stands tells of an element which of its tags are complete. -/
theorem IsElement.cases_of_tokenized {e after : List Token} (he : s.IsElement e)
    (h : Tokenized (e ++ after)) :
    s.IsReal e ∨ s.IsBareRun e ∨ (s.IsCutOff e ∧ after = []) := by
  cases he with
  | @selfClosing t hk ha =>
    rcases h.cases_cons with ht | hr | ⟨hr, -⟩
    · exact .inl (.selfClosing ht hk ha)
    · exact .inr (.inl (.intro hr hk ha))
    · exact .inr (.inl (.intro (closed_of_selfClosing hr hk) hk ha))
  | @pair o n ts hk ha hn hends =>
    obtain ⟨c, hlast, hc⟩ := hends.last
    obtain ⟨mid, rfl⟩ := List.getLast?_eq_some_iff.mp hlast
    simp only [closes, decide_eq_true_eq] at hc
    have ho : IsTag o := by
      rcases h.cases_cons with ho | hr | ⟨-, hnil⟩
      · exact ho
      · rw [hr.name?_eq_none] at hn
        cases hn
      · simp at hnil
    have hend : Tokenized (c :: after) := by
      have : o :: (mid ++ [c]) ++ after = (o :: mid) ++ (c :: after) := by simp
      rw [this] at h
      exact h.of_append.2
    rcases hend.cases_cons with hct | hr | ⟨hr, hnil⟩
    · exact .inl (.pair ho hk ha hct hc.1 hn hc.2)
    · exact absurd hc.1 hr.kind_ne_closing
    · exact .inr (.inr ⟨.intro ho hk ha (not_mem_of_isTail hr hc.1) hc.1 hn hc.2, hnil⟩)

theorem Segmented.isElement_of_mem {gs : List Segment} (h : s.Segmented gs) {g : Segment}
    (hg : g ∈ gs) (hm : g.matched = true) : s.IsElement g.tokens := by
  induction h with
  | last h =>
    obtain rfl := List.mem_singleton.mp hg
    cases hm
  | dangling h hd =>
    rcases List.mem_cons.mp hg with rfl | hg
    · cases hm
    obtain rfl := List.mem_singleton.mp hg
    cases hm
  | element h he _ ih =>
    rcases List.mem_cons.mp hg with rfl | hg
    · cases hm
    rcases List.mem_cons.mp hg with rfl | hg
    · exact he
    · exact ih hg

end Selector

theorem isElement_of_mem_segments {s : Selector} {d : Text} {g : Segment} (hg : g ∈ segments s d)
    (hm : g.matched = true) : s.IsElement g.tokens :=
  (segmented_segments s d).isElement_of_mem hg hm

theorem exists_tokens_eq_append {s : Selector} {d : Text} {g : Segment} (hg : g ∈ segments s d) :
    ∃ before after, tokens d = before ++ (g.tokens ++ after) := by
  obtain ⟨front, back, hgs⟩ := List.append_of_mem hg
  have ht := tokens_segments s d
  rw [hgs] at ht
  exact ⟨_, _, by simpa using ht.symm⟩

theorem exists_tokenized_append {s : Selector} {d : Text} {g : Segment} (hg : g ∈ segments s d) :
    ∃ after, Tokenized (g.tokens ++ after) := by
  obtain ⟨before, after, ht⟩ := exists_tokens_eq_append hg
  have := tokenized_tokens d
  rw [ht] at this
  exact ⟨after, this.of_append.2⟩

theorem matched_cases {s : Selector} {d : Text} {g : Segment} (hg : g ∈ segments s d)
    (hm : g.matched = true) :
    s.IsReal g.tokens ∨ s.IsBareRun g.tokens ∨
      (s.IsCutOff g.tokens ∧ ∃ before, tokens d = before ++ g.tokens) := by
  have he := isElement_of_mem_segments hg hm
  obtain ⟨before, after, ht⟩ := exists_tokens_eq_append hg
  have htok := tokenized_tokens d
  rw [ht] at htok
  rcases he.cases_of_tokenized htok.of_append.2 with h | h | ⟨h, rfl⟩
  · exact .inl h
  · exact .inr (.inl h)
  · exact .inr (.inr ⟨h, before, by simpa using ht⟩)

namespace Selector

variable {s : Selector}

theorem IsReal.not_isBareRun {e : List Token} (h : s.IsReal e) : ¬ s.IsBareRun e := by
  intro hr
  generalize he : e = e' at hr
  cases hr with
  | intro hr => cases h with
    | selfClosing ht => exact hr.not_isTag ((List.cons.inj he).1 ▸ ht)
    | pair => simp at he

theorem IsReal.not_isCutOff {e : List Token} (h : s.IsReal e) : ¬ s.IsCutOff e := by
  intro hcut
  generalize he : e = e' at hcut
  cases hcut with
  | @intro o' c' mid' _ _ _ _ hgt => cases h with
    | selfClosing => simp at he
    | @pair o c mid _ _ _ _ hc =>
      have hlast := (List.append_inj' (List.cons.inj he).2 rfl).2
      obtain rfl : c = c' := (List.cons.inj hlast).1
      obtain ⟨body, -, -, rfl⟩ := hc
      simp at hgt

theorem IsBareRun.not_isCutOff {e : List Token} (h : s.IsBareRun e) : ¬ s.IsCutOff e := by
  intro hc
  generalize he : e = e' at hc
  cases hc with
  | intro => cases h with
    | intro => simp at he

/-- By name only `>` finds a run. -/
theorem IsBareRun.head?_name {r : List Token} (h : s.IsBareRun r) {name : Part}
    {className : Option Part} (hs : s.target = .element (some name) className) :
    name.val.head? = some '>' := by
  cases h with
  | @intro r hr _ ha =>
    have hp : ('<' :: name.val).isPrefixOf r = true := by
      simp only [accepts, hs, Target.accepts, Option.all_some, Bool.and_eq_true] at ha
      exact ha.1
    obtain ⟨rest, rfl⟩ := List.isPrefixOf_iff_prefix.mp hp
    obtain ⟨r', hr', -⟩ := hr.eq_pair
    obtain ⟨c, t, hname⟩ := List.exists_cons_of_ne_nil name.property
    have hhead := congrArg List.head? hr'
    simpa [hname] using hhead

end Selector

/--
Of the segments that count as elements, those are real that are not a run and whose closing tag is
whole.
-/
theorem isReal_iff_of_matched {s : Selector} {d : Text} {g : Segment} (hg : g ∈ segments s d)
    (hm : g.matched = true) :
    (s.IsReal g.tokens ↔ ¬ s.IsBareRun g.tokens ∧ ¬ s.IsCutOff g.tokens) ∧
      (s.IsBareRun g.tokens → ∀ name className, s.target = .element (some name) className →
        name.val.head? = some '>') ∧
      (s.IsCutOff g.tokens → ∃ before, tokens d = before ++ g.tokens) := by
  constructor
  · constructor
    · intro h
      exact ⟨h.not_isBareRun, h.not_isCutOff⟩
    · intro hnot
      obtain ⟨hr, hc⟩ := hnot
      rcases matched_cases hg hm with h | h | ⟨h, -⟩
      · exact h
      · exact absurd h hr
      · exact absurd h hc
  constructor
  · intro hr name className hs
    exact hr.head?_name hs
  · intro hc
    rcases matched_cases hg hm with h | h | ⟨-, h⟩
    · exact absurd hc h.not_isCutOff
    · exact absurd hc h.not_isCutOff
    · exact h

/-- An element is not real if the text ends before the `>` of its closing tag. -/
theorem not_isReal_of_cut_off :
    ⟨true, [['<', 'p', '>'], ['<', '/', 'p']]⟩ ∈
        segments (.parse ['p']) ['<', 'p', '>', '<', '/', 'p'] ∧
      ¬ (Selector.parse ['p']).IsReal [['<', 'p', '>'], ['<', '/', 'p']] := by
  have hg : ⟨true, [['<', 'p', '>'], ['<', '/', 'p']]⟩ ∈
      segments (.parse ['p']) ['<', 'p', '>', '<', '/', 'p'] := by decide
  have hopening : IsTag ['<', 'p', '>'] := ⟨['p'], by decide, by decide, rfl⟩
  have hcut : (Selector.parse ['p']).IsCutOff ([['<', 'p', '>']] ++ ([] ++ [['<', '/', 'p']])) :=
    .intro (n := ['p']) hopening (by decide) (by decide) (by decide) (by decide) rfl rfl
  refine ⟨hg, fun hreal => ?_⟩
  have hnot := (isReal_iff_of_matched hg rfl).1.mp hreal
  exact hnot.2 hcut

/-- A selector without demands finds the run `x/>`. -/
theorem not_forall_isReal :
    ¬ ∀ (s : Selector) (d : Text) (g : Segment), g ∈ segments s d → g.matched = true →
      s.IsReal g.tokens := by
  intro h
  have hmem : ⟨true, [['x', '/', '>']]⟩ ∈ segments (.parse [':', 'v']) ['x', '/', '>'] := by decide
  have hclosed : Closed ['x', '/', '>'] := .of_not_mem (by decide)
  have hrun : (Selector.parse [':', 'v']).IsBareRun [['x', '/', '>']] :=
    .intro hclosed (by decide) (by decide)
  exact (h _ _ _ hmem rfl).not_isBareRun hrun

/-- The tags that stay when the content is replaced, from the first and the last token. -/
def Element.keptTags? (e : List Token) : Option (Token × Token) := do
  let o ← e.head?
  let c ← e.tail.getLast?
  let (_, closing) ← splitClosing? c
  return (o, closing)

namespace Element

@[simp] theorem keptTags?_singleton (t : Token) : keptTags? [t] = none := rfl

theorem keptTags?_pair (o c : Token) (mid : List Token) :
    keptTags? (o :: (mid ++ [c])) = (splitClosing? c).map fun p => (o, p.2) := by
  cases hc : splitClosing? c <;> simp [keptTags?, hc]

/-- A text is split at the same tags as the tokens of it. -/
theorem ofText?_of_isReal {s : Selector} {e : List Token} (h : s.IsReal e) :
    (ofText? e.flatten).map (fun x => (x.opening, x.closing)) = keptTags? e := by
  cases h with
  | selfClosing ht => simp [ofText?_isTag ht]
  | @pair o c mid n ho _ _ hc hk' _ hn' =>
    obtain ⟨content, closing, hsplit⟩ :=
      exists_splitClosing? (isClosing_of_isTag hc hk' (by simp [hn']))
    have := ofText?_tags ho hsplit mid.flatten
    rw [keptTags?_pair, hsplit]
    simp [this]

theorem ofText?_of_isBareRun {s : Selector} {e : List Token} (h : s.IsBareRun e) :
    ofText? e.flatten = none ∧ keptTags? e = none := by
  cases h with
  | intro hr => simp [ofText?_closed hr]

theorem ofText?_of_isCutOff {s : Selector} {e : List Token} (h : s.IsCutOff e) :
    ofText? e.flatten = none ∧ keptTags? e = none := by
  cases h with
  | @intro o c mid n _ _ _ hc hk' =>
    have hne : ∀ (before front : Text), before ++ c ≠ front ++ ['>'] := by
      intro before front h
      obtain ⟨r, rfl⟩ := kind_eq_closing.mp hk'
      have hlast := congrArg List.getLast? h
      have : '>' ∈ '<' :: '/' :: r := by
        apply List.mem_of_getLast?
        simpa [List.getLast?_append] using hlast
      exact hc this
    constructor
    · apply ofText?_eq_none
      intro front
      have := hne (o ++ mid.flatten) front
      simpa using this
    · have hnone : splitClosing? c = none := splitClosing?_eq_none (hne [])
      rw [keptTags?_pair, hnone]
      rfl

theorem ofText?_of_isElement {s : Selector} {e after : List Token} (he : s.IsElement e)
    (h : Tokenized (e ++ after)) :
    (ofText? e.flatten).map (fun x => (x.opening, x.closing)) = keptTags? e := by
  rcases he.cases_of_tokenized h with h | h | ⟨h, -⟩
  · exact ofText?_of_isReal h
  · simp [ofText?_of_isBareRun h]
  · simp [ofText?_of_isCutOff h]

/-- What is kept of an element are a complete opening tag and a complete closing tag. -/
theorem isTag_of_keptTags? {s : Selector} {e after : List Token} {o c : Token}
    (he : s.IsElement e) (h : Tokenized (e ++ after)) (hk : keptTags? e = some (o, c)) :
    (IsTag o ∧ o.kind = .opening) ∧ (IsTag c ∧ c.kind = .closing) ∧ e.head? = some o ∧
      c <:+ e.flatten := by
  rcases he.cases_of_tokenized h with h | h | ⟨h, -⟩
  · cases h with
    | selfClosing => cases hk
    | @pair o' c' mid n ho hko _ _ _ _ _ =>
      rw [keptTags?_pair] at hk
      obtain ⟨⟨content, closing⟩, hsplit, heq⟩ := Option.map_eq_some_iff.mp hk
      cases heq
      have hclosing := isClosing_of_splitClosing? hsplit
      have hc : IsTag closing ∧ Token.kind closing = .closing :=
        ⟨isTag_of_isClosing hclosing, kind_of_isClosing hclosing⟩
      have hsuffix : closing <:+ c' := ⟨content, (eq_of_splitClosing? hsplit).symm⟩
      have hlast : c' <:+ (o :: (mid ++ [c'])).flatten := ⟨o ++ mid.flatten, by simp⟩
      exact ⟨⟨ho, hko⟩, hc, rfl, hsuffix.trans hlast⟩
  · rw [(ofText?_of_isBareRun h).2] at hk
    cases hk
  · rw [(ofText?_of_isCutOff h).2] at hk
    cases hk

theorem isTag_of_mem_segments {s : Selector} {d : Text} {g : Segment} {o c : Token}
    (hg : g ∈ segments s d) (hm : g.matched = true) (hk : keptTags? g.tokens = some (o, c)) :
    (IsTag o ∧ o.kind = .opening) ∧ (IsTag c ∧ c.kind = .closing) ∧ g.tokens.head? = some o ∧
      c <:+ g.tokens.flatten := by
  obtain ⟨after, htok⟩ := exists_tokenized_append hg
  exact isTag_of_keptTags? (isElement_of_mem_segments hg hm) htok hk

end Element

end MarkupTemplate
