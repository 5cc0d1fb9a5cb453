import MarkupTemplate.Proofs.Elements
import MarkupTemplate.Proofs.Entities
import MarkupTemplate.Proofs.Filling

/-!
Filling the content of elements: the tokens of the result are those of the document, but for the
content of the elements, which is the encoded text of the value.
-/
namespace MarkupTemplate

open Token

structure Selector.IsContent (s : Selector) : Prop where
  attr : s.attr = none
  embed : s.embed = false

def encoded (t : Text) : List Token := ofText (Entity.encode t)

theorem closed_encode (t : Text) : Closed (Entity.encode t) :=
  .of_not_mem (Entity.not_mem_encode (by decide) t)

theorem kind_encode (t : Text) : Token.kind (Entity.encode t) = .text :=
  kind_eq_text (Entity.not_mem_encode (by decide) t) (Entity.not_mem_encode (by decide) t)

/-- One copy of an element with its content replaced. -/
def copy (o c : Token) (t : Text) : List Token := o :: (encoded t ++ [c])

theorem flatten_copy (o c : Token) (t : Text) :
    (copy o c t).flatten = o ++ (Entity.encode t ++ c) := by
  by_cases h : Entity.encode t = [] <;> simp [copy, encoded, ofText, h]

theorem tokenized_copy {o c : Token} (ho : IsTag o) (hc : IsTag c) (t : Text) {ts : List Token}
    (h : Tokenized ts) : Tokenized (copy o c t ++ ts) := by
  have := Tokenized.ofText_append (closed_encode t) hc h
  simpa [copy, encoded] using Tokenized.tag ho this

theorem tokenized_copies {o c : Token} (ho : IsTag o) (hc : IsTag c) (vs : List Text)
    {ts : List Token} (h : Tokenized ts) : Tokenized (vs.flatMap (copy o c) ++ ts) := by
  induction vs with
  | nil => exact h
  | cons v vs ih =>
    rw [List.flatMap_cons, List.append_assoc]
    exact tokenized_copy ho hc v ih

/--
What a content binding makes of the tokens of a segment. Without texts an element goes; else its
tags have to be there to be kept.
-/
def Segment.rewrite (s : Selector) (vs : List Text) (g : Segment) :
    Except ShapeError (List Token) :=
  if g.matched then
    if vs = [] then .ok []
    else
      match Element.keptTags? g.tokens with
      | some (o, c) => .ok (vs.flatMap (copy o c))
      | none => .error ⟨s, g.text⟩
  else .ok g.tokens

/-- Without an attribute, a copy of an element has the tags that are kept of its tokens. -/
theorem Segment.fill_keptTags {s : Selector} (hs : s.attr = none) {e after : List Token}
    (he : s.IsElement e) (h : Tokenized (e ++ after)) (value : Value) :
    fill s value.items ⟨true, e⟩ =
      if value.texts = [] then .ok []
      else
        match Element.keptTags? e with
        | some (o, c) => .ok (value.texts.flatMap fun v => o ++ s.written v ++ c)
        | none => .error ⟨s, e.flatten⟩ := by
  rw [fill_matched hs, ← Element.ofText?_of_isElement he h]
  cases Element.ofText? e.flatten <;> rfl

theorem Segment.fill_element {s : Selector} (hs : s.IsContent) {e after : List Token}
    (he : s.IsElement e) (h : Tokenized (e ++ after)) (value : Value) :
    fill s value.items ⟨true, e⟩ = List.flatten <$> rewrite s value.texts ⟨true, e⟩ := by
  rw [fill_keptTags hs.attr he h]
  by_cases hvs : value.texts = []
  · rw [if_pos hvs]
    simp only [rewrite, if_true, if_pos hvs]
    rfl
  rw [if_neg hvs]
  simp only [rewrite, if_true, if_neg hvs]
  cases Element.keptTags? e with
  | none => rfl
  | some p =>
    obtain ⟨o, c⟩ := p
    have hcopies : ∀ vs : List Text,
        (vs.flatMap fun v => o ++ s.written v ++ c) = (vs.flatMap (copy o c)).flatten := by
      intro vs
      induction vs with
      | nil => rfl
      | cons v vs ih =>
        rw [List.flatMap_cons, List.flatMap_cons, ih, List.flatten_append, flatten_copy]
        simp [Selector.written, hs.embed]
    exact congrArg Except.ok (hcopies value.texts)

theorem Segment.fill_eq {s : Selector} (hs : s.IsContent) {d : Text} {g : Segment}
    (hg : g ∈ segments s d) (value : Value) :
    g.fill s value.items = List.flatten <$> g.rewrite s value.texts := by
  obtain ⟨matched, e⟩ := g
  cases matched with
  | false => rfl
  | true =>
    obtain ⟨after, htok⟩ := exists_tokenized_append hg
    exact Segment.fill_element hs (isElement_of_mem_segments hg rfl) htok value

theorem fill_eq {s : Selector} (hs : s.IsContent) (value : Value) (d : Text) :
    fill s value d =
      (fun tss => ⟨tss.flatten.flatten, (segments s d).any (·.matched)⟩) <$>
        (segments s d).mapM (Segment.rewrite s value.texts) := by
  rw [fill_eq_mapM, mapM_eq_map fun g hg => Segment.fill_eq hs hg value]
  cases (segments s d).mapM (Segment.rewrite s value.texts) with
  | error e => rfl
  | ok tss =>
    have hflat := List.flatten_flatten (L := tss)
    exact congrArg (fun t => (.ok ⟨t, _⟩ : Except ShapeError Filled)) hflat.symm

/-- A binding that succeeds has something to make of each segment. -/
theorem forall₂_of_fill_eq_ok {s : Selector} (hs : s.IsContent) {value : Value} {d : Text}
    {f : Filled} (h : fill s value d = .ok f) :
    ∃ tss, List.Forall₂ (fun g ts => g.rewrite s value.texts = .ok ts) (segments s d) tss ∧
      f.text = tss.flatten.flatten := by
  rw [fill_eq hs] at h
  obtain ⟨tss, htss, hf⟩ := exists_of_map_eq_ok h
  exact ⟨tss, mapM_eq_ok_iff.mp htss, by rw [← hf]⟩

/--
What becomes of the tokens of a segment: outside the elements they stay, and of an element its
opening tag and a closing tag from its end stay, with each text in turn between them.
-/
inductive Segment.Rewritten (vs : List Text) : Segment → List Token → Prop
  | kept {ts : List Token} : Rewritten vs ⟨false, ts⟩ ts
  | copies {e : List Token} {o c : Token} (ho : IsTag o ∧ o.kind = .opening)
      (hc : IsTag c ∧ c.kind = .closing) (hhead : e.head? = some o) (hsuffix : c <:+ e.flatten) :
      Rewritten vs ⟨true, e⟩ (vs.flatMap (copy o c))

theorem Segment.rewritten_of_rewrite {s : Selector} {vs : List Text} (hvs : vs ≠ []) {d : Text}
    {g : Segment} (hg : g ∈ segments s d) {ts : List Token} (h : g.rewrite s vs = .ok ts) :
    Rewritten vs g ts := by
  obtain ⟨matched, e⟩ := g
  cases matched with
  | false =>
    cases h
    exact .kept
  | true =>
    cases hk : Element.keptTags? e with
    | none => simp [rewrite, hvs, hk] at h
    | some p =>
      obtain ⟨ho, hc, hhead, hsuffix⟩ := Element.isTag_of_mem_segments hg rfl hk
      have hts : vs.flatMap (copy p.1 p.2) = ts := by simpa [rewrite, hvs, hk] using h
      rw [← hts]
      exact .copies ho hc hhead hsuffix

/--
Tokens in the place of a segment: for an element they begin with its own first tag and fit in front
of any others.
-/
inductive Segment.Replaced : Segment → List Token → Prop
  | kept {ts : List Token} : Replaced ⟨false, ts⟩ ts
  | element {e us : List Token} {o : Token} (ho : IsTag o) (hhead : e.head? = some o)
      (h : ∀ vs, Tokenized vs → Tokenized (us ++ vs)) : Replaced ⟨true, e⟩ (o :: us)

theorem tokenized_replaced {s : Selector} {gs : List Segment} (h : s.Segmented gs)
    {tss : List (List Token)} (hr : List.Forall₂ Segment.Replaced gs tss)
    (ht : Tokenized (gs.flatMap (·.tokens))) : Tokenized tss.flatten := by
  induction h generalizing tss with
  | last _ =>
    cases hr with
    | cons h₁ h₂ => cases h₁; cases h₂; simpa using ht
  | dangling _ _ =>
    cases hr with
    | cons h₁ h₂ => cases h₁; cases h₂ with
      | cons h₂ h₃ => cases h₂; cases h₃; simpa using ht
  | @element ts e gs _ _ _ ih =>
    cases hr with
    | cons h₁ h₂ => cases h₁; cases h₂ with
      | @cons _ es _ tss h₂ h₃ => cases h₂ with
        | @element _ us o ho hhead h =>
          obtain ⟨e', rfl⟩ := List.head?_eq_some_iff.mp hhead
          have hrest : Tokenized tss.flatten := by
            apply ih h₃
            have : Tokenized ((ts ++ (o :: e')) ++ gs.flatMap (·.tokens)) := by simpa using ht
            exact this.of_append.2
          -- In front of the tag nothing changes, whatever follows it.
          have hfront : Tokenized (ts ++ o :: (e' ++ gs.flatMap (·.tokens))) := by simpa using ht
          have := hfront.append_tag ho (h _ hrest)
          simpa using this

theorem Segment.Rewritten.replaced {vs : List Text} (hvs : vs ≠ []) {g : Segment} {ts : List Token}
    (h : Rewritten vs g ts) : Replaced g ts := by
  cases h with
  | kept => exact .kept
  | @copies e o c ho hc hhead _ =>
    obtain ⟨v, vs, rfl⟩ := List.exists_cons_of_ne_nil hvs
    refine .element ho.1 hhead fun ts hts => ?_
    have hcopies := tokenized_copies ho.1 hc.1 (v :: vs) hts
    rw [List.flatMap_cons, copy, List.append_assoc, List.cons_append] at hcopies
    simpa [List.flatMap_def] using hcopies.of_cons

theorem tokenized_rewritten {s : Selector} {vs : List Text} (hvs : vs ≠ []) {gs : List Segment}
    (h : s.Segmented gs) {tss : List (List Token)}
    (hr : List.Forall₂ (Segment.Rewritten vs) gs tss) (ht : Tokenized (gs.flatMap (·.tokens))) :
    Tokenized tss.flatten :=
  tokenized_replaced h (hr.imp fun _ _ hrw => hrw.replaced hvs) ht

/--
Filling content with texts puts each of them, encoded, between two tags of each element, where it is
text and can be read back; it changes no other token and makes no new one.
-/
theorem tokens_fill_content {s : Selector} (hs : s.IsContent) {value : Value}
    (hv : value.texts ≠ []) {d : Text} {f : Filled} (h : fill s value d = .ok f) :
    ∃ tss, List.Forall₂ (Segment.Rewritten value.texts) (segments s d) tss ∧
      tokens f.text = tss.flatten ∧
      ∀ v ∈ value.texts, (v = [] → encoded v = []) ∧
        (v ≠ [] → encoded v = [Entity.encode v] ∧ Token.kind (Entity.encode v) = .text) ∧
        Entity.decode (Entity.encode v) = v := by
  obtain ⟨tss, htss, htext⟩ := forall₂_of_fill_eq_ok hs h
  have hrw : List.Forall₂ (Segment.Rewritten value.texts) (segments s d) tss := by
    apply forall₂_imp_of_mem htss
    intro g hg ts hts
    exact Segment.rewritten_of_rewrite hv hg hts
  have hgs := segmented_segments s d
  have htok := tokenized_tokens d
  rw [← tokens_segments s d] at htok
  have hout := tokenized_rewritten hv hgs hrw htok
  refine ⟨tss, hrw, tokens_eq_of_tokenized hout htext.symm, ?_⟩
  intro v _
  constructor
  · intro hnil
    subst hnil
    rfl
  constructor
  · intro hne
    exact ⟨ofText_of_ne_nil (by simpa using hne), kind_encode v⟩
  · exact Entity.decode_encode v

/-- An open tag at the end stays behind two copies, of which the second shows no text. -/
theorem tokens_fill_content_of_open_end :
    ∃ tss, List.Forall₂ (Segment.Rewritten [['&'], []])
        (segments (.parse ['p']) ['<', 'p', '>', 'y', '<', '/', 'p', '>', '<', 'q']) tss ∧
      tokens ['<', 'p', '>', '&', 'a', 'm', 'p', ';', '<', '/', 'p', '>', '<', 'p', '>', '<', '/',
        'p', '>', '<', 'q'] = tss.flatten ∧
      ∀ v ∈ [['&'], []], (v = [] → encoded v = []) ∧
        (v ≠ [] → encoded v = [Entity.encode v] ∧ Token.kind (Entity.encode v) = .text) ∧
        Entity.decode (Entity.encode v) = v := by
  have hfill : fill (.parse ['p']) (.list [['&'], []])
      ['<', 'p', '>', 'y', '<', '/', 'p', '>', '<', 'q'] =
        .ok ⟨['<', 'p', '>', '&', 'a', 'm', 'p', ';', '<', '/', 'p', '>', '<', 'p', '>', '<', '/',
          'p', '>', '<', 'q'], true⟩ := by rfl
  exact tokens_fill_content ⟨by decide, by decide⟩ (by decide) hfill

end MarkupTemplate
