import MarkupTemplate.Proofs.Alike

/-!
Two runs of content bindings with the same selectors and values of the same shape: what differs
between them stays within copies, whatever the texts are, so that both have the same tags.
-/
namespace MarkupTemplate

open Token

/-- Tokens of which the runs need not be whole. Only the last may be the open end of a text. -/
inductive Pieces : List Token → Prop
  | nil : Pieces []
  | tail {r : Token} (hr : IsTail r) : Pieces [r]
  | cons {t : Token} {ts : List Token} (ht : IsTag t ∨ Closed t) (h : Pieces ts) : Pieces (t :: ts)

namespace Pieces

theorem of_cons {t : Token} {ts : List Token} (h : Pieces (t :: ts)) : Pieces ts := by
  cases h with
  | tail => exact nil
  | cons _ h => exact h

theorem of_append {us vs : List Token} (h : Pieces (us ++ vs)) : Pieces vs := by
  induction us with
  | nil => exact h
  | cons u us ih => exact ih h.of_cons

theorem append {us vs : List Token} (hus : ∀ t ∈ us, IsTag t ∨ Closed t) (hvs : Pieces vs) :
    Pieces (us ++ vs) := by
  induction us with
  | nil => exact hvs
  | cons u us ih =>
    obtain ⟨hu, hus⟩ := List.forall_mem_cons.mp hus
    exact cons hu (ih hus)

end Pieces

theorem Token.Tokenized.pieces {ts : List Token} (h : Tokenized ts) : Pieces ts := by
  induction h with
  | nil => exact .nil
  | tag ht _ ih => exact .cons (.inl ht) ih
  | run _ hr ht _ ih => exact .cons (.inr hr) (.cons (.inl ht) ih)
  | tail _ hr => exact .tail hr

theorem run_copy {o c : Token} (ho : IsTag o) (hc : IsTag c) (v : Text) (held : Text)
    (ts : List Token) :
    tokenizer.run (.run held) (copy o c v ++ ts).flatten =
      ofText held.reverse ++ (copy o c v ++ tokens ts.flatten) := by
  rw [List.flatten_append, flatten_copy, List.append_assoc, List.append_assoc, run_tag ho,
    tokens_run_append (closed_encode v) hc]
  simp [copy, encoded]

theorem Alike.run_flatten {ts us : List Token} (h : Alike ts us) (hts : Pieces ts) (held : Text) :
    Alike (tokenizer.run (.run held) ts.flatten) (tokenizer.run (.run held) us.flatten) := by
  -- Pieces of one run grow together in what is held, which is the same text on both sides.
  induction h generalizing held with
  | nil => exact refl _
  | @token t ts us h ih =>
    cases hts with
    | tail =>
      rw [h.eq_nil]
      exact refl _
    | cons ht hts =>
      rw [List.flatten_cons, List.flatten_cons]
      rcases ht with ht | ht
      · rw [run_tag ht, run_tag ht]
        exact (refl _).append (token t (ih hts []))
      · rw [run_closed ht, run_closed ht]
        exact ih hts _
  | slot ho hc v w _ ih =>
    rw [run_copy ho.1 hc.1, run_copy ho.1 hc.1]
    exact (refl _).append (slot ho hc v w (ih hts.of_append []))

/-- What a binding makes of an element is whole. -/
theorem isTag_or_closed_of_rewrite {s : Selector} {vs : List Text} {e after out : List Token}
    (he : s.IsElement e) (h : Tokenized (e ++ after))
    (hout : Segment.rewrite s vs ⟨true, e⟩ = .ok out) : ∀ t ∈ out, IsTag t ∨ Closed t := by
  by_cases hvs : vs = []
  · have hnil : [] = out := by simpa [Segment.rewrite, hvs] using hout
    simp [← hnil]
  cases hk : Element.keptTags? e with
  | none => simp [Segment.rewrite, hvs, hk] at hout
  | some p =>
    obtain ⟨ho, hc, -, -⟩ := Element.isTag_of_keptTags? he h hk
    have hcopies : vs.flatMap (copy p.1 p.2) = out := by simpa [Segment.rewrite, hvs, hk] using hout
    subst hcopies
    intro t ht
    obtain ⟨v, -, hcopy⟩ := List.mem_flatMap.mp ht
    rcases List.mem_cons.mp hcopy with rfl | hcopy
    · exact .inl ho.1
    rcases List.mem_append.mp hcopy with htext | hlast
    · obtain ⟨rfl, -⟩ := mem_ofText htext
      exact .inr (closed_encode v)
    · obtain rfl := List.mem_singleton.mp hlast
      exact .inl hc.1

theorem pieces_of_rewrite {s : Selector} {vs : List Text} {gs : List Segment} (h : s.Segmented gs)
    {tss : List (List Token)} (hr : List.Forall₂ (fun g ts => g.rewrite s vs = .ok ts) gs tss)
    (ht : Tokenized (gs.flatMap (·.tokens))) : Pieces tss.flatten := by
  induction h generalizing tss with
  | last _ =>
    cases hr with
    | cons h₁ h₂ => cases h₁; cases h₂; simpa using ht.pieces
  | dangling _ _ =>
    cases hr with
    | cons h₁ h₂ => cases h₁; cases h₂ with
      | cons h₂ h₃ => cases h₂; cases h₃; simpa using ht.pieces
  | @element ts e gs _ he _ ih =>
    cases hr with
    | cons h₁ h₂ => cases h₁; cases h₂ with
      | @cons _ out _ tss h₂ h₃ =>
        have hall : Tokenized (ts ++ (e ++ gs.flatMap (·.tokens))) := by simpa using ht
        obtain ⟨-, hrest⟩ := hall.of_append
        -- What stands before an element is not the end of the text.
        have hne : e ++ gs.flatMap (·.tokens) ≠ [] := by simp [he.ne_nil s]
        have hfront := hall.isTag_or_closed hne
        have hout := isTag_or_closed_of_rewrite he hrest h₂
        exact .append hfront (.append hout (ih h₃ hrest.of_append.2))

/-- Only the texts may differ. -/
inductive Value.SameShape : Value → Value → Prop
  | absent : SameShape .absent .absent
  | text (t u : Text) : SameShape (.text t) (.text u)
  | list {ts us : List Text} (h : ts.length = us.length) : SameShape (.list ts) (.list us)

theorem Value.SameShape.length_texts {v w : Value} (h : v.SameShape w) :
    v.texts.length = w.texts.length := by
  cases h with
  | absent => rfl
  | text => rfl
  | list h => exact h

theorem Segment.Alike.rewrite {s : Selector} {d : Text} {g g' : Segment} (ha : g.Alike g')
    (hg : g ∈ segments s d) {vs ws : List Text} (hlen : vs.length = ws.length) :
    Agree MarkupTemplate.Alike (g.rewrite s vs) (g'.rewrite s ws) := by
  obtain ⟨matched, e⟩ := g
  obtain ⟨matched', e'⟩ := g'
  obtain ⟨rfl, he⟩ := ha
  cases matched with
  | false => exact .ok he
  | true =>
    have hempty : ws = [] ↔ vs = [] := by
      rw [← List.length_eq_zero_iff, ← List.length_eq_zero_iff, hlen]
    have hkept := he.keptTags?_eq
    by_cases hvs : vs = []
    · simpa [Segment.rewrite, hempty, hvs] using Agree.ok MarkupTemplate.Alike.nil
    cases hk : Element.keptTags? e with
    | none =>
      rw [hk] at hkept
      simpa [Segment.rewrite, hempty, hvs, hk, ← hkept] using Agree.error
    | some p =>
      obtain ⟨ho, hc, -, -⟩ := Element.isTag_of_mem_segments hg rfl hk
      rw [hk] at hkept
      simpa [Segment.rewrite, hempty, hvs, hk, ← hkept] using Agree.ok (.copies ho hc hlen)

/-- One step of the two runs. -/
theorem alike_fill {s : Selector} (hs : s.IsContent) {v w : Value} (hv : v.SameShape w)
    {d d' : Text} (h : Alike (tokens d) (tokens d')) :
    Agree (fun f f' => Alike (tokens f.text) (tokens f'.text)) (fill s v d) (fill s w d') := by
  rw [fill_eq hs, fill_eq hs]
  have hsegments := forall₂_alike_segments (s := s) h
  have hagree := Agree.mapM <| forall₂_imp_of_mem hsegments fun g hg g' ha =>
    ha.rewrite hg hv.length_texts
  generalize hrun : (segments s d).mapM (Segment.rewrite s v.texts) = run at hagree
  generalize (segments s d').mapM (Segment.rewrite s w.texts) = run' at hagree
  cases hagree with
  | error => exact .error
  | @ok tss uss halike =>
    have htok := tokenized_tokens d
    rw [← tokens_segments s d] at htok
    have hpieces := pieces_of_rewrite (segmented_segments s d) (mapM_eq_ok_iff.mp hrun) htok
    exact .ok ((Alike.flatten halike).run_flatten hpieces [])

/-- The same selector, for content, with values of the same shape. -/
structure Binding.Twin (b c : Binding) : Prop where
  selector : b.selector = c.selector
  content : (Selector.parse b.selector).IsContent
  shape : b.value.SameShape c.value

theorem alike_foldlM {bs cs : Bindings} (h : List.Forall₂ Binding.Twin bs cs) {f f' : Filled}
    (ha : Alike (tokens f.text) (tokens f'.text)) :
    Agree (fun f f' => Alike (tokens f.text) (tokens f'.text))
      (bs.foldlM (fun f b => f.fill b) f) (cs.foldlM (fun f b => f.fill b) f') := by
  induction h generalizing f f' with
  | nil => exact .ok ha
  | @cons b c bs cs hbc _ ih =>
    rw [List.foldlM_cons, List.foldlM_cons]
    have hstep := alike_fill hbc.content hbc.shape ha
    have hfill : Agree (fun f f' => Alike (tokens f.text) (tokens f'.text)) (f.fill b)
        (f'.fill c) := by
      unfold Filled.fill Binding.fill
      rw [← hbc.selector]
      exact hstep.bind fun _ _ hnext => .ok hnext
    exact hfill.bind fun _ _ hnext => ih hnext

/--
Bound texts do not change the tags of a page. After each binding either both runs have failed or
both have come to documents with the same tags.
-/
theorem agree_tags_fillAll {bs cs : Bindings} (h : List.Forall₂ Binding.Twin bs cs)
    (template : Text) (n : Nat) :
    Agree (fun f g => tags f.text = tags g.text) (fillAll (bs.take n) template)
      (fillAll (cs.take n) template) := by
  have hstart : Alike (tokens (Filled.mk template false).text)
      (tokens (Filled.mk template false).text) := .refl _
  have hrun := alike_foldlM (List.forall₂_take n h) hstart
  apply hrun.imp
  intro f g ha
  rw [tags_eq_filter, tags_eq_filter]
  apply ha.filter_eq
  intro v t ht
  simpa using not_isTag_of_mem_encoded ht

/-- A whole tag as a text does no more to the page than an empty text. -/
theorem agree_tags_fillAll_of_tag :
    Agree (fun f g => tags f.text = tags g.text)
      (fillAll [⟨['p'], .text ['<', 'b', '>']⟩] ['<', 'p', '>', '<', '/', 'p', '>'])
      (fillAll [⟨['p'], .text []⟩] ['<', 'p', '>', '<', '/', 'p', '>']) := by
  have htwin : Binding.Twin ⟨['p'], .text ['<', 'b', '>']⟩ ⟨['p'], .text []⟩ :=
    ⟨rfl, ⟨by decide, by decide⟩, .text _ _⟩
  exact agree_tags_fillAll (.cons htwin .nil) _ 1

end MarkupTemplate
