import MarkupTemplate.Proofs.Content
import MarkupTemplate.Proofs.Tags

/-!
Tokens that differ in the texts of copies only. Such a text is between an opening and a closing tag,
where no cut can end, so that alike documents have alike segments.
-/
namespace MarkupTemplate

open Token

/-- Equal token by token, but for the texts of copies. -/
inductive Alike : List Token → List Token → Prop
  | nil : Alike [] []
  | token (t : Token) {ts us : List Token} (h : Alike ts us) : Alike (t :: ts) (t :: us)
  | slot {o c : Token} (ho : IsTag o ∧ o.kind = .opening) (hc : IsTag c ∧ c.kind = .closing)
      (v w : Text) {ts us : List Token} (h : Alike ts us) :
      Alike (copy o c v ++ ts) (copy o c w ++ us)

theorem kind_of_mem_encoded {v : Text} {t : Token} (h : t ∈ encoded v) : t.kind = .text := by
  obtain ⟨rfl, -⟩ := mem_ofText h
  exact kind_encode v

theorem not_isTag_of_mem_encoded {v : Text} {t : Token} (h : t ∈ encoded v) : ¬ IsTag t := by
  obtain ⟨rfl, -⟩ := mem_ofText h
  exact (closed_encode v).not_isTag

/--
A place where tokens may be split: behind what can be the end of an element, or before what can be
the start of one.
-/
def Seam (ts us : List Token) : Prop :=
  (∀ t ∈ ts.getLast?, t.kind = .closing ∨ t.kind = .selfClosing) ∨
    ∀ t ∈ us.head?, t.kind = .opening ∨ t.kind = .selfClosing

theorem Seam.of_append {front ts us : List Token} (h : Seam (front ++ ts) us) : Seam ts us := by
  rcases h with h | h
  · left
    intro t ht
    apply h t
    rw [Option.mem_def] at ht
    simp [List.getLast?_append, ht]
  · right
    exact h

/-- A copy has no seam. -/
theorem not_seam_of_copy {o c : Token} (ho : o.kind = .opening) (hc : c.kind = .closing) {v : Text}
    {ts us rest : List Token} (he : copy o c v = ts ++ us) (hts : ts ≠ []) (hus : us ≠ []) :
    ¬ Seam ts (us ++ rest) := by
  obtain ⟨o', ts, rfl⟩ := List.exists_cons_of_ne_nil hts
  obtain ⟨us, c', rfl⟩ := List.eq_nil_or_concat' us |>.resolve_left hus
  rw [copy, List.cons_append, ← List.append_assoc] at he
  obtain ⟨rfl, hrest⟩ := List.cons.inj he
  obtain ⟨henc, hlast⟩ := List.append_inj' hrest rfl
  obtain rfl : c = c' := (List.cons.inj hlast).1
  intro h
  rcases h with h | h
  · obtain ⟨t, ht⟩ := Option.isSome_iff_exists.mp (List.getLast?_isSome.mpr hts)
    have hmem := List.mem_of_getLast? ht
    have hkind := h t ht
    rcases List.mem_cons.mp hmem with rfl | hmem
    · simp [ho] at hkind
    · have := kind_of_mem_encoded (henc ▸ List.mem_append_left us hmem)
      simp [this] at hkind
  · cases us with
    | nil =>
      have := h c rfl
      simp [hc] at this
    | cons t us =>
      have hkind := h t rfl
      have := kind_of_mem_encoded (v := v) (t := t) (by simp [henc])
      simp [this] at hkind

namespace Alike

theorem refl (ts : List Token) : Alike ts ts := by
  induction ts with
  | nil => exact nil
  | cons t ts ih => exact token t ih

theorem symm {ts us : List Token} (h : Alike ts us) : Alike us ts := by
  induction h with
  | nil => exact nil
  | token t _ ih => exact token t ih
  | slot ho hc v w _ ih => exact slot ho hc w v ih

theorem append {ts us ts' us' : List Token} (h : Alike ts us) (h' : Alike ts' us') :
    Alike (ts ++ ts') (us ++ us') := by
  induction h with
  | nil => exact h'
  | token t _ ih => exact token t ih
  | slot ho hc v w _ ih =>
    rw [List.append_assoc, List.append_assoc]
    exact slot ho hc v w ih

theorem flatten {tss uss : List (List Token)} (h : List.Forall₂ Alike tss uss) :
    Alike tss.flatten uss.flatten := by
  induction h with
  | nil => exact nil
  | cons h _ ih => exact h.append ih

theorem copies {o c : Token} (ho : IsTag o ∧ o.kind = .opening) (hc : IsTag c ∧ c.kind = .closing)
    {vs ws : List Text} (h : vs.length = ws.length) :
    Alike (vs.flatMap (copy o c)) (ws.flatMap (copy o c)) := by
  induction vs generalizing ws with
  | nil =>
    obtain rfl := List.length_eq_zero_iff.mp h.symm
    exact nil
  | cons v vs ih =>
    obtain ⟨w, ws, rfl⟩ := List.exists_cons_of_length_eq_add_one h.symm
    exact slot ho hc v w (ih (by simpa using h))

theorem exists_cons {t : Token} {ts us : List Token} (h : Alike (t :: ts) us) :
    ∃ us', us = t :: us' := by
  generalize he : t :: ts = ts' at h
  cases h with
  | nil => cases he
  | @token _ _ us' _ =>
    obtain ⟨rfl, -⟩ := List.cons.inj he
    exact ⟨us', rfl⟩
  | slot =>
    obtain ⟨rfl, -⟩ := List.cons.inj he
    exact ⟨_, rfl⟩

theorem eq_nil {us : List Token} (h : Alike [] us) : us = [] := by
  generalize he : ([] : List Token) = ts at h
  cases h with
  | nil => rfl
  | token => cases he
  | slot => cases he

theorem eq_singleton {t : Token} {us : List Token} (h : Alike [t] us) : us = [t] := by
  generalize he : [t] = ts at h
  cases h with
  | nil => cases he
  | @token t ts us h =>
    obtain ⟨rfl, rfl⟩ := List.cons.inj he
    rw [h.eq_nil]
  | slot => simp [copy] at he

/-- What is not text is the same. -/
theorem filter_eq {ts us : List Token} (h : Alike ts us) {p : Token → Bool}
    (hp : ∀ v, ∀ t ∈ encoded v, p t = false) : ts.filter p = us.filter p := by
  have hnil : ∀ v, (encoded v).filter p = [] := by
    intro v
    rw [List.filter_eq_nil_iff]
    intro t ht
    simp [hp v t ht]
  induction h with
  | nil => rfl
  | token t _ ih => rw [List.filter_cons, List.filter_cons, ih]
  | slot _ _ v w _ ih => simp [copy, List.filter_cons, hnil, ih]

theorem getLast?_eq {ts us : List Token} (h : Alike ts us) : ts.getLast? = us.getLast? := by
  induction h with
  | nil => rfl
  | token t _ ih => rw [List.getLast?_cons, List.getLast?_cons, ih]
  | slot _ _ v w _ ih => simp [copy, List.getLast?_append, List.getLast?_cons, ih]

theorem keptTags?_eq {ts us : List Token} (h : Alike ts us) :
    Element.keptTags? ts = Element.keptTags? us := by
  cases h with
  | nil => rfl
  | token t h => simp [Element.keptTags?, h.getLast?_eq]
  | slot _ _ v w h =>
    simp [Element.keptTags?, copy, List.getLast?_append, List.getLast?_cons, h.getLast?_eq]

theorem split {ts rest us : List Token} (h : Alike (ts ++ rest) us) (hseam : Seam ts rest) :
    ∃ us₁ us₂, us = us₁ ++ us₂ ∧ Alike ts us₁ ∧ Alike rest us₂ := by
  generalize hall : ts ++ rest = all at h
  induction h generalizing ts with
  | nil =>
    obtain ⟨rfl, rfl⟩ := List.append_eq_nil_iff.mp hall
    exact ⟨[], [], rfl, nil, nil⟩
  | @token t all us h ih =>
    cases ts with
    | nil =>
      rw [List.nil_append] at hall
      exact ⟨[], t :: us, rfl, nil, hall ▸ token t h⟩
    | cons t' ts =>
      obtain ⟨rfl, hrest⟩ := List.cons.inj hall
      have hseam' : Seam ([t'] ++ ts) rest := hseam
      obtain ⟨us₁, us₂, rfl, h₁, h₂⟩ := ih hseam'.of_append hrest
      exact ⟨t' :: us₁, us₂, rfl, token t' h₁, h₂⟩
  | @slot o c ho hc v w all us h ih =>
    -- A seam is not within the copy, so that the split is before the copy or behind it.
    by_cases hts : ts = []
    · subst hts
      rw [List.nil_append] at hall
      exact ⟨[], copy o c w ++ us, rfl, nil, hall ▸ slot ho hc v w h⟩
    rcases List.append_eq_append_iff.mp hall with ⟨back, hcopy, rfl⟩ | ⟨front, rfl, hall'⟩
    · by_cases hback : back = []
      · subst hback
        rw [List.append_nil] at hcopy
        subst hcopy
        have hslot := slot ho hc v w nil
        rw [List.append_nil, List.append_nil] at hslot
        exact ⟨copy o c w, us, rfl, hslot, h⟩
      · exact absurd hseam (not_seam_of_copy ho.2 hc.2 hcopy hts hback)
    · obtain ⟨us₁, us₂, rfl, h₁, h₂⟩ := ih hseam.of_append hall'.symm
      exact ⟨copy o c w ++ us₁, us₂, by rw [List.append_assoc], slot ho hc v w h₁, h₂⟩

end Alike

namespace Token

theorem closes_of_mem_encoded (n : Text) {v : Text} {t : Token} (h : t ∈ encoded v) :
    t.closes n = false := by
  simp [closes, kind_of_mem_encoded h]

theorem opens_of_mem_encoded (n : Text) {v : Text} {t : Token} (h : t ∈ encoded v) :
    t.opens n = false := by
  simp [opens, kind_of_mem_encoded h]

theorem Ends.alike {n : Text} {depth : Nat} {t : Token} {p q : List Token} (h : Ends n depth p)
    (ha : Alike (t :: p) (t :: q)) : Ends n depth q := by
  have hcount : ∀ f : Token → Bool, (∀ v, ∀ u ∈ encoded v, f u = false) →
      p.countP f = q.countP f := by
    intro f hf
    have hfilter := congrArg List.length (ha.filter_eq hf)
    rw [← List.countP_eq_length_filter, ← List.countP_eq_length_filter, List.countP_cons,
      List.countP_cons] at hfilter
    omega
  have hcloses := hcount (closes n) fun v u hu => closes_of_mem_encoded n hu
  have hopens := hcount (opens n) fun v u hu => opens_of_mem_encoded n hu
  have hn := h.count
  have hp : p ≠ [] := by
    intro hnil
    rw [hnil, List.countP_nil] at hn
    omega
  have hq : q ≠ [] := by
    intro hnil
    rw [hnil, List.countP_nil] at hcloses
    omega
  have hlast : p.getLast? = q.getLast? := by
    obtain ⟨u, p, rfl⟩ := List.exists_cons_of_ne_nil hp
    obtain ⟨w, q, rfl⟩ := List.exists_cons_of_ne_nil hq
    simpa [List.getLast?_cons_cons] using ha.getLast?_eq
  exact ⟨hlast ▸ h.last, by omega⟩

theorem Ends.seam {n : Text} {depth : Nat} {ts : List Token} (h : Ends n depth ts) (t : Token)
    (us : List Token) : Seam (t :: ts) us := by
  obtain ⟨c, hc, hcloses⟩ := h.last
  left
  intro c' hc'
  rw [List.getLast?_cons, Option.mem_def.mp hc, Option.getD_some] at hc'
  obtain rfl := Option.some.inj hc'
  left
  exact kind_of_closes hcloses

/-- Where one list can end, the other can. -/
theorem Ends.exists_prefix {n : Text} {depth : Nat} {t : Token} {ts us p : List Token}
    (ha : Alike (t :: ts) (t :: us)) (hp : p <+: us) (h : Ends n depth p) :
    ∃ q, q <+: ts ∧ Ends n depth q ∧ (q = ts → p = us) := by
  obtain ⟨rest, rfl⟩ := hp
  -- The closing tag at the end of `p` makes a seam, at which the other list falls apart too.
  have hsymm : Alike ((t :: p) ++ rest) (t :: ts) := ha.symm
  obtain ⟨ps, rest', hsplit, hps, hrest⟩ := hsymm.split (h.seam t rest)
  obtain ⟨q, rfl⟩ := hps.exists_cons
  obtain rfl : ts = q ++ rest' := (List.cons.inj hsplit).2
  refine ⟨q, List.prefix_append q rest', h.alike hps, ?_⟩
  intro hq
  obtain rfl := List.append_right_eq_self.mp hq.symm
  rw [hrest.symm.eq_nil, List.append_nil]

theorem EndsFirst.alike {n : Text} {depth : Nat} {t : Token} {ts us : List Token}
    (h : EndsFirst n depth ts) (ha : Alike (t :: ts) (t :: us)) : EndsFirst n depth us where
  toEnds := h.toEnds.alike ha
  first := by
    intro p hp he
    obtain ⟨q, hq, hends, himp⟩ := Ends.exists_prefix ha hp he
    exact himp (h.first q hq hends)

end Token

namespace Selector

variable {s : Selector}

theorem Plain.alike {ts us : List Token} (h : s.Plain ts) (ha : Alike ts us) : s.Plain us := by
  have hp : ∀ v, ∀ t ∈ encoded v, s.begins t = false := by
    intro v t ht
    simp [begins, kind_of_mem_encoded ht]
  have hnil : ts.filter s.begins = [] := by
    rw [List.filter_eq_nil_iff]
    intro t ht
    simp [h t ht]
  rw [ha.filter_eq hp, List.filter_eq_nil_iff] at hnil
  intro t ht
  simpa using hnil t ht

theorem IsElement.alike {e e' : List Token} (h : s.IsElement e) (ha : Alike e e') :
    s.IsElement e' := by
  cases h with
  | selfClosing hk hacc =>
    rw [ha.eq_singleton]
    exact .selfClosing hk hacc
  | pair hk hacc hn hends =>
    obtain ⟨us, rfl⟩ := ha.exists_cons
    exact .pair hk hacc hn (hends.alike ha)

theorem IsDangling.alike {us us' : List Token} (h : s.IsDangling us) (ha : Alike us us') :
    s.IsDangling us' := by
  cases h with
  | intro hk hacc hnever =>
    obtain ⟨vs, rfl⟩ := ha.exists_cons
    apply IsDangling.intro hk hacc
    intro n hn p hp he
    obtain ⟨q, hq, hends, -⟩ := Ends.exists_prefix ha hp he
    exact hnever n hn q hq hends

theorem IsElement.seam_left {e : List Token} (h : s.IsElement e) (ts us : List Token) :
    Seam ts (e ++ us) := by
  right
  intro t ht
  cases h with
  | selfClosing hk =>
    obtain rfl := Option.some.inj ht
    exact .inr hk
  | pair hk =>
    obtain rfl := Option.some.inj ht
    exact .inl hk

theorem IsElement.seam_right {e : List Token} (h : s.IsElement e) (us : List Token) :
    Seam e us := by
  cases h with
  | selfClosing hk =>
    left
    intro t ht
    obtain rfl := Option.some.inj ht
    exact .inr hk
  | @pair o n ts _ _ _ hends => exact hends.seam o us

theorem IsDangling.seam {us : List Token} (h : s.IsDangling us) (ts : List Token) : Seam ts us := by
  right
  intro t ht
  cases h with
  | intro hk =>
    obtain rfl := Option.some.inj ht
    exact .inl hk

end Selector

/-- Both are elements or neither is, with tokens that are alike. -/
structure Segment.Alike (g g' : Segment) : Prop where
  matched : g.matched = g'.matched
  tokens : MarkupTemplate.Alike g.tokens g'.tokens

/-- A segmentation of tokens is one of all tokens that are alike, segment by segment. -/
theorem Selector.Segmented.exists_alike {s : Selector} {gs : List Segment} (h : s.Segmented gs)
    {us : List Token} (ha : Alike (gs.flatMap (·.tokens)) us) :
    ∃ gs', s.Segmented gs' ∧ gs'.flatMap (·.tokens) = us ∧ List.Forall₂ Segment.Alike gs gs' := by
  induction h generalizing us with
  | @last ts hplain =>
    have hts : Alike ts us := by simpa using ha
    exact ⟨[⟨false, us⟩], .last (hplain.alike hts), by simp, .cons ⟨rfl, hts⟩ .nil⟩
  | @dangling ts ds hplain hd =>
    have hall : Alike (ts ++ ds) us := by simpa using ha
    obtain ⟨ts', ds', rfl, hts, hds⟩ := hall.split (hd.seam ts)
    refine ⟨[⟨false, ts'⟩, ⟨false, ds'⟩], .dangling (hplain.alike hts) (hd.alike hds), by simp, ?_⟩
    exact .cons ⟨rfl, hts⟩ (.cons ⟨rfl, hds⟩ .nil)
  | @element ts e gs hplain he _ ih =>
    have hall : Alike (ts ++ (e ++ gs.flatMap (·.tokens))) us := by simpa using ha
    obtain ⟨ts', rest, rfl, hts, hrest⟩ := hall.split (he.seam_left ts _)
    obtain ⟨e', us', rfl, he', hus⟩ := hrest.split (he.seam_right _)
    obtain ⟨gs', hseg, hflat, hgs⟩ := ih hus
    refine ⟨⟨false, ts'⟩ :: ⟨true, e'⟩ :: gs', .element (hplain.alike hts) (he.alike he') hseg,
      by simp [hflat], ?_⟩
    exact .cons ⟨rfl, hts⟩ (.cons ⟨rfl, he'⟩ hgs)

/-- Documents that are alike have segments that are. -/
theorem forall₂_alike_segments {s : Selector} {d d' : Text} (h : Alike (tokens d) (tokens d')) :
    List.Forall₂ Segment.Alike (segments s d) (segments s d') := by
  rw [← tokens_segments s d] at h
  obtain ⟨gs, hgs, hflat, halike⟩ := (segmented_segments s d).exists_alike h
  rwa [← eq_segments_of_segmented hgs hflat]

end MarkupTemplate
