import MarkupTemplate.Proofs.Tags

/-!
How a text falls apart into an opening tag, content and a closing tag: the first is the tag in
front, the last the shortest closing tag at the end.
-/
namespace MarkupTemplate

open Token

namespace Element

theorem isClosing_iff {t : Text} :
    isClosing t = true ↔ ∃ body, body ≠ [] ∧ '>' ∉ body ∧ t = '<' :: '/' :: body ++ ['>'] := by
  constructor
  · intro h
    unfold isClosing at h
    split at h
    · next t =>
      simp only [Bool.and_eq_true, decide_eq_true_eq] at h
      obtain ⟨hne, hdrop⟩ := h
      have ht := List.takeWhile_append_dropWhile (p := (· ≠ '>')) (l := t)
      rw [hdrop] at ht
      refine ⟨t.takeWhile (· ≠ '>'), hne, Text.not_mem_takeWhile_ne '>' t, ?_⟩
      rw [List.cons_append, List.cons_append, ht]
    · cases h
  · intro h
    obtain ⟨body, hne, hgt, rfl⟩ := h
    have htake := Text.takeWhile_ne hgt []
    have hdrop := Text.dropWhile_ne hgt []
    rw [List.cons_append, List.cons_append]
    simp only [isClosing, htake, hdrop]
    simpa using hne

theorem isTag_of_isClosing {t : Text} (h : isClosing t = true) : IsTag t := by
  obtain ⟨body, -, hgt, rfl⟩ := isClosing_iff.mp h
  exact ⟨'/' :: body, by simp, by simpa using hgt, rfl⟩

theorem kind_of_isClosing {t : Text} (h : isClosing t = true) : Token.kind t = .closing := by
  obtain ⟨body, -, -, rfl⟩ := isClosing_iff.mp h
  exact kind_eq_closing.mpr ⟨_, rfl⟩

/-- With a name a closing tag has more than its `/`. -/
theorem isClosing_of_isTag {t : Token} (ht : IsTag t) (hk : t.kind = .closing)
    (hn : t.name? ≠ none) : isClosing t = true := by
  obtain ⟨body, -, hgt, he⟩ := ht
  obtain ⟨r, hr⟩ := kind_eq_closing.mp hk
  have hbody : body ++ ['>'] = '/' :: r := by
    rw [he] at hr
    exact (List.cons.inj hr).2
  cases body with
  | nil => cases hbody
  | cons c body =>
    obtain ⟨rfl, -⟩ := List.cons.inj hbody
    rw [isClosing_iff]
    have hne : body ≠ [] := by
      intro hnil
      subst hnil
      exact hn (he ▸ rfl)
    have hgt' : '>' ∉ body := by simpa using hgt
    exact ⟨body, hne, hgt', he⟩

theorem isClosing_of_splitClosing? {t content closing : Text}
    (h : splitClosing? t = some (content, closing)) : isClosing closing = true := by
  induction t generalizing content with
  | nil => simp [splitClosing?] at h
  | cons c t ih =>
    simp only [splitClosing?] at h
    split at h
    · next hc =>
      cases h
      exact ih hc
    · split at h
      · next hc =>
        cases h
        exact hc
      · cases h

theorem splitClosing?_append {t content closing : Text}
    (h : splitClosing? t = some (content, closing)) (front : Text) :
    splitClosing? (front ++ t) = some (front ++ content, closing) := by
  induction front with
  | nil => exact h
  | cons c front ih => simp [splitClosing?, ih]

theorem exists_splitClosing? {t : Text} (h : isClosing t = true) :
    ∃ content closing, splitClosing? t = some (content, closing) := by
  obtain ⟨body, -, -, rfl⟩ := isClosing_iff.mp h
  rw [List.cons_append, List.cons_append] at h ⊢
  simp only [splitClosing?, h]
  split <;> simp_all

theorem splitClosing?_eq_none {t : Text} (h : ∀ front, t ≠ front ++ ['>']) :
    splitClosing? t = none := by
  cases hs : splitClosing? t with
  | none => rfl
  | some p =>
    obtain ⟨content, closing⟩ := p
    obtain ⟨body, -, -, hb⟩ := isClosing_iff.mp (isClosing_of_splitClosing? hs)
    have ht := eq_of_splitClosing? hs
    rw [hb, ← List.append_assoc] at ht
    exact absurd ht (h _)

/-- A complete tag in front, and a complete closing tag at the end. -/
structure IsShaped (e : Element) : Prop where
  opening : IsTag e.opening
  closing : ∃ body, body ≠ [] ∧ '>' ∉ body ∧ e.closing = '<' :: '/' :: body ++ ['>']

theorem isShaped_of_ofText? {t : Text} {e : Element} (h : ofText? t = some e) : e.IsShaped := by
  obtain ⟨rest, ho, hc⟩ := ofText?_eq_some_iff_split.mp h
  exact ⟨isTag_of_splitOpening? ho, isClosing_iff.mp (isClosing_of_splitClosing? hc)⟩

/-- Content and closing tag are sought from the right, the opening tag from the left. -/
theorem ofText?_tags {o c content closing : Text} (ho : IsTag o)
    (hc : splitClosing? c = some (content, closing)) (mid : Text) :
    ofText? (o ++ (mid ++ c)) = some ⟨o, mid ++ content, closing⟩ := by
  simp [ofText?, splitOpening?_tag_append ho, splitClosing?_append hc]

theorem ofText?_isTag {t : Token} (ht : IsTag t) : ofText? t = none := by
  have hsplit := splitOpening?_tag_append ht []
  rw [List.append_nil] at hsplit
  simp [ofText?, hsplit, splitClosing?]

theorem ofText?_closed {r : Text} (h : Closed r) : ofText? r = none := by
  have hsplit : splitOpening? r = none := by
    cases h with
    | nil => rfl
    | char hc => exact splitOpening?_of_ne hc _
    | pair => rfl
  simp [ofText?, hsplit]

theorem ofText?_eq_none {t : Text} (h : ∀ front, t ≠ front ++ ['>']) : ofText? t = none := by
  unfold ofText?
  cases ho : splitOpening? t with
  | none => rfl
  | some p =>
    obtain ⟨o, rest⟩ := p
    have ht := eq_of_splitOpening? ho
    have hrest : ∀ front, rest ≠ front ++ ['>'] := by
      intro front hfront
      rw [hfront, ← List.append_assoc] at ht
      exact h _ ht
    simp [splitClosing?_eq_none hrest]

end Element

end MarkupTemplate
