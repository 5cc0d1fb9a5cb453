import Mathlib.Data.List.TakeWhile
import MarkupTemplate.Element
import MarkupTemplate.Proofs.Tokens

/-!
The tags of a text, found by trying at each character from the left. They are those of its tokens
that are tags.
-/
namespace MarkupTemplate

open Token

namespace Text

variable {c : Char} {front : Text}

theorem not_mem_takeWhile_ne (c : Char) (t : Text) : c ∉ t.takeWhile (· ≠ c) := fun hmem => by
  simpa using List.mem_takeWhile_imp hmem

theorem takeWhile_ne_append (h : c ∉ front) (rest : Text) :
    (front ++ rest).takeWhile (· ≠ c) = front ++ rest.takeWhile (· ≠ c) := by
  apply List.takeWhile_append_of_pos
  intro d hd
  simpa using fun he : d = c => h (he ▸ hd)

theorem dropWhile_ne_append (h : c ∉ front) (rest : Text) :
    (front ++ rest).dropWhile (· ≠ c) = rest.dropWhile (· ≠ c) := by
  apply List.dropWhile_append_of_pos
  intro d hd
  simpa using fun he : d = c => h (he ▸ hd)

theorem takeWhile_ne (h : c ∉ front) (rest : Text) :
    (front ++ c :: rest).takeWhile (· ≠ c) = front := by
  rw [takeWhile_ne_append h, List.takeWhile_cons_of_neg (by simp), List.append_nil]

theorem dropWhile_ne (h : c ∉ front) (rest : Text) :
    (front ++ c :: rest).dropWhile (· ≠ c) = c :: rest := by
  rw [dropWhile_ne_append h, List.dropWhile_cons_of_neg (by simp)]

end Text

namespace Element

theorem splitOpening?_tag_append {t : Token} (ht : IsTag t) (rest : Text) :
    splitOpening? (t ++ rest) = some (t, rest) := by
  obtain ⟨body, hne, hgt, rfl⟩ := ht
  obtain ⟨c, body, rfl⟩ := List.exists_cons_of_ne_nil hne
  have htake := Text.takeWhile_ne hgt rest
  have hdrop := Text.dropWhile_ne hgt rest
  rw [List.cons_append, List.cons_append, List.append_assoc, List.singleton_append]
  simp only [splitOpening?, htake, hdrop]
  rfl

theorem isTag_of_splitOpening? {t rest : Text} {tag : Token}
    (h : splitOpening? t = some (tag, rest)) : IsTag tag := by
  unfold splitOpening? at h
  split at h
  · next t =>
    split at h
    · next c body d rest' hb hr =>
      cases h
      have hgt : '>' ∉ c :: body := by
        rw [← hb]
        exact Text.not_mem_takeWhile_ne '>' t
      exact ⟨c :: body, List.cons_ne_nil c body, hgt, rfl⟩
    · cases h
  · cases h

/-- No tag begins in a closed run. -/
theorem splitOpening?_pair (rest : Text) : splitOpening? ('<' :: '>' :: rest) = none := rfl

theorem splitOpening?_of_ne {c : Char} (hc : c ≠ '<') (rest : Text) :
    splitOpening? (c :: rest) = none := by
  unfold splitOpening?
  split
  · next h => exact absurd (List.cons.inj h).1 hc
  · rfl

theorem splitOpening?_of_not_mem {body : Text} (h : '>' ∉ body) :
    splitOpening? ('<' :: body) = none := by
  have hdrop : body.dropWhile (· ≠ '>') = [] := by
    rw [List.dropWhile_eq_nil_iff]
    intro d hd
    simpa using fun he : d = '>' => h (he ▸ hd)
  simp only [splitOpening?, hdrop]
  split <;> simp_all

end Element

theorem Token.isTag_iff {t : Token} : IsTag t ↔ Element.splitOpening? t = some (t, []) := by
  constructor
  · intro h
    simpa using Element.splitOpening?_tag_append h []
  · exact Element.isTag_of_splitOpening?

instance : DecidablePred IsTag := fun _ => decidable_of_iff _ isTag_iff.symm

/-- The tags of a text from left to right; the next one is sought behind the last. -/
def tags : Text → List Token
  | [] => []
  | c :: t =>
    match _h : Element.splitOpening? (c :: t) with
    | some (tag, rest) => tag :: tags rest
    | none => tags t
termination_by t => t.length
decreasing_by
  · have htag := List.length_pos_iff.mpr (Element.isTag_of_splitOpening? _h).ne_nil
    have hsum := congrArg List.length (Element.eq_of_splitOpening? _h)
    rw [List.length_append] at hsum
    omega
  · simp

theorem tags_tag_append {t : Token} (ht : IsTag t) (rest : Text) :
    tags (t ++ rest) = t :: tags rest := by
  have hsplit := Element.splitOpening?_tag_append ht rest
  obtain ⟨c, t, rfl⟩ := List.exists_cons_of_ne_nil ht.ne_nil
  rw [List.cons_append] at hsplit ⊢
  rw [tags]
  split
  · next h =>
    rw [hsplit] at h
    cases h
    rfl
  · next h => simp [hsplit] at h

theorem tags_cons_of_none {c : Char} {t : Text} (h : Element.splitOpening? (c :: t) = none) :
    tags (c :: t) = tags t := by
  rw [tags]
  split
  · next h' => simp [h] at h'
  · rfl

theorem tags_closed_append {r : Text} (h : Closed r) (rest : Text) :
    tags (r ++ rest) = tags rest := by
  induction h with
  | nil => rfl
  | char hc _ ih => rw [List.cons_append, tags_cons_of_none (Element.splitOpening?_of_ne hc _), ih]
  | pair _ ih =>
    have hgt : '>' ≠ '<' := by decide
    rw [List.cons_append, List.cons_append, tags_cons_of_none (Element.splitOpening?_pair _),
      tags_cons_of_none (Element.splitOpening?_of_ne hgt _), ih]

theorem tags_of_not_mem {t : Text} (h : '>' ∉ t) : tags t = [] := by
  induction t with
  | nil => rw [tags]
  | cons c t ih =>
    rw [List.mem_cons, not_or] at h
    by_cases hc : c = '<'
    · subst hc
      rw [tags_cons_of_none (Element.splitOpening?_of_not_mem h.2), ih h.2]
    · rw [tags_cons_of_none (Element.splitOpening?_of_ne hc t), ih h.2]

theorem tags_tail {r : Text} (h : IsTail r) : tags r = [] := by
  have hnil : tags [] = [] := tags_of_not_mem (by simp)
  rcases h with h | ⟨front, body, hf, hb, rfl⟩
  · have := tags_closed_append h []
    rwa [List.append_nil, hnil] at this
  · rw [tags_closed_append hf]
    exact tags_of_not_mem (by simpa using hb)

/-- Both ways to look for tags find the same ones. -/
theorem tags_eq_filter (d : Text) : tags d = (tokens d).filter IsTag := by
  suffices h : ∀ ts, Tokenized ts → tags ts.flatten = ts.filter IsTag by
    simpa using h (tokens d) (tokenized_tokens d)
  intro ts h
  induction h with
  | nil => rw [List.flatten_nil, tags, List.filter_nil]
  | tag ht _ ih =>
    rw [List.flatten_cons, tags_tag_append ht, ih, List.filter_cons_of_pos (by simpa)]
  | run _ hr ht _ ih =>
    have hr' := hr.not_isTag
    rw [List.flatten_cons, List.flatten_cons, tags_closed_append hr, tags_tag_append ht, ih,
      List.filter_cons_of_neg (by simpa), List.filter_cons_of_pos (by simpa)]
  | tail _ hr =>
    have hr' := hr.not_isTag
    simp [tags_tail hr, hr']

end MarkupTemplate
