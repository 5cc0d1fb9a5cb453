import MarkupTemplate.Text.Basic

/-! A segment as an element: its opening tag, its content, and its closing tag. -/
namespace MarkupTemplate

structure Element where
  opening : Text
  content : Text
  closing : Text
  deriving DecidableEq

namespace Element

def text (e : Element) : Text := e.opening ++ e.content ++ e.closing

/-- A complete tag in front, and what follows it. -/
def splitOpening? : Text → Option (Text × Text)
  | '<' :: t =>
    match t.takeWhile (· ≠ '>'), t.dropWhile (· ≠ '>') with
    | c :: body, _ :: rest => some ('<' :: c :: body ++ ['>'], rest)
    | _, _ => none
  | _ => none

/-- The whole text is one complete closing tag. -/
def isClosing : Text → Bool
  | '<' :: '/' :: t => t.takeWhile (· ≠ '>') ≠ [] && t.dropWhile (· ≠ '>') = ['>']
  | _ => false

/-- The closing tag at the end, as short as it can be, and what stands before it. -/
def splitClosing? : Text → Option (Text × Text)
  | [] => none
  | c :: t =>
    match splitClosing? t with
    | some (content, closing) => some (c :: content, closing)
    | none => if isClosing (c :: t) then some ([], c :: t) else none

def ofText? (t : Text) : Option Element := do
  let (opening, rest) ← splitOpening? t
  let (content, closing) ← splitClosing? rest
  return ⟨opening, content, closing⟩

theorem eq_of_splitOpening? {t opening rest : Text}
    (h : splitOpening? t = some (opening, rest)) : t = opening ++ rest := by
  unfold splitOpening? at h
  split at h
  · next t =>
    split at h
    · next c body d rest' hb hr =>
      cases h
      have hd : d = '>' := by
        have := List.head?_dropWhile_not (· ≠ '>') t
        rw [hr] at this
        simpa using this
      have := List.takeWhile_append_dropWhile (p := (· ≠ '>')) (l := t)
      rw [hb, hr, hd] at this
      simp [← this]
    · cases h
  · cases h

theorem eq_of_splitClosing? {t content closing : Text}
    (h : splitClosing? t = some (content, closing)) : t = content ++ closing := by
  induction t generalizing content with
  | nil => simp [splitClosing?] at h
  | cons c t ih =>
    simp only [splitClosing?] at h
    split at h
    · next hc => cases h; simp [ih hc]
    · split at h <;> cases h
      rfl

theorem ofText?_eq_some_iff_split {t : Text} {e : Element} : ofText? t = some e ↔ ∃ rest,
    splitOpening? t = some (e.opening, rest) ∧
      splitClosing? rest = some (e.content, e.closing) := by
  unfold ofText?
  constructor
  · intro h
    cases ho : splitOpening? t with
    | none => simp [ho] at h
    | some p =>
      cases hc : splitClosing? p.2 with
      | none => simp [ho, hc] at h
      | some q =>
        have he : ⟨p.1, q.1, q.2⟩ = e := by simpa [ho, hc] using h
        subst he
        exact ⟨p.2, rfl, hc⟩
  · rintro ⟨rest, ho, hc⟩
    simp [ho, hc]

theorem text_of_ofText? {t : Text} {e : Element} (h : ofText? t = some e) : e.text = t := by
  obtain ⟨rest, ho, hc⟩ := ofText?_eq_some_iff_split.mp h
  rw [eq_of_splitOpening? ho, eq_of_splitClosing? hc, text, List.append_assoc]

end Element

end MarkupTemplate
