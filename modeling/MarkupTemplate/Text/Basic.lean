/-! Texts as lists of characters: their length in bytes, and cutting them around a mark. -/
namespace MarkupTemplate

abbrev Text := List Char

namespace Text

/-- The length in UTF-8. -/
def byteSize : Text → Nat
  | [] => 0
  | c :: t => c.utf8Size + byteSize t

@[simp] theorem byteSize_nil : byteSize [] = 0 := rfl

@[simp] theorem byteSize_cons (c : Char) (t : Text) :
    byteSize (c :: t) = c.utf8Size + byteSize t := rfl

@[simp] theorem byteSize_append (s t : Text) : byteSize (s ++ t) = byteSize s + byteSize t := by
  induction s with
  | nil => simp
  | cons c s ih => simp [ih, Nat.add_assoc]

theorem byteSize_eq_zero {t : Text} : byteSize t = 0 ↔ t = [] := by
  cases t with
  | nil => simp
  | cons c t =>
    have := c.utf8Size_pos
    simp
    omega

/-- What stands before and after the first occurrence of `mark`. -/
def cutFirst? (mark : Text) : Text → Option (Text × Text)
  | [] => if mark = [] then some ([], []) else none
  | c :: t =>
    if mark.isPrefixOf (c :: t) then some ([], (c :: t).drop mark.length)
    else (cutFirst? mark t).map fun (before, after) => (c :: before, after)

/-- `mark` occurs in the text. -/
def hasMark (mark t : Text) : Bool := (cutFirst? mark t).isSome

/-- What stands before and after the last occurrence of `mark`. -/
def cutLast? (mark : Text) : Text → Option (Text × Text)
  | [] => if mark = [] then some ([], []) else none
  | c :: t =>
    match cutLast? mark t with
    | some (before, after) => some (c :: before, after)
    | none => if mark.isPrefixOf (c :: t) then some ([], (c :: t).drop mark.length) else none

private theorem append_drop_of_isPrefixOf {mark t : Text} (h : mark.isPrefixOf t = true) :
    mark ++ t.drop mark.length = t := by
  obtain ⟨rest, rfl⟩ := List.isPrefixOf_iff_prefix.mp h
  simp

theorem eq_of_cutFirst? {mark t before after : Text}
    (h : cutFirst? mark t = some (before, after)) : t = before ++ mark ++ after := by
  induction t generalizing before with
  | nil => simp_all [cutFirst?]
  | cons c t ih =>
    simp only [cutFirst?] at h
    split at h
    · next hp =>
      cases h
      simpa using (append_drop_of_isPrefixOf hp).symm
    · obtain ⟨⟨b, a⟩, hc, he⟩ := Option.map_eq_some_iff.mp h
      cases he
      simp [ih hc]

theorem eq_of_cutLast? {mark t before after : Text}
    (h : cutLast? mark t = some (before, after)) : t = before ++ mark ++ after := by
  induction t generalizing before with
  | nil => simp_all [cutLast?]
  | cons c t ih =>
    simp only [cutLast?] at h
    split at h
    · next b a hc =>
      cases h
      simp [ih hc]
    · split at h
      · next hp =>
        cases h
        simpa using (append_drop_of_isPrefixOf hp).symm
      · cases h

theorem hasMark_iff {mark t : Text} : hasMark mark t = true ↔ mark <:+: t := by
  unfold hasMark
  constructor
  · intro h
    obtain ⟨⟨before, after⟩, hc⟩ := Option.isSome_iff_exists.mp h
    exact ⟨before, after, (eq_of_cutFirst? hc).symm⟩
  · rintro ⟨before, after, rfl⟩
    induction before with
    | nil =>
      cases mark with
      | nil => cases after <;> simp [cutFirst?]
      | cons c mark => simp [cutFirst?, List.isPrefixOf_iff_prefix]
    | cons c before ih =>
      simp only [List.cons_append, cutFirst?]
      split
      · rfl
      · simpa using ih

end Text

end MarkupTemplate
