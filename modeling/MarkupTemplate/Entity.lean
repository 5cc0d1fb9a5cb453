import MarkupTemplate.Text.Basic

/-! Character entities for the five characters that can end a text run or a quoted value. -/
namespace MarkupTemplate.Entity

/-- The written form of one character: an entity for `&`, `<`, `>` and the two quotes. -/
def ofChar : Char → Text
  | '&' => ['&', 'a', 'm', 'p', ';']
  | '<' => ['&', 'l', 't', ';']
  | '>' => ['&', 'g', 't', ';']
  | '"' => ['&', 'q', 'u', 'o', 't', ';']
  | '\'' => ['&', '#', 'x', '2', '7', ';']
  | c => [c]

def encode (t : Text) : Text := t.flatMap ofChar

theorem ofChar_ne_nil (c : Char) : ofChar c ≠ [] := by
  unfold ofChar
  split <;> simp

@[simp] theorem encode_nil : encode [] = [] := rfl

@[simp] theorem encode_cons (c : Char) (t : Text) : encode (c :: t) = ofChar c ++ encode t := rfl

@[simp] theorem encode_eq_nil {t : Text} : encode t = [] ↔ t = [] := by
  cases t <;> simp [ofChar_ne_nil]

/-- No character of the text has an entity. -/
def isPlain (t : Text) : Bool := t.all fun c => ofChar c = [c]

theorem encode_of_isPlain {t : Text} (h : isPlain t = true) : encode t = t := by
  induction t with
  | nil => rfl
  | cons c t ih =>
    simp only [isPlain, List.all_cons, Bool.and_eq_true, decide_eq_true_eq] at h
    rw [encode_cons, h.1, ih h.2]
    rfl

end MarkupTemplate.Entity
