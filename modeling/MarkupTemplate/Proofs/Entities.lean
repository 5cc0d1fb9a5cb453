import MarkupTemplate.Entity

/-! Encoded text holds none of the characters that could end it, and nothing of it is lost. -/
namespace MarkupTemplate.Entity

/-- Reads the five entities and leaves all else as it is. -/
def decode : Text → Text
  | '&' :: 'a' :: 'm' :: 'p' :: ';' :: t => '&' :: decode t
  | '&' :: 'l' :: 't' :: ';' :: t => '<' :: decode t
  | '&' :: 'g' :: 't' :: ';' :: t => '>' :: decode t
  | '&' :: 'q' :: 'u' :: 'o' :: 't' :: ';' :: t => '"' :: decode t
  | '&' :: '#' :: 'x' :: '2' :: '7' :: ';' :: t => '\'' :: decode t
  | c :: t => c :: decode t
  | [] => []

theorem decode_cons {c : Char} (h : c ≠ '&') (t : Text) : decode (c :: t) = c :: decode t := by
  simp [decode, h]

theorem decode_ofChar_append (c : Char) (t : Text) : decode (ofChar c ++ t) = c :: decode t := by
  unfold ofChar
  split
  · rfl
  · rfl
  · rfl
  · rfl
  · rfl
  · next h _ _ _ _ => exact decode_cons h t

@[simp] theorem decode_encode (t : Text) : decode (encode t) = t := by
  induction t with
  | nil => rfl
  | cons c t ih => rw [encode_cons, decode_ofChar_append, ih]

/-- The characters that end a run or a quoted value. -/
def delimiters : List Char := ['<', '>', '"', '\'']

theorem not_mem_ofChar {c d : Char} (hd : d ∈ delimiters) : d ∉ ofChar c := by
  have hd' : d = '<' ∨ d = '>' ∨ d = '"' ∨ d = '\'' := by simpa [delimiters] using hd
  unfold ofChar
  split <;> rcases hd' with rfl | rfl | rfl | rfl <;> simp_all [eq_comm]

theorem not_mem_encode {d : Char} (hd : d ∈ delimiters) (t : Text) : d ∉ encode t := by
  simpa [encode] using fun c _ => not_mem_ofChar hd

end MarkupTemplate.Entity
