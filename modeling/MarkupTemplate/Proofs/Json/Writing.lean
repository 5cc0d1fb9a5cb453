import MarkupTemplate.Proofs.Json.Documents

/-! What is written is a document of what it was written from, and so it is read back as that. -/
namespace MarkupTemplate.Json

theorem isHexDigit_digitChar {n : Nat} (h : n < 16) : IsHexDigit n (Nat.digitChar n) := by
  left
  interval_cases n <;> rfl

/-- A control character is a number below 32, in two digits behind two zeros. -/
theorem isUnit_control {n : Nat} (h : n < 0x20) :
    IsUnit n ['0', '0', Nat.digitChar (n / 16), Nat.digitChar (n % 16)] := by
  have hzero : IsHexDigit 0 '0' := .inl rfl
  have hhigh : IsHexDigit (n / 16) (Nat.digitChar (n / 16)) := isHexDigit_digitChar (by omega)
  have hlow : IsHexDigit (n % 16) (Nat.digitChar (n % 16)) := isHexDigit_digitChar (by omega)
  have hn : ((0 * 16 + 0) * 16 + n / 16) * 16 + n % 16 = n := by omega
  have hunit := IsUnit.intro hzero hzero hhigh hlow
  rwa [hn] at hunit

theorem spells_escapedChar (c : Char) : Spells c (escapedChar c) := by
  unfold escapedChar
  split
  case h_8 hquote hslash _ _ _ _ _ =>
    by_cases hc : c.toNat < 0x20
    · rw [if_pos hc]
      exact .unit (isUnit_control hc)
    · rw [if_neg hc]
      exact .raw (by omega) hquote hslash
  all_goals exact .short (by decide)

theorem isString_writeText (t : Text) : IsString t (writeText t) := by
  refine ⟨t.map escapedChar, ?_, rfl⟩
  rw [List.forall₂_map_right_iff]
  exact List.forall₂_same.mpr fun c _ => spells_escapedChar c

theorem separated_intercalate {α : Type} {P : α → Text → Prop} {write : α → Text}
    (h : ∀ a, P a (write a)) (as : List α) :
    Separated P as ([','].intercalate (as.map write)) := by
  cases as with
  | nil => exact .empty .nil
  | cons a as =>
    refine .elements (List.cons_ne_nil a as) ?_
    rw [List.forall₂_map_right_iff]
    exact List.forall₂_same.mpr fun a _ => ⟨[], write a, [], .nil, h a, .nil, by simp⟩

theorem isValue_writeValue (v : Value) : IsValue v (writeValue v) := by
  cases v with
  | absent => exact .absent
  | text t => exact .text (isString_writeText t)
  | list ts => exact .list (separated_intercalate isString_writeText ts)

theorem isMember_writeBinding (b : Binding) : IsMember b (writeBinding b) := by
  have h := IsMember.intro (isString_writeText b.selector) .nil .nil (isValue_writeValue b.value)
  simpa [writeBinding] using h

theorem isDocument_writeBindings (bs : Bindings) : IsDocument bs (writeBindings bs) := by
  have h := separated_intercalate isMember_writeBinding bs
  exact ⟨[], writeBindings bs, [], .nil, .intro h, .nil, by simp⟩

theorem spaced_writeValue (v : Value) : Spaced IsValue v (writeValue v) :=
  ⟨[], writeValue v, [], .nil, isValue_writeValue v, .nil, by simp⟩

end MarkupTemplate.Json

namespace MarkupTemplate

/-- Bindings and values are read back from what is written of them, entry by entry. -/
theorem read_writeBindings_and_writeValue :
    (∀ bs, Bindings.read (Json.writeBindings bs) = .ok bs) ∧
      ∀ v, Json.readValue (Json.writeValue v) = .ok v := by
  constructor
  · intro bs
    rw [Bindings.read_eq_ok_iff_readBindings, Json.readBindings_eq_ok_iff]
    exact Json.isDocument_writeBindings bs
  · intro v
    rw [Json.readValue_eq_ok_iff]
    exact Json.spaced_writeValue v

end MarkupTemplate
