import Mathlib.Data.List.Forall2
import MarkupTemplate.Outcome

/-! Two outcomes side by side, and lists of them. -/
namespace MarkupTemplate

variable {ε α β γ δ : Type}

/-- Both fail, or both succeed with results that `R` relates. -/
inductive Agree (R : α → β → Prop) : Except ε α → Except ε β → Prop
  | ok {a : α} {b : β} (h : R a b) : Agree R (.ok a) (.ok b)
  | error {e f : ε} : Agree R (.error e) (.error f)

namespace Agree

variable {R : α → β → Prop} {S : γ → δ → Prop} {x : Except ε α} {y : Except ε β}

theorem bind (h : Agree R x y) {f : α → Except ε γ} {g : β → Except ε δ}
    (hfg : ∀ a b, R a b → Agree S (f a) (g b)) : Agree S (x >>= f) (y >>= g) := by
  cases h with
  | ok h => exact hfg _ _ h
  | error => exact .error

theorem imp (h : Agree R x y) {S : α → β → Prop} (hRS : ∀ a b, R a b → S a b) : Agree S x y := by
  cases h with
  | ok h => exact .ok (hRS _ _ h)
  | error => exact .error

theorem mapM {as : List α} {bs : List β} {f : α → Except ε γ} {g : β → Except ε δ}
    (h : List.Forall₂ (fun a b => Agree S (f a) (g b)) as bs) :
    Agree (List.Forall₂ S) (as.mapM f) (bs.mapM g) := by
  induction h with
  | nil => exact .ok .nil
  | cons hab _ ih =>
    rw [List.mapM_cons, List.mapM_cons]
    refine hab.bind fun c d hcd => ih.bind fun cs ds hcds => ?_
    exact .ok (.cons hcd hcds)

end Agree

theorem mapM_eq_ok_iff {f : α → Except ε β} {as : List α} {bs : List β} :
    as.mapM f = .ok bs ↔ List.Forall₂ (fun a b => f a = .ok b) as bs := by
  constructor
  · intro h
    induction as generalizing bs with
    | nil =>
      cases h
      exact .nil
    | cons a as ih =>
      rw [List.mapM_cons] at h
      obtain ⟨b, ha, h⟩ := exists_of_bind_eq_ok h
      obtain ⟨bs', has, h⟩ := exists_of_bind_eq_ok h
      cases h
      exact .cons ha (ih has)
  · intro h
    induction h with
    | nil => rfl
    | cons ha _ ih =>
      rw [List.mapM_cons, ha, ih]
      rfl

theorem exists_of_forall₂ {P : α → β → Prop} {as : List α} {bs : List β} (h : List.Forall₂ P as bs)
    {b : β} (hb : b ∈ bs) : ∃ a ∈ as, P a b := by
  induction h with
  | nil => cases hb
  | @cons a _ as _ hab _ ih =>
    cases hb with
    | head => exact ⟨a, List.mem_cons_self, hab⟩
    | tail _ hb =>
      obtain ⟨a', hmem, hab'⟩ := ih hb
      exact ⟨a', List.mem_cons_of_mem a hmem, hab'⟩

theorem forall₂_imp_of_mem {P Q : α → β → Prop} {as : List α} {bs : List β}
    (h : List.Forall₂ P as bs) (himp : ∀ a ∈ as, ∀ b, P a b → Q a b) : List.Forall₂ Q as bs := by
  induction h with
  | nil => exact .nil
  | cons hab _ ih =>
    obtain ⟨hhead, htail⟩ := List.forall_mem_cons.mp himp
    exact .cons (hhead _ hab) (ih htail)

end MarkupTemplate
