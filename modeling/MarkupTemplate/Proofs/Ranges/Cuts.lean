import Mathlib.Data.String.Basic
import MarkupTemplate.Fill
import MarkupTemplate.Proofs.Canonical
import MarkupTemplate.Proofs.Tags

/-!
Parts of a text by their bytes in UTF-8. A cut has to be a range in the text that splits none of its
characters; any other cut ends the run.
-/
namespace MarkupTemplate

namespace Text

/-- A character begins with this byte, or the text ends in front of it. -/
def IsBoundary (t : Text) (n : Nat) : Prop := String.Pos.Raw.IsValid (String.ofList t) ⟨n⟩

instance (t : Text) (n : Nat) : Decidable (IsBoundary t n) :=
  inferInstanceAs (Decidable (String.Pos.Raw.IsValid _ _))

structure IsRange (t : Text) (start stop : Nat) : Prop where
  ordered : start ≤ stop
  inside : stop ≤ byteSize t
  boundary_start : IsBoundary t start
  boundary_stop : IsBoundary t stop

instance (t : Text) (start stop : Nat) : Decidable (IsRange t start stop) :=
  decidable_of_iff
    (start ≤ stop ∧ stop ≤ byteSize t ∧ IsBoundary t start ∧ IsBoundary t stop)
    ⟨fun ⟨ho, hi, hs, ht⟩ => ⟨ho, hi, hs, ht⟩, fun ⟨ho, hi, hs, ht⟩ => ⟨ho, hi, hs, ht⟩⟩

def between (t : Text) (start stop : Nat) : Text :=
  (String.Pos.Raw.extract (String.ofList t) ⟨start⟩ ⟨stop⟩).toList

/-- The byte with which the first such character begins. -/
def firstAt? (p : Char → Bool) (t : Text) : Option Nat :=
  if t.any p then some (byteSize (t.takeWhile (!p ·))) else none

def lastAt? (mark t : Text) : Option Nat := (cutLast? mark t).map fun cut => byteSize cut.1

theorem utf8Len_eq (t : Text) : String.utf8Len t = byteSize t := by
  induction t with
  | nil => rfl
  | cons c t ih => rw [String.utf8Len_cons, ih, byteSize_cons, Nat.add_comm]

/-- A boundary stands between two parts of the text. -/
theorem isBoundary_iff {t : Text} {n : Nat} :
    IsBoundary t n ↔ ∃ front back, t = front ++ back ∧ byteSize front = n := by
  rw [IsBoundary, String.Pos.Raw.isValid_ofList]
  constructor
  · rintro ⟨i, hi⟩
    refine ⟨t.take i, t.drop i, (List.take_append_drop i t).symm, ?_⟩
    rw [← utf8Len_eq, ← String.utf8ByteSize_ofList]
    exact hi.symm
  · rintro ⟨front, back, rfl, rfl⟩
    refine ⟨front.length, ?_⟩
    rw [List.take_left, String.utf8ByteSize_ofList, utf8Len_eq]

theorem isRange_append (before part after : Text) :
    IsRange (before ++ (part ++ after)) (byteSize before) (byteSize before + byteSize part) where
  ordered := by omega
  inside := by
    rw [byteSize_append, byteSize_append]
    omega
  boundary_start := isBoundary_iff.mpr ⟨before, _, rfl, rfl⟩
  boundary_stop := isBoundary_iff.mpr
    ⟨before ++ part, after, (List.append_assoc before part after).symm, byteSize_append before part⟩

theorem between_append (before part after : Text) :
    between (before ++ (part ++ after)) (byteSize before) (byteSize before + byteSize part) =
      part := by
  have h := String.extract_of_valid before part after
  rw [utf8Len_eq, utf8Len_eq, List.append_assoc] at h
  rw [between, h, String.toList_ofList]

theorem takeWhile_not_of_any {p : Char → Bool} {t : Text} (h : t.any p = false) :
    t.takeWhile (!p ·) = t := by
  rw [List.takeWhile_eq_self_iff]
  simpa using h

/-- Up to the first such character, or up to the end if there is none. -/
theorem getD_firstAt? (p : Char → Bool) (t : Text) :
    (firstAt? p t).getD (byteSize t) = byteSize (t.takeWhile (!p ·)) := by
  cases h : t.any p with
  | true => simp [firstAt?, h]
  | false => simp [firstAt?, h, takeWhile_not_of_any h]

theorem firstAt?_eq (c : Char) (t : Text) :
    firstAt? (· = c) t = (cutFirst? [c] t).map fun cut => byteSize cut.1 := by
  by_cases hc : c ∈ t
  · obtain ⟨front, back, rfl, hfront⟩ := List.eq_append_cons_of_mem hc
    have htake := takeWhile_ne hfront back
    rw [cutFirst?_of_not_mem hfront]
    simp_all [firstAt?]
  · rw [cutFirst?_eq_none hc]
    simp_all [firstAt?]

end Text

/-- What ends a run before its time. -/
inductive Abort where
  | range (t : Text) (start stop : Nat)
  | depth
  | shape (e : ShapeError)

namespace Ranges

variable {α β : Type}

@[simp] theorem ok_bind (a : α) (f : α → Except Abort β) : Except.ok a >>= f = f a := rfl

@[simp] theorem pure_eq_ok (a : α) : (pure a : Except Abort α) = .ok a := rfl

/-- The bytes of the text from `start` up to `stop`, if they are a range. -/
def cut (t : Text) (start stop : Nat) : Except Abort Text :=
  if Text.IsRange t start stop then .ok (Text.between t start stop)
  else .error (.range t start stop)

theorem cut_append (before part after : Text) :
    cut (before ++ (part ++ after)) (Text.byteSize before)
      (Text.byteSize before + Text.byteSize part) = .ok part := by
  rw [cut, if_pos (Text.isRange_append before part after), Text.between_append]

/-- A cut through a character. -/
example : cut ['é', 'x'] 1 2 = .error (.range ['é', 'x'] 1 2) := by rfl

theorem cut_front (part after : Text) : cut (part ++ after) 0 (Text.byteSize part) = .ok part := by
  have h := cut_append [] part after
  rwa [Text.byteSize_nil, Nat.zero_add, List.nil_append] at h

theorem cut_back (before part : Text) :
    cut (before ++ part) (Text.byteSize before) (Text.byteSize (before ++ part)) = .ok part := by
  have h := cut_append before part []
  rwa [List.append_nil, ← Text.byteSize_append] at h

end Ranges

end MarkupTemplate
