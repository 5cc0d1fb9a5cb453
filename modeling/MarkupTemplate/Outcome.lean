/-! Outcomes of steps that may fail, one after the other and item by item. -/
namespace MarkupTemplate

variable {ε α β γ δ : Type}

theorem exists_of_bind_eq_ok {x : Except ε α} {f : α → Except ε β} {b : β}
    (h : x >>= f = .ok b) : ∃ a, x = .ok a ∧ f a = .ok b := by
  cases x with
  | error e => cases h
  | ok a => exact ⟨a, rfl, h⟩

theorem exists_of_map_eq_ok {x : Except ε α} {f : α → β} {b : β} (h : f <$> x = .ok b) :
    ∃ a, x = .ok a ∧ f a = b := by
  cases x with
  | error e => cases h
  | ok a => exact ⟨a, rfl, Except.ok.inj h⟩

theorem map_eq_error_iff {x : Except ε α} {f : α → β} {e : ε} :
    f <$> x = .error e ↔ x = .error e := by
  cases x with
  | error e' => simp [Functor.map, Except.map]
  | ok a => simp [Functor.map, Except.map]

theorem bind_eq_error_iff {x : Except ε α} {f : α → Except ε β} {e : ε} :
    x >>= f = .error e ↔ x = .error e ∨ ∃ a, x = .ok a ∧ f a = .error e := by
  cases x with
  | error e' => simp [bind, Except.bind]
  | ok a => simp [bind, Except.bind]

/-- What is done to each result can be done to the list of them. -/
theorem mapM_eq_map {f : α → Except ε γ} {g : α → Except ε β} {k : β → γ} {as : List α}
    (h : ∀ a ∈ as, f a = k <$> g a) : as.mapM f = List.map k <$> as.mapM g := by
  induction as with
  | nil => rfl
  | cons a as ih =>
    obtain ⟨ha, has⟩ := List.forall_mem_cons.mp h
    rw [List.mapM_cons, List.mapM_cons, ha, ih has]
    cases g a with
    | error e => rfl
    | ok b => cases as.mapM g <;> rfl

theorem mapM_eq_ok {f : α → Except ε β} {g : α → β} {as : List α} (h : ∀ a ∈ as, f a = .ok (g a)) :
    as.mapM f = .ok (as.map g) := by
  induction as with
  | nil => rfl
  | cons a as ih =>
    obtain ⟨ha, has⟩ := List.forall_mem_cons.mp h
    rw [List.mapM_cons, ha, ih has]
    rfl

theorem mapM_cons_eq_error_iff {f : α → Except ε β} {a : α} {as : List α} {e : ε} :
    (a :: as).mapM f = .error e ↔ f a = .error e ∨ (∃ c, f a = .ok c) ∧ as.mapM f = .error e := by
  rw [List.mapM_cons]
  cases f a with
  | error e' => simp [bind, Except.bind]
  | ok c => cases as.mapM f <;> simp [bind, Except.bind, pure, Except.pure]

/-- The first item that fails is the one that a list fails with. -/
theorem mapM_eq_error_iff {f : α → Except ε β} {as : List α} {e : ε} :
    as.mapM f = .error e ↔
      ∃ front a back, as = front ++ a :: back ∧ (∀ b ∈ front, ∃ c, f b = .ok c) ∧
        f a = .error e := by
  induction as with
  | nil => simp [pure, Except.pure]
  | cons a as ih =>
    rw [mapM_cons_eq_error_iff, ih]
    constructor
    · intro h
      rcases h with ha | ⟨ha, front, b, back, rfl, hfront, hb⟩
      · exact ⟨[], a, as, rfl, by simp, ha⟩
      · exact ⟨a :: front, b, back, rfl, List.forall_mem_cons.mpr ⟨ha, hfront⟩, hb⟩
    · intro h
      obtain ⟨front, b, back, he, hfront, hb⟩ := h
      cases front with
      | nil =>
        obtain ⟨rfl, -⟩ := List.cons.inj he
        exact .inl hb
      | cons c front =>
        obtain ⟨rfl, rfl⟩ := List.cons.inj he
        obtain ⟨ha, hfront⟩ := List.forall_mem_cons.mp hfront
        exact .inr ⟨ha, front, b, back, rfl, hfront, hb⟩

def error? : Except ε α → Option ε
  | .ok _ => none
  | .error e => some e

@[simp] theorem error?_map (f : α → β) (x : Except ε α) : error? (f <$> x) = error? x := by
  cases x <;> rfl

theorem error?_mapM (f : α → Except ε β) (as : List α) :
    error? (as.mapM f) = as.findSome? fun a => error? (f a) := by
  induction as with
  | nil => rfl
  | cons a as ih =>
    rw [List.mapM_cons, List.findSome?_cons, ← ih]
    cases f a with
    | error e => rfl
    | ok b => cases as.mapM f <;> rfl

/-- Failures are renamed step by step. -/
theorem mapError_bind (k : ε → δ) (x : Except ε α) (f : α → Except ε β) :
    (x >>= f).mapError k = x.mapError k >>= fun a => (f a).mapError k := by
  cases x <;> rfl

theorem mapError_mapM (k : ε → δ) (f : α → Except ε β) (as : List α) :
    (as.mapM f).mapError k = as.mapM fun a => (f a).mapError k := by
  induction as with
  | nil => rfl
  | cons a as ih =>
    rw [List.mapM_cons, List.mapM_cons, mapError_bind, ← ih]
    cases f a with
    | error e => rfl
    | ok b => cases as.mapM f <;> rfl

theorem mapError_foldlM (k : ε → δ) (f : β → α → Except ε β) (as : List α) (b : β) :
    (as.foldlM f b).mapError k = as.foldlM (fun b a => (f b a).mapError k) b := by
  induction as generalizing b with
  | nil => rfl
  | cons a as ih =>
    rw [List.foldlM_cons, List.foldlM_cons, mapError_bind]
    cases f b a with
    | error e => rfl
    | ok c => exact ih c

end MarkupTemplate
