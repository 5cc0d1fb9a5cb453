/-!
Machines that read a list item by item, write any number of items at each step, and close at the
end. A run over two lists is a run over the first up to its last state, then one over the second.
-/
namespace MarkupTemplate

variable {σ α β γ : Type}

structure Machine (σ α β : Type) where
  /-- What one item makes the machine write, and the state after it. -/
  step : σ → α → List β × σ
  /-- What is written when the input ends. -/
  close : σ → List β

namespace Machine

/-- What is written while the input is read. -/
def emit (m : Machine σ α β) : σ → List α → List β
  | _, [] => []
  | s, a :: as => let (out, s) := m.step s a; out ++ m.emit s as

/-- The state after the input. -/
def after (m : Machine σ α β) : σ → List α → σ
  | s, [] => s
  | s, a :: as => m.after (m.step s a).2 as

def run (m : Machine σ α β) (s : σ) (as : List α) : List β :=
  m.emit s as ++ m.close (m.after s as)

variable (m : Machine σ α β) (s : σ)

@[simp] theorem emit_nil : m.emit s [] = [] := rfl

@[simp] theorem emit_cons (a : α) (as : List α) :
    m.emit s (a :: as) = (m.step s a).1 ++ m.emit (m.step s a).2 as := rfl

@[simp] theorem after_nil : m.after s [] = s := rfl

@[simp] theorem after_cons (a : α) (as : List α) :
    m.after s (a :: as) = m.after (m.step s a).2 as := rfl

@[simp] theorem run_nil : m.run s [] = m.close s := rfl

@[simp] theorem run_cons (a : α) (as : List α) :
    m.run s (a :: as) = (m.step s a).1 ++ m.run (m.step s a).2 as := by
  simp [run]

theorem emit_append (as bs : List α) :
    m.emit s (as ++ bs) = m.emit s as ++ m.emit (m.after s as) bs := by
  induction as generalizing s with
  | nil => rfl
  | cons a as ih => simp [ih]

theorem after_append (as bs : List α) : m.after s (as ++ bs) = m.after (m.after s as) bs := by
  induction as generalizing s with
  | nil => rfl
  | cons a as ih => simp [ih]

theorem run_append (as bs : List α) :
    m.run s (as ++ bs) = m.emit s as ++ m.run (m.after s as) bs := by
  simp [run, emit_append, after_append]

/-- What every step keeps of the state and of what is written so far holds where the input ends. -/
theorem emit_after_induction {P : List β → σ → Prop} (hstart : P [] s)
    (hstep : ∀ out s a, P out s → P (out ++ (m.step s a).1) (m.step s a).2) (as : List α) :
    P (m.emit s as) (m.after s as) := by
  suffices h : ∀ out s, P out s → P (out ++ m.emit s as) (m.after s as) from h [] s hstart
  induction as with
  | nil => simp
  | cons a as ih =>
    intro out s hs
    have hnext := ih _ _ (hstep out s a hs)
    simpa using hnext

/-- What every step and the close keep, a run keeps. -/
theorem flatMap_run (item : α → List γ) (written : β → List γ) (held : σ → List γ)
    (hstep : ∀ s a, (m.step s a).1.flatMap written ++ held (m.step s a).2 = held s ++ item a)
    (hclose : ∀ s, (m.close s).flatMap written = held s) (as : List α) :
    (m.run s as).flatMap written = held s ++ as.flatMap item := by
  induction as generalizing s with
  | nil => simp [hclose]
  | cons a as ih =>
    rw [run_cons, List.flatMap_append, ih, List.flatMap_cons, ← List.append_assoc,
      ← List.append_assoc, hstep]

end Machine

end MarkupTemplate
