import MarkupTemplate.Proofs.Filling
import MarkupTemplate.Proofs.Segmentation
import MarkupTemplate.Proofs.Tokens

/-!
Tokens that are put together. Behind a tag they stay what they are, and where no element is left
open they are filled as if nothing stood in front of them.
-/
namespace MarkupTemplate

open Token

namespace Token

/-- The last token is a complete tag. -/
def EndsWithTag (ts : List Token) : Prop := ∃ t ∈ ts.getLast?, IsTag t

theorem Tokenized.append {us vs : List Token} (h : Tokenized us) (hlast : EndsWithTag us)
    (hv : Tokenized vs) : Tokenized (us ++ vs) := by
  obtain ⟨t, hmem, ht⟩ := hlast
  obtain ⟨front, rfl⟩ := List.getLast?_eq_some_iff.mp hmem
  have happend := h.append_tag ht hv
  simpa using happend

end Token

theorem tokens_append {d₁ : Text} (h : d₁ = [] ∨ EndsWithTag (tokens d₁)) (d₂ : Text) :
    tokens (d₁ ++ d₂) = tokens d₁ ++ tokens d₂ := by
  rcases h with rfl | hlast
  · rfl
  · have htok := (tokenized_tokens d₁).append hlast (tokenized_tokens d₂)
    exact tokens_eq_of_tokenized htok (by simp)

namespace Filled

def append (f g : Filled) : Filled := ⟨f.text ++ g.text, f.touched || g.touched⟩

instance : Append Filled := ⟨append⟩

@[simp] theorem mk_append_mk (t u : Text) (a b : Bool) :
    (⟨t, a⟩ ++ ⟨u, b⟩ : Filled) = ⟨t ++ u, a || b⟩ := rfl

theorem append_assoc (f g h : Filled) : f ++ g ++ h = f ++ (g ++ h) := by
  obtain ⟨t, a⟩ := f
  obtain ⟨u, b⟩ := g
  obtain ⟨v, c⟩ := h
  simp [Bool.or_assoc]

end Filled

/-- The filling of consecutive segments. -/
def fillSegments (s : Selector) (value : Value) (gs : List Segment) : Except ShapeError Filled :=
  (fun ts => ⟨ts.flatten, gs.any (·.matched)⟩) <$> gs.mapM (Segment.fill s value.items)

/-- The filling of a document with these tokens. -/
def fillTokens (s : Selector) (value : Value) (ts : List Token) : Except ShapeError Filled :=
  fillSegments s value ((Cut.machine s).run .start ts)

theorem fill_eq_fillTokens (s : Selector) (value : Value) (d : Text) :
    fill s value d = fillTokens s value (tokens d) := fill_eq_mapM s value d

section Segments

variable (s : Selector) (value : Value)

theorem fillSegments_append (gs hs : List Segment) :
    fillSegments s value (gs ++ hs) = (do
      let f ← fillSegments s value gs
      let g ← fillSegments s value hs
      return f ++ g) := by
  simp only [fillSegments, List.mapM_append]
  cases gs.mapM (Segment.fill s value.items) with
  | error e => rfl
  | ok ts =>
    cases hs.mapM (Segment.fill s value.items) with
    | error e => rfl
    | ok us => simp [bind, Except.bind, pure, Except.pure, Functor.map, Except.map]

theorem fillSegments_unmatched (ts : List Token) :
    fillSegments s value [⟨false, ts⟩] = .ok ⟨ts.flatten, false⟩ := by
  have hkept : ∀ g ∈ [(⟨false, ts⟩ : Segment)], g.fill s value.items = .ok g.text := by
    intro g hg
    obtain rfl := List.mem_singleton.mp hg
    exact Segment.fill_unmatched s _ Bool.false_ne_true
  rw [fillSegments, mapM_eq_ok hkept]
  simp [Segment.text, Functor.map, Except.map]

/-- Tokens that stay can be cut off from those behind them. -/
theorem fillSegments_unmatched_append (us ts : List Token) (gs : List Segment) :
    fillSegments s value (⟨false, us ++ ts⟩ :: gs) = (do
      let g ← fillSegments s value (⟨false, ts⟩ :: gs)
      return ⟨us.flatten, false⟩ ++ g) := by
  have hsplit : ∀ vs : List Token, fillSegments s value (⟨false, vs⟩ :: gs) =
      (do let g ← fillSegments s value gs; return ⟨vs.flatten, false⟩ ++ g) := by
    intro vs
    have happend := fillSegments_append s value [⟨false, vs⟩] gs
    rw [fillSegments_unmatched] at happend
    exact happend
  rw [hsplit, hsplit]
  cases fillSegments s value gs with
  | error e => rfl
  | ok g => simp [bind, Except.bind, pure, Except.pure, ← Filled.append_assoc]

end Segments

namespace Selector

variable {s : Selector} {ts us : List Token}

/-- No element is left open behind the tokens. -/
def EndsOutside (s : Selector) (ts : List Token) : Prop :=
  ∃ held, (Cut.machine s).after .start ts = .outside held

theorem endsOutside_tokens {d : Text} (h : openElement? s d = none) : s.EndsOutside (tokens d) := by
  unfold openElement? at h
  split at h
  · next held hafter => exact ⟨held, hafter⟩
  · cases h

theorem Plain.after_eq (h : s.Plain ts) (held : List Token) :
    (Cut.machine s).after (.outside held) ts = .outside (ts.reverse ++ held) := by
  induction ts generalizing held with
  | nil => rfl
  | cons t ts ih =>
    obtain ⟨ht, hts⟩ := List.forall_mem_cons.mp h
    have hstep : (Cut.machine s).step (.outside held) t = ([], .outside (t :: held)) :=
      Cut.step_outside_of_not_begins s held ht
    rw [Machine.after_cons, hstep, ih hts]
    simp

theorem Plain.endsOutside (h : s.Plain ts) : s.EndsOutside ts := ⟨_, h.after_eq []⟩

end Selector

/-- Where an element may begin, the held tokens are written and have no part in what follows. -/
theorem Cut.exists_step_outside {s : Selector} {t : Token} (h : s.begins t = true) :
    ∃ gs cut, ∀ held, step s (.outside held) t = (⟨false, held.reverse⟩ :: gs, cut) := by
  simp only [Selector.begins, decide_eq_true_eq] at h
  obtain ⟨ha, hk | hk⟩ := h
  · exact ⟨[], .inside t.name? 0 [t], fun held => by simp [step, hk, ha]⟩
  · exact ⟨[⟨true, [t]⟩], start, fun held => by simp [step, hk, ha]⟩

/-- Tokens that are held go in front of the first segment, whatever they are. -/
theorem Cut.exists_run_outside (s : Selector) (ts : List Token) :
    ∃ us gs, ∀ held, (machine s).run (.outside held) ts = ⟨false, held.reverse ++ us⟩ :: gs := by
  induction ts with
  | nil => exact ⟨[], [], fun held => by simp [machine, close]⟩
  | cons t ts ih =>
    cases ht : s.begins t with
    | false =>
      obtain ⟨us, gs, hrun⟩ := ih
      refine ⟨t :: us, gs, fun held => ?_⟩
      have hstep : (machine s).step (.outside held) t = ([], .outside (t :: held)) :=
        step_outside_of_not_begins s held ht
      rw [Machine.run_cons, hstep, hrun]
      simp
    | true =>
      obtain ⟨gs, cut, hstep⟩ := exists_step_outside ht
      refine ⟨[], gs ++ (machine s).run cut ts, fun held => ?_⟩
      have hstep' : (machine s).step (.outside held) t = (⟨false, held.reverse⟩ :: gs, cut) :=
        hstep held
      rw [Machine.run_cons, hstep']
      simp

theorem Selector.Plain.fillTokens_eq {s : Selector} {ts : List Token} (h : s.Plain ts)
    (value : Value) : fillTokens s value ts = .ok ⟨ts.flatten, false⟩ := by
  have hrun : (Cut.machine s).run .start ts = [⟨false, ts⟩] := by
    simpa using Cut.run_segmented (.last h)
  rw [fillTokens, hrun, fillSegments_unmatched]

theorem Selector.EndsOutside.fillTokens_append {s : Selector} {us : List Token}
    (h : s.EndsOutside us) (value : Value) (vs : List Token) :
    fillTokens s value (us ++ vs) = (do
      let f ← fillTokens s value us
      let g ← fillTokens s value vs
      return f ++ g) := by
  obtain ⟨held, hafter⟩ := h
  obtain ⟨ws, gs, hrun⟩ := Cut.exists_run_outside s vs
  -- What is held at the seam ends the last segment of `us` and begins the first of `us ++ vs`.
  have hvs : (Cut.machine s).run .start vs = ⟨false, ws⟩ :: gs := hrun []
  have hus : (Cut.machine s).run .start us =
      (Cut.machine s).emit .start us ++ [⟨false, held.reverse⟩] := by
    rw [Machine.run, hafter]
    rfl
  rw [fillTokens, fillTokens, fillTokens, Machine.run_append, hafter, hrun, hvs, hus,
    fillSegments_append, fillSegments_append, fillSegments_unmatched,
    fillSegments_unmatched_append]
  cases fillSegments s value ((Cut.machine s).emit .start us) with
  | error e => rfl
  | ok f =>
    cases fillSegments s value (⟨false, ws⟩ :: gs) with
    | error e => rfl
    | ok g =>
      have hassoc := Filled.append_assoc f ⟨held.reverse.flatten, false⟩ g
      exact congrArg Except.ok hassoc.symm

theorem Selector.EndsOutside.text_fillTokens_append {s : Selector} {us : List Token}
    (h : s.EndsOutside us) {value : Value} {f : Filled} (hf : fillTokens s value us = .ok f)
    (vs : List Token) :
    Filled.text <$> fillTokens s value (us ++ vs) =
      (f.text ++ ·) <$> Filled.text <$> fillTokens s value vs := by
  rw [h.fillTokens_append, hf]
  cases fillTokens s value vs <;> rfl

/--
A document that ends with a tag, and leaves no element open, is filled by itself, and what follows
it is filled by itself.
-/
theorem fill_append_of_endsWithTag {s : Selector} {d₁ : Text}
    (hlast : d₁ = [] ∨ EndsWithTag (tokens d₁)) (hopen : openElement? s d₁ = none) (value : Value)
    (d₂ : Text) :
    fill s value (d₁ ++ d₂) = (do
      let f ← fill s value d₁
      let g ← fill s value d₂
      return ⟨f.text ++ g.text, f.touched || g.touched⟩) := by
  have happend := (Selector.endsOutside_tokens hopen).fillTokens_append value (tokens d₂)
  rw [← tokens_append hlast, ← fill_eq_fillTokens, ← fill_eq_fillTokens,
    ← fill_eq_fillTokens] at happend
  exact happend

/-- The end of an element at the seam closes nothing, since nothing is left open in front of it. -/
theorem fill_append_of_endsWithTag_of_list :
    EndsWithTag (tokens ['<', 'b', '>', '<', 'p', '>', '<', '/', 'p', '>', '<', 'b', '>']) ∧
      openElement? (.parse ['p'])
        ['<', 'b', '>', '<', 'p', '>', '<', '/', 'p', '>', '<', 'b', '>'] = none ∧
      fill (.parse ['p']) (.list [['1'], ['2']])
        (['<', 'b', '>', '<', 'p', '>', '<', '/', 'p', '>', '<', 'b', '>'] ++
          ['<', '/', 'p', '>', '<', 'p', '>', '<']) =
        .ok ⟨['<', 'b', '>', '<', 'p', '>', '1', '<', '/', 'p', '>', '<', 'p', '>', '2', '<', '/',
          'p', '>', '<', 'b', '>', '<', '/', 'p', '>', '<', 'p', '>', '<'], true⟩ := by
  have hlast : EndsWithTag
      (tokens ['<', 'b', '>', '<', 'p', '>', '<', '/', 'p', '>', '<', 'b', '>']) :=
    ⟨['<', 'b', '>'], by decide, ['b'], by decide, by decide, rfl⟩
  have hopen : openElement? (.parse ['p'])
      ['<', 'b', '>', '<', 'p', '>', '<', '/', 'p', '>', '<', 'b', '>'] = none := by decide
  have happend := fill_append_of_endsWithTag (.inr hlast) hopen (.list [['1'], ['2']])
    ['<', '/', 'p', '>', '<', 'p', '>', '<']
  exact ⟨hlast, hopen, happend⟩

end MarkupTemplate
