import MarkupTemplate.Composition
import MarkupTemplate.Proofs.Filling

/-!
Bindings one after the other: a run of a list is a run of its first part and then one of the rest,
and bindings that change nothing at their turn can be left out.
-/
namespace MarkupTemplate

namespace Binding

def Finds (b : Binding) (d : Text) : Prop :=
  ∃ g ∈ segments (Selector.parse b.selector) d, g.matched = true

structure LeavesAttribute (b : Binding) : Prop where
  attr : (Selector.parse b.selector).attr ≠ none
  value : b.value = .absent

theorem touched_eq_true_iff {b : Binding} {d : Text} {f : Filled} (h : b.fill d = .ok f) :
    f.touched = true ↔ b.Finds d := by
  obtain ⟨ts, -, rfl⟩ := fill_eq_ok_iff.mp h
  exact List.any_eq_true

theorem fill_of_not_finds {b : Binding} {d : Text} (h : ¬ b.Finds d) :
    b.fill d = .ok ⟨d, false⟩ := by
  apply fill_eq_self
  intro g hg
  by_contra hm
  exact h ⟨g, hg, by simpa using hm⟩

/-- Each segment is written as it was, and all segments together are the document. -/
theorem LeavesAttribute.exists_fill {b : Binding} (h : b.LeavesAttribute) (d : Text) :
    ∃ touched, b.fill d = .ok ⟨d, touched⟩ := by
  obtain ⟨attr, hattr⟩ := Option.ne_none_iff_exists'.mp h.attr
  have hkept : ∀ g ∈ segments (Selector.parse b.selector) d,
      g.fill (Selector.parse b.selector) b.value.items = .ok g.text := by
    intro g _
    rw [g.fill_attr hattr, h.value]
    cases g.matched <;> simp [Value.items]
  have hfill : b.fill d = .ok ⟨((segments (Selector.parse b.selector) d).map Segment.text).flatten,
      (segments (Selector.parse b.selector) d).any (·.matched)⟩ := by
    rw [fill, fill_eq_mapM, mapM_eq_ok hkept]
    rfl
  rw [← List.flatMap_def, text_segments] at hfill
  exact ⟨_, hfill⟩

end Binding

namespace Filled

/-- The outcome of two fillings, of which the second works on the text that the first has left. -/
def andThen (f g : Filled) : Filled := ⟨g.text, f.touched || g.touched⟩

@[simp] theorem text_andThen (f g : Filled) : (f.andThen g).text = g.text := rfl

@[simp] theorem touched_andThen (f g : Filled) :
    (f.andThen g).touched = (f.touched || g.touched) := rfl

end Filled

theorem foldlM_fill (bs : Bindings) (f : Filled) :
    bs.foldlM (fun f b => f.fill b) f = f.andThen <$> fillAll bs f.text := by
  induction bs generalizing f with
  | nil => simp [fillAll, Filled.andThen, pure, Except.pure, Functor.map, Except.map]
  | cons b bs ih =>
    rw [fillAll, List.foldlM_cons, List.foldlM_cons, Filled.fill, Filled.fill]
    cases b.fill f.text with
    | error e => rfl
    | ok g =>
      have hleft := ih (f.andThen g)
      have hright := ih (Filled.andThen ⟨f.text, false⟩ g)
      change List.foldlM _ (f.andThen g) bs =
        f.andThen <$> List.foldlM _ (Filled.andThen ⟨f.text, false⟩ g) bs
      rw [hleft, hright]
      cases hrun : fillAll bs g.text with
      | error e => simp [hrun, Functor.map, Except.map]
      | ok h => simp [hrun, Functor.map, Except.map, Filled.andThen, Bool.or_assoc]

theorem fillAll_cons (b : Binding) (bs : Bindings) (template : Text) :
    fillAll (b :: bs) template =
      b.fill template >>= fun f => f.andThen <$> fillAll bs f.text := by
  rw [fillAll, List.foldlM_cons, Filled.fill]
  cases b.fill template with
  | error e => rfl
  | ok f =>
    have hrest := foldlM_fill bs ⟨f.text, f.touched⟩
    exact hrest

theorem fillAll_append (bs cs : Bindings) (template : Text) :
    fillAll (bs ++ cs) template =
      fillAll bs template >>= fun f => f.andThen <$> fillAll cs f.text := by
  rw [fillAll, List.foldlM_append]
  exact bind_congr fun f => foldlM_fill cs f

/-- In a run of the bindings on the template, one of them has its turn, on the document. -/
inductive HasTurn : Bindings → Text → Binding → Text → Prop
  | first {b : Binding} {bs : Bindings} {d : Text} : HasTurn (b :: bs) d b d
  | later {b c : Binding} {bs : Bindings} {d d' : Text} {f : Filled} (hf : b.fill d = .ok f)
      (h : HasTurn bs f.text c d') : HasTurn (b :: bs) d c d'

theorem fillAll_eq_error_iff {bs : Bindings} {template : Text} {e : ShapeError} :
    fillAll bs template = .error e ↔ ∃ b d, HasTurn bs template b d ∧ b.fill d = .error e := by
  induction bs generalizing template with
  | nil =>
    refine iff_of_false (by simp [fillAll, pure, Except.pure]) ?_
    rintro ⟨b, d, h, -⟩
    cases h
  | cons b bs ih =>
    rw [fillAll_cons, bind_eq_error_iff]
    constructor
    · intro h
      rcases h with hb | ⟨f, hf, hrest⟩
      · exact ⟨b, template, .first, hb⟩
      · obtain ⟨c, d, hturn, hc⟩ := ih.mp (map_eq_error_iff.mp hrest)
        exact ⟨c, d, .later hf hturn, hc⟩
    · rintro ⟨c, d, hturn, hc⟩
      cases hturn with
      | first => exact .inl hc
      | @later _ _ _ _ _ f hf hturn =>
        have hrest := ih.mpr ⟨c, d, hturn, hc⟩
        exact .inr ⟨f, hf, map_eq_error_iff.mpr hrest⟩

theorem touched_eq_false_iff {bs : Bindings} {template : Text} {f : Filled}
    (h : fillAll bs template = .ok f) :
    f.touched = false ↔ ∀ b d, HasTurn bs template b d → ¬ b.Finds d := by
  induction bs generalizing template f with
  | nil =>
    cases h
    refine iff_of_true rfl ?_
    intro b d hturn
    cases hturn
  | cons b bs ih =>
    rw [fillAll_cons] at h
    obtain ⟨g, hg, hrest⟩ := exists_of_bind_eq_ok h
    obtain ⟨f', hf', rfl⟩ := exists_of_map_eq_ok hrest
    have hfinds := Binding.touched_eq_true_iff hg
    rw [Filled.touched_andThen, Bool.or_eq_false_iff, ih hf', ← Bool.not_eq_true, hfinds]
    constructor
    · rintro ⟨hfirst, hlater⟩ c d hturn
      cases hturn with
      | first => exact hfirst
      | later hf hturn =>
        rw [hg] at hf
        cases hf
        exact hlater c d hturn
    · intro hall
      exact ⟨hall b template .first, fun c d hturn => hall c d (.later hg hturn)⟩

/-- A binding that leaves the text as it is at its turn has no part in what the others do. -/
theorem text_fillAll_middle {front back : Bindings} {b : Binding} {template : Text}
    (h : ∀ f, fillAll front template = .ok f → ∃ touched, b.fill f.text = .ok ⟨f.text, touched⟩) :
    Filled.text <$> fillAll (front ++ b :: back) template =
      Filled.text <$> fillAll (front ++ back) template := by
  rw [fillAll_append, fillAll_append]
  cases hfront : fillAll front template with
  | error e => rfl
  | ok f =>
    obtain ⟨touched, hb⟩ := h f hfront
    have hcons : fillAll (b :: back) f.text =
        Filled.andThen ⟨f.text, touched⟩ <$> fillAll back f.text := by
      rw [fillAll_cons, hb]
      rfl
    change Filled.text <$> f.andThen <$> fillAll (b :: back) f.text =
      Filled.text <$> f.andThen <$> fillAll back f.text
    rw [hcons]
    cases fillAll back f.text <;> rfl

/--
A run of two lists of bindings is a run of the first and one of the second on what that has left. It
fails with the first binding that fails, and touches nothing if none finds anything at its turn; to
fill a fragment is such a run. A binding that leaves an attribute as it is, or that finds nothing at
its turn, can be taken out of a list.
-/
theorem fillAll_append_and_middle (bs cs : Bindings) (template : Text) :
    (fillAll (bs ++ cs) template =
      fillAll bs template >>= fun f => f.andThen <$> fillAll cs f.text) ∧
    (∀ e, fillAll bs template = .error e ↔
      ∃ b d, HasTurn bs template b d ∧ b.fill d = .error e) ∧
    (∀ f, fillAll bs template = .ok f →
      (f.touched = false ↔ ∀ b d, HasTurn bs template b d → ¬ b.Finds d)) ∧
    (∀ (fragment : Fragment) (results : List Text), fragment.fill results =
      Filled.text <$> fillAll (fragment.bindings results) fragment.template) ∧
    ∀ front b back, bs = front ++ b :: back →
      (b.LeavesAttribute ∨ ∀ f, fillAll front template = .ok f → ¬ b.Finds f.text) →
      Filled.text <$> fillAll bs template = Filled.text <$> fillAll (front ++ back) template := by
  refine ⟨fillAll_append bs cs template, fun e => fillAll_eq_error_iff,
    fun f h => touched_eq_false_iff h, fun _ _ => rfl, ?_⟩
  intro front b back hbs h
  subst hbs
  apply text_fillAll_middle
  intro f hf
  rcases h with hleaves | hnot
  · exact hleaves.exists_fill f.text
  · exact ⟨false, Binding.fill_of_not_finds (hnot f hf)⟩

end MarkupTemplate
