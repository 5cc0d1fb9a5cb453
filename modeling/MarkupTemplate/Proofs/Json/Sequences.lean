import Mathlib.Data.List.TakeWhile
import MarkupTemplate.Json.Value
import MarkupTemplate.Proofs.Json.Strings

/-!
Reading the elements of a list or an object: if the reader of one element takes what the grammar
says, the reader of all of them does.
-/
namespace MarkupTemplate.Json

variable {α β : Type}

/-- Blanks may stand in front. -/
def Behind (P : β → Text → Prop) (b : β) (w : Text) : Prop :=
  ∃ before u, IsBlanks before ∧ P b u ∧ w = before ++ u

/--
Of the results of a reader `f` keeps those that `P` has texts for. The reader gives them for these
texts, whatever follows, and for no other.
-/
def Reads (f : α → Option β) (read : Text → Read α) (P : β → Text → Prop) : Prop :=
  ∀ b t rest, (∃ a, read t = .ok (a, rest) ∧ f a = some b) ↔ ∃ w, P b w ∧ t = w ++ rest

/-- A text begins in a way that shows that an element follows, and not the end. -/
def Solid (P : β → Text → Prop) : Prop := ∀ b w, P b w → ∃ c ∈ ['"', '[', 'n'], ∃ u, w = c :: u

theorem isBlank_iff {c : Char} : isBlank c = true ↔ c ∈ [' ', '\n', '\t', '\r'] := by
  simp [isBlank, or_assoc]

theorem IsBlanks.nil : IsBlanks [] := by simp [IsBlanks]

theorem IsBlanks.append {s t : Text} (hs : IsBlanks s) (ht : IsBlanks t) : IsBlanks (s ++ t) := by
  intro c hc
  rcases List.mem_append.mp hc with hc | hc
  · exact hs c hc
  · exact ht c hc

theorem skipBlanks_append {b : Text} (hb : IsBlanks b) (t : Text) :
    skipBlanks (b ++ t) = skipBlanks t := by
  have hall : ∀ c ∈ b, isBlank c = true := fun c hc => isBlank_iff.mpr (hb c hc)
  exact List.dropWhile_append_of_pos hall

theorem skipBlanks_cons {c : Char} (hc : isBlank c = false) (t : Text) :
    skipBlanks (c :: t) = c :: t :=
  List.dropWhile_cons_of_neg (by simp [hc])

theorem skipBlanks_append_cons {b : Text} {c : Char} (hb : IsBlanks b) (hc : isBlank c = false)
    (t : Text) : skipBlanks (b ++ c :: t) = c :: t := by
  rw [skipBlanks_append hb, skipBlanks_cons hc]

theorem exists_blanks (t : Text) : ∃ b, IsBlanks b ∧ t = b ++ skipBlanks t := by
  refine ⟨t.takeWhile isBlank, ?_, List.takeWhile_append_dropWhile.symm⟩
  intro c hc
  exact isBlank_iff.mp (List.mem_takeWhile_imp hc)

theorem Sequence.isBlank_close (s : Sequence) : isBlank s.close = false := by
  cases s <;> rfl

theorem Solid.exists_cons {P : β → Text → Prop} (hP : Solid P) {b : β} {w : Text} (h : P b w) :
    ∃ c u, w = c :: u ∧ isBlank c = false ∧ ∀ s : Sequence, c ≠ s.close := by
  obtain ⟨c, hc, u, rfl⟩ := hP b w h
  refine ⟨c, u, rfl, ?_⟩
  simp only [List.mem_cons, List.not_mem_nil, or_false] at hc
  rcases hc with rfl | rfl | rfl <;> exact ⟨rfl, fun s => by cases s <;> decide⟩

theorem readMore_close {s : Sequence} (element : Reader α) {t rest : Text}
    (h : skipBlanks t = s.close :: rest) : readMore s element t = .ok ([], rest) := by
  rw [readMore]
  split
  · next h' => simp [h] at h'
  · next c u h' =>
    obtain ⟨rfl, rfl⟩ := List.cons.inj (h.symm.trans h')
    rw [if_pos rfl]

theorem readMore_comma {s : Sequence} {element : Reader α} {t u rest : Text} {a : α}
    (h : skipBlanks t = ',' :: u) (hu : (skipBlanks u).head? ≠ some s.close)
    (ha : element.read u = .ok (a, rest)) :
    readMore s element t = (readMore s element rest).map fun (as, rest) => (a :: as, rest) := by
  have hcomma : ',' ≠ s.close := by cases s <;> decide
  rw [readMore]
  split
  · next h' => simp [h] at h'
  · next c u' h' =>
    obtain ⟨rfl, rfl⟩ := List.cons.inj (h.symm.trans h')
    rw [if_neg hcomma, if_pos rfl, if_neg hu]
    split
    · next a' rest' ha' =>
      rw [ha] at ha'
      obtain ⟨rfl, rfl⟩ := Prod.mk.inj (Except.ok.inj ha')
      rfl
    · next ha' => simp [ha] at ha'

variable {f : α → Option β} {element : Reader α} {P : β → Text → Prop}

theorem mapM_cons_eq_some {a : α} {as : List α} {bs : List β} :
    (a :: as).mapM f = some bs ↔ ∃ b bs', f a = some b ∧ as.mapM f = some bs' ∧ bs = b :: bs' := by
  rw [List.mapM_cons]
  cases f a with
  | none => simp
  | some b => cases as.mapM f <;> simp [eq_comm]

theorem exists_of_mem_mapM {as : List α} {bs : List β} (h : as.mapM f = some bs) :
    ∀ a ∈ as, ∃ b, f a = some b := by
  induction as generalizing bs with
  | nil => simp
  | cons a as ih =>
    obtain ⟨b, bs, ha, has, rfl⟩ := mapM_cons_eq_some.mp h
    exact List.forall_mem_cons.mpr ⟨⟨b, ha⟩, ih has⟩

/-- Where its blanks end, an element begins. -/
theorem Behind.exists_eq_append (hP : Solid P) {b : β} {w gap t rest : Text} {c : Char}
    (h : Behind P b w) (hgap : IsBlanks gap) (hc : isBlank c = false)
    (he : gap ++ c :: t = w ++ rest) : ∃ u, P b u ∧ c :: t = u ++ rest := by
  obtain ⟨before, u, hbefore, hu, rfl⟩ := h
  obtain ⟨d, u, rfl, hd, -⟩ := hP.exists_cons hu
  refine ⟨d :: u, hu, ?_⟩
  have hskip := congrArg skipBlanks he
  rwa [skipBlanks_append_cons hgap hc, List.append_assoc, List.cons_append,
    skipBlanks_append_cons hbefore hd] at hskip

theorem spaced_of_behind {b : β} {w after : Text} (h : Behind P b w) (hafter : IsBlanks after) :
    Spaced P b (w ++ after) := by
  obtain ⟨before, u, hbefore, hu, rfl⟩ := h
  exact ⟨before, u, after, hbefore, hu, hafter, rfl⟩

theorem exists_of_readMore (hel : Reads f element.read (Behind P)) {s : Sequence} {t rest : Text}
    {as : List α} {bs : List β} (h : readMore s element t = .ok (as, rest))
    (hf : as.mapM f = some bs) :
    ∃ before us, IsBlanks before ∧ List.Forall₂ (Spaced P) bs us ∧
      t = before ++ (us.flatMap (',' :: ·) ++ s.close :: rest) := by
  fun_induction readMore s element t generalizing as bs rest with
  | case1 => cases h
  | case2 t u hs =>
    obtain ⟨rfl, rfl⟩ := Prod.mk.inj (Except.ok.inj h)
    obtain ⟨before, hbefore, ht⟩ := exists_blanks t
    obtain rfl : [] = bs := Option.some.inj hf
    rw [hs] at ht
    exact ⟨before, [], hbefore, .nil, ht⟩
  | case3 => cases h
  | case4 t u _ a r he hs _ ih =>
    obtain ⟨p, hp, h⟩ := exists_of_map_eq_ok h
    obtain ⟨rfl, rfl⟩ := Prod.mk.inj h
    obtain ⟨b, bs, ha, has, rfl⟩ := mapM_cons_eq_some.mp hf
    obtain ⟨w, hw, rfl⟩ := (hel b u r).mp ⟨a, he, ha⟩
    obtain ⟨after, us, hafter, hus, rfl⟩ := ih hp has
    obtain ⟨before, hbefore, ht⟩ := exists_blanks t
    rw [hs] at ht
    have hspaced := spaced_of_behind hw hafter
    exact ⟨before, (w ++ after) :: us, hbefore, .cons hspaced hus, by simpa using ht⟩
  | case5 => cases h
  | case6 => cases h

/-- An element is read whatever follows it. -/
theorem exists_read (hel : Reads f element.read (Behind P)) {front core : Text} {b : β}
    (hfront : IsBlanks front) (hcore : P b core) (more : Text) :
    ∃ a, element.read (front ++ core ++ more) = .ok (a, more) ∧ f a = some b :=
  (hel b _ more).mpr ⟨front ++ core, ⟨front, core, hfront, hcore, rfl⟩, rfl⟩

theorem readMore_of_spaced (hel : Reads f element.read (Behind P)) (hP : Solid P) (s : Sequence)
    {bs : List β} {us : List Text} (h : List.Forall₂ (Spaced P) bs us) {before : Text}
    (hbefore : IsBlanks before) (rest : Text) :
    ∃ as, readMore s element (before ++ (us.flatMap (',' :: ·) ++ s.close :: rest)) =
      .ok (as, rest) ∧ as.mapM f = some bs := by
  induction h generalizing before with
  | nil =>
    exact ⟨[], readMore_close element (skipBlanks_append_cons hbefore s.isBlank_close rest), rfl⟩
  | @cons b u bs us hu _ ih =>
    obtain ⟨front, core, back, hfront, hcore, hback, rfl⟩ := hu
    obtain ⟨as, has, hmap⟩ := ih hback
    obtain ⟨a, ha, hfa⟩ := exists_read hel hfront hcore
      (back ++ (us.flatMap (',' :: ·) ++ s.close :: rest))
    obtain ⟨c, core, rfl, hc, hclose⟩ := hP.exists_cons hcore
    have hs : skipBlanks (before ++ (((front ++ c :: core ++ back) :: us).flatMap (',' :: ·) ++
        s.close :: rest)) = ',' :: (front ++ c :: core ++ (back ++ (us.flatMap (',' :: ·) ++
          s.close :: rest))) := by
      rw [skipBlanks_append hbefore, List.flatMap_cons, List.cons_append, List.cons_append,
        skipBlanks_cons rfl, List.append_assoc, List.append_assoc]
    refine ⟨a :: as, ?_, mapM_cons_eq_some.mpr ⟨b, bs, hfa, hmap, rfl⟩⟩
    rw [readMore_comma hs _ ha, has]
    · rfl
    · rw [List.append_assoc, List.cons_append, skipBlanks_append_cons hfront hc]
      simpa using hclose s

theorem intercalate_cons (u : Text) (us : List Text) :
    [','].intercalate (u :: us) = u ++ us.flatMap (',' :: ·) := by
  induction us generalizing u with
  | nil => simp
  | cons v us ih =>
    rw [List.intercalate_cons_cons, ih]
    simp

theorem exists_of_readElements (hel : Reads f element.read (Behind P)) {s : Sequence}
    {t rest : Text} {as : List α} {bs : List β} (h : readElements s element t = .ok (as, rest))
    (hf : as.mapM f = some bs) : ∃ u, Separated P bs u ∧ t = u ++ [s.close] ++ rest := by
  obtain ⟨before, hbefore, ht⟩ := exists_blanks t
  unfold readElements at h
  split at h
  · cases h
  · next c u hs =>
    split at h
    · next hc =>
      obtain ⟨rfl, rfl⟩ := Prod.mk.inj (Except.ok.inj h)
      obtain rfl : [] = bs := Option.some.inj hf
      rw [hs, hc] at ht
      exact ⟨before, .empty hbefore, by simpa using ht⟩
    · split at h
      · next a r he =>
        obtain ⟨p, hp, h⟩ := exists_of_map_eq_ok h
        obtain ⟨rfl, rfl⟩ := Prod.mk.inj h
        obtain ⟨b, bs, ha, has, rfl⟩ := mapM_cons_eq_some.mp hf
        obtain ⟨w, ⟨front, core, hfront, hcore, rfl⟩, hw⟩ := (hel b _ r).mp ⟨a, he, ha⟩
        obtain ⟨after, us, hafter, hus, rfl⟩ := exists_of_readMore hel hp has
        have hfirst : Spaced P b (before ++ front ++ core ++ after) :=
          ⟨before ++ front, core, after, hbefore.append hfront, hcore, hafter, rfl⟩
        refine ⟨_, .elements (List.cons_ne_nil b bs) (.cons hfirst hus), ?_⟩
        rw [ht, hs, hw, intercalate_cons]
        simp
      · cases h

/-- The first element is read where its blanks end, and what follows it by `readMore`. -/
theorem readElements_cons {s : Sequence} {front rest : Text} {c : Char} {t : Text} {a : α}
    (hfront : IsBlanks front) (hc : isBlank c = false) (hclose : c ≠ s.close)
    (ha : element.read (c :: t) = .ok (a, rest)) :
    readElements s element (front ++ c :: t) =
      (readMore s element rest).map fun (as, rest) => (a :: as, rest) := by
  simp only [readElements, skipBlanks_append_cons hfront hc, if_neg hclose, ha]

theorem readElements_of_separated (hel : Reads f element.read (Behind P)) (hP : Solid P)
    (s : Sequence) {bs : List β} {u : Text} (h : Separated P bs u) (rest : Text) :
    ∃ as, readElements s element (u ++ [s.close] ++ rest) = .ok (as, rest) ∧
      as.mapM f = some bs := by
  cases h with
  | empty hblank =>
    have hs : skipBlanks (u ++ [s.close] ++ rest) = s.close :: rest := by
      rw [List.append_assoc]
      exact skipBlanks_append_cons hblank s.isBlank_close rest
    exact ⟨[], by simp only [readElements, hs, if_true], rfl⟩
  | elements hne h =>
    cases h with
    | nil => exact absurd rfl hne
    | @cons b u bs us hu hus =>
      obtain ⟨front, core, back, hfront, hcore, hback, rfl⟩ := hu
      obtain ⟨as, has, hmap⟩ := readMore_of_spaced hel hP s hus hback rest
      obtain ⟨a, ha, hfa⟩ := exists_read hel .nil hcore
        (back ++ (us.flatMap (',' :: ·) ++ s.close :: rest))
      obtain ⟨c, core, rfl, hc, hclose⟩ := hP.exists_cons hcore
      refine ⟨a :: as, ?_, mapM_cons_eq_some.mpr ⟨b, bs, hfa, hmap, rfl⟩⟩
      have hread := readElements_cons hfront hc (hclose s) ha
      rw [has] at hread
      rw [intercalate_cons]
      simpa [Except.map] using hread

/-- All elements of a list or an object, with the closing bracket. -/
theorem reads_readElements (hel : Reads f element.read (Behind P)) (hP : Solid P) (s : Sequence) :
    Reads (List.mapM f) (readElements s element)
      (fun bs w => ∃ u, Separated P bs u ∧ w = u ++ [s.close]) := by
  intro bs t rest
  constructor
  · intro h
    obtain ⟨as, h, hf⟩ := h
    obtain ⟨u, hu, ht⟩ := exists_of_readElements hel h hf
    exact ⟨_, ⟨u, hu, rfl⟩, ht⟩
  · intro h
    obtain ⟨w, ⟨u, hu, rfl⟩, rfl⟩ := h
    exact readElements_of_separated hel hP s hu rest

theorem exists_of_readMore_comma {s : Sequence} {t u rest : Text} {as : List α}
    (h : skipBlanks t = ',' :: u) (hread : readMore s element t = .ok (as, rest)) :
    ∃ a r as', element.read u = .ok (a, r) ∧ readMore s element r = .ok (as', rest) ∧
      as = a :: as' := by
  have hcomma : ',' ≠ s.close := by cases s <;> decide
  rw [readMore] at hread
  split at hread
  · next h' => simp [h] at h'
  · next c u' h' =>
    obtain ⟨rfl, rfl⟩ := List.cons.inj (h.symm.trans h')
    rw [if_neg hcomma, if_pos rfl] at hread
    split at hread
    · cases hread
    · split at hread
      · next a r ha =>
        obtain ⟨p, hp, he⟩ := exists_of_map_eq_ok hread
        obtain ⟨rfl, rfl⟩ := Prod.mk.inj he
        exact ⟨a, r, p.1, ha, hp, rfl⟩
      · cases hread

/-- Elements are read up to the last comma; what follows is read as one more. -/
theorem exists_read_of_readMore (hel : Reads f element.read (Behind P)) {s : Sequence}
    {bs : List β} {us : List Text} (h : List.Forall₂ (Spaced P) bs us) {before t rest : Text}
    (hbefore : IsBlanks before) {as : List α}
    (hread : readMore s element (before ++ (us.flatMap (',' :: ·) ++ ',' :: t)) = .ok (as, rest)) :
    ∃ a ∈ as, ∃ r, element.read t = .ok (a, r) := by
  induction h generalizing before as with
  | nil =>
    have hs : skipBlanks (before ++ ',' :: t) = ',' :: t := skipBlanks_append_cons hbefore rfl t
    obtain ⟨a, r, as', ha, -, rfl⟩ := exists_of_readMore_comma hs hread
    exact ⟨a, List.mem_cons_self, r, ha⟩
  | @cons b u bs us hu _ ih =>
    obtain ⟨front, core, back, hfront, hcore, hback, rfl⟩ := hu
    have hs : skipBlanks (before ++ (((front ++ core ++ back) :: us).flatMap (',' :: ·) ++
        ',' :: t)) = ',' :: (front ++ core ++ (back ++ (us.flatMap (',' :: ·) ++ ',' :: t))) := by
      rw [skipBlanks_append hbefore, List.flatMap_cons, List.cons_append, List.cons_append,
        skipBlanks_cons rfl, List.append_assoc, List.append_assoc]
    obtain ⟨a, r, as', ha, hmore, rfl⟩ := exists_of_readMore_comma hs hread
    obtain ⟨a', ha', -⟩ := exists_read hel hfront hcore
      (back ++ (us.flatMap (',' :: ·) ++ ',' :: t))
    rw [ha'] at ha
    obtain ⟨-, rfl⟩ := Prod.mk.inj (Except.ok.inj ha)
    obtain ⟨x, hx, r, hr⟩ := ih hback hmore
    exact ⟨x, List.mem_cons_of_mem a hx, r, hr⟩

theorem flatMap_append_comma (u : Text) (us : List Text) (t : Text) :
    (u :: us).flatMap (· ++ [',']) ++ t = u ++ (us.flatMap (',' :: ·) ++ ',' :: t) := by
  induction us generalizing u with
  | nil => simp
  | cons v us ih =>
    rw [List.flatMap_cons, List.append_assoc, ih v]
    simp

theorem exists_read_of_readElements (hel : Reads f element.read (Behind P)) (hP : Solid P)
    {s : Sequence} {bs : List β} {us : List Text} (h : List.Forall₂ (Spaced P) bs us)
    {before t rest : Text} {c : Char} (hbefore : IsBlanks before) (hc : isBlank c = false)
    (hclose : c ≠ s.close) {as : List α}
    (hread : readElements s element (us.flatMap (· ++ [',']) ++ (before ++ c :: t)) =
      .ok (as, rest)) :
    ∃ a ∈ as, ∃ before' r, IsBlanks before' ∧ element.read (before' ++ c :: t) = .ok (a, r) := by
  cases h with
  | nil =>
    have hs := skipBlanks_append_cons hbefore hc t
    simp only [List.flatMap_nil, List.nil_append, readElements, hs, if_neg hclose] at hread
    split at hread
    · next a r ha =>
      obtain ⟨p, -, he⟩ := exists_of_map_eq_ok hread
      obtain ⟨rfl, -⟩ := Prod.mk.inj he
      exact ⟨a, List.mem_cons_self, [], r, .nil, ha⟩
    · cases hread
  | @cons b u bs us hu hus =>
    obtain ⟨front, core, back, hfront, hcore, hback, rfl⟩ := hu
    rw [flatMap_append_comma] at hread
    obtain ⟨a, ha, -⟩ := exists_read hel .nil hcore
      (back ++ (us.flatMap (',' :: ·) ++ ',' :: (before ++ c :: t)))
    obtain ⟨d, core, rfl, hd, hd'⟩ := hP.exists_cons hcore
    have hfirst := readElements_cons hfront hd (hd' s) ha
    have hread' : (readMore s element (back ++ (us.flatMap (',' :: ·) ++ ',' ::
        (before ++ c :: t)))).map (fun (as, rest) => (a :: as, rest)) = .ok (as, rest) := by
      rw [← hfirst, ← hread]
      simp
    obtain ⟨p, hp, he⟩ := exists_of_map_eq_ok hread'
    obtain ⟨rfl, rfl⟩ := Prod.mk.inj he
    obtain ⟨x, hx, r, hr⟩ := exists_read_of_readMore hel hus hback hp
    exact ⟨x, List.mem_cons_of_mem a hx, before, r, hbefore, hr⟩

end MarkupTemplate.Json
