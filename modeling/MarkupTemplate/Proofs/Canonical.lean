import MarkupTemplate.Selector

/-!
The canonical text of a selector, and when it is read as that selector. Reading drops the
separators of empty parts, and the text does not show them again, so that what stood before one can
become a mark.
-/
namespace MarkupTemplate

namespace Text

variable {c : Char} {t before after : Text}

theorem cutFirst?_of_not_mem (h : c ∉ before) (after : Text) :
    cutFirst? [c] (before ++ c :: after) = some (before, after) := by
  induction before with
  | nil => simp [cutFirst?, List.isPrefixOf]
  | cons b before ih =>
    obtain ⟨hb, hbefore⟩ := List.ne_and_not_mem_of_not_mem_cons h
    simp [cutFirst?, List.isPrefixOf, hb, ih hbefore]

theorem cutFirst?_eq_none (h : c ∉ t) : cutFirst? [c] t = none := by
  induction t with
  | nil => simp [cutFirst?]
  | cons b t ih =>
    obtain ⟨hb, ht⟩ := List.ne_and_not_mem_of_not_mem_cons h
    simp [cutFirst?, List.isPrefixOf, hb, ih ht]

theorem cutLast?_eq_none (h : c ∉ t) : cutLast? [c] t = none := by
  induction t with
  | nil => simp [cutLast?]
  | cons b t ih =>
    obtain ⟨hb, ht⟩ := List.ne_and_not_mem_of_not_mem_cons h
    simp [cutLast?, List.isPrefixOf, hb, ih ht]

theorem cutLast?_of_not_mem (h : c ∉ after) (before : Text) :
    cutLast? [c] (before ++ c :: after) = some (before, after) := by
  induction before with
  | nil => simp [cutLast?, List.isPrefixOf, cutLast?_eq_none h]
  | cons b before ih => simp [cutLast?, ih]

theorem exists_last_of_mem (h : c ∈ t) : ∃ before after, t = before ++ c :: after ∧ c ∉ after := by
  obtain ⟨back, front, hback, hmem⟩ := List.eq_append_cons_of_mem (List.mem_reverse.mpr h)
  refine ⟨front.reverse, back.reverse, ?_, by simpa using hmem⟩
  rw [← t.reverse_reverse, hback]
  simp

end Text

namespace Selector

@[simp] theorem Part.ofText?_nil : Part.ofText? [] = none := rfl

@[simp] theorem Part.elim_ofText? (t : Text) : (Part.ofText? t).elim [] (·.val) = t := by
  cases t with
  | nil => rfl
  | cons c t => rfl

@[simp] theorem Part.ofText?_elim (p : Option Part) : Part.ofText? (p.elim [] (·.val)) = p := by
  cases p with
  | none => rfl
  | some p => exact Part.ofText?_val p

theorem Part.ofText?_eq_some {t : Text} {p : Part} (h : Part.ofText? t = some p) : t = p.val := by
  rw [← Part.elim_ofText? t, h]
  rfl

namespace Target

/-- The part that ends before the first dot. -/
def front : Target → Text
  | .element name _ => name.elim [] (·.val)
  | .id value => value.val

/-- A name without a class that has the mark of an id. -/
def HasHash (target : Target) : Prop :=
  ∃ name, target = .element (some name) none ∧ name.val.head? = some '#'

theorem parse_append_dot {name : Text} (h : '.' ∉ name) (className : Text) :
    parse (name ++ '.' :: className) =
      .element (Part.ofText? name) (Part.ofText? className) := by
  simp only [parse, Text.cutFirst?_of_not_mem h]

theorem parse_hash {value : Text} (h : '.' ∉ value) :
    parse ('#' :: value) = (Part.ofText? value).elim (.element none none) .id := by
  have hhash : '.' ∉ '#' :: value := by simpa using h
  simp only [parse, Text.cutFirst?_eq_none hhash]

theorem parse_name {name : Text} (h : '.' ∉ name) (hhash : name.head? ≠ some '#') :
    parse name = .element (Part.ofText? name) none := by
  simp only [parse, Text.cutFirst?_eq_none h]
  split
  · exact absurd rfl hhash
  · rfl

/-- The three forms of a target: with a dot, as an id and as a name. -/
theorem parse_cases (t : Text) :
    (∃ name className, '.' ∉ name ∧ t = name ++ '.' :: className) ∨
      (∃ value, '.' ∉ value ∧ t = '#' :: value) ∨ ('.' ∉ t ∧ t.head? ≠ some '#') := by
  by_cases hdot : '.' ∈ t
  · obtain ⟨name, className, ht, hname⟩ := List.eq_append_cons_of_mem hdot
    exact .inl ⟨name, className, hname, ht⟩
  · by_cases hhash : t.head? = some '#'
    · obtain ⟨value, ht⟩ := List.head?_eq_some_iff.mp hhash
      subst ht
      exact .inr (.inl ⟨value, by simpa using hdot, rfl⟩)
    · exact .inr (.inr ⟨hdot, hhash⟩)

theorem not_mem_front_parse (t : Text) : '.' ∉ (parse t).front := by
  obtain ⟨name, className, hname, rfl⟩ | ⟨value, hvalue, rfl⟩ | ⟨hdot, hhash⟩ := parse_cases t
  · rw [parse_append_dot hname]
    simpa [front] using hname
  · rw [parse_hash hvalue]
    cases hpart : Part.ofText? value with
    | none => simp [front]
    | some part => simpa [front, ← Part.ofText?_eq_some hpart] using hvalue
  · rw [parse_name hdot hhash]
    simpa [front] using hdot

/-- Only separators of empty parts get lost. -/
theorem length_render_parse_le (t : Text) : (parse t).render.length ≤ t.length := by
  obtain ⟨name, className, hname, rfl⟩ | ⟨value, hvalue, rfl⟩ | ⟨hdot, hhash⟩ := parse_cases t
  · rw [parse_append_dot hname]
    cases hpart : Part.ofText? className with
    | none => simp [render]
    | some part => simp [render, Part.ofText?_eq_some hpart]
  · rw [parse_hash hvalue]
    cases hpart : Part.ofText? value with
    | none => simp [render]
    | some part => simp [render, Part.ofText?_eq_some hpart]
  · rw [parse_name hdot hhash]
    simp [render]

theorem parse_render {target : Target} (h : '.' ∉ target.front) (hhash : ¬target.HasHash) :
    parse target.render = target := by
  cases target with
  | id value =>
    have hdot : '.' ∉ value.val := h
    have hparse := parse_hash hdot
    simpa [render] using hparse
  | element name className =>
    cases className with
    | some className =>
      have hparse := parse_append_dot h className.val
      rwa [front, Part.ofText?_elim, Part.ofText?_val] at hparse
    | none =>
      have hname : (name.elim [] (·.val)).head? ≠ some '#' := by
        intro hhead
        cases name with
        | none => cases hhead
        | some name => exact hhash ⟨name, rfl, hhead⟩
      have hparse := parse_name h hname
      simpa [render, front] using hparse

/-- Such a name is read as an id. -/
theorem parse_render_ne {target : Target} (h : '.' ∉ target.front) (hhash : target.HasHash) :
    parse target.render ≠ target := by
  obtain ⟨name, rfl, hhead⟩ := hhash
  obtain ⟨value, hvalue⟩ := List.head?_eq_some_iff.mp hhead
  have hdot : '.' ∉ value := by
    have hname : '.' ∉ name.val := h
    rw [hvalue] at hname
    exact List.not_mem_of_not_mem_cons hname
  have hrender : (element (some name) none).render = '#' :: value := by simp [render, hvalue]
  rw [hrender, parse_hash hdot]
  cases Part.ofText? value with
  | none => simp
  | some part => simp

end Target

theorem splitEmbed_append (t : Text) : splitEmbed (t ++ ['!']) = (t, true) := by
  simp [splitEmbed]

theorem splitEmbed_of_getLast?_ne {t : Text} (h : t.getLast? ≠ some '!') :
    splitEmbed t = (t, false) := by
  rw [splitEmbed, if_neg h]

theorem getLast?_ne_of_splitEmbed {t u : Text} (h : splitEmbed t = (u, false)) :
    u.getLast? ≠ some '!' := by
  unfold splitEmbed at h
  split at h
  · cases h
  · next hlast =>
    cases h
    exact hlast

theorem splitAttr_append {attr : Text} (h : ':' ∉ attr) (front : Text) :
    splitAttr (front ++ ':' :: attr) = (front, Part.ofText? attr) := by
  rw [splitAttr, Text.cutLast?_of_not_mem h]

theorem splitAttr_of_not_mem {t : Text} (h : ':' ∉ t) : splitAttr t = (t, none) := by
  rw [splitAttr, Text.cutLast?_eq_none h]

theorem parse_eq {t u front : Text} {embed : Bool} {attr : Option Part}
    (hembed : splitEmbed t = (u, embed)) (hattr : splitAttr u = (front, attr)) :
    parse t = ⟨.parse front, attr, embed⟩ := by
  simp only [parse, hembed, hattr]

theorem getLast?_append_part (front : Text) (c : Char) (part : Part) :
    (front ++ c :: part.val).getLast? = part.val.getLast? := by
  obtain ⟨last, hlast⟩ := Option.isSome_iff_exists.mp (List.getLast?_isSome.mpr part.property)
  simp [List.getLast?_cons, hlast]

/-- What a selector has if it comes from a text: no separator is left that reading looks for. -/
structure IsParsed (s : Selector) : Prop where
  not_mem_front : '.' ∉ s.target.front
  not_mem_attr : ∀ attr, s.attr = some attr → ':' ∉ attr.val
  getLast?_attr : ∀ attr, s.attr = some attr → s.embed = false → attr.val.getLast? ≠ some '!'

theorem isParsed_parse (t : Text) : (parse t).IsParsed := by
  obtain ⟨u, embed, hembed⟩ : ∃ u embed, splitEmbed t = (u, embed) := ⟨_, _, rfl⟩
  by_cases hcolon : ':' ∈ u
  · obtain ⟨front, attr, rfl, hattr⟩ := Text.exists_last_of_mem hcolon
    rw [parse_eq hembed (splitAttr_append hattr front)]
    refine ⟨Target.not_mem_front_parse front, ?_, ?_⟩
    · intro part hpart
      rwa [← Part.ofText?_eq_some hpart]
    · rintro part hpart rfl
      rw [Part.ofText?_eq_some hpart] at hembed
      rw [← getLast?_append_part front ':' part]
      exact getLast?_ne_of_splitEmbed hembed
  · rw [parse_eq hembed (splitAttr_of_not_mem hcolon)]
    exact ⟨Target.not_mem_front_parse u, by simp, by simp⟩

/-- In the text of the selector a character of the target is a mark. -/
inductive Misread (s : Selector) : Prop where
  | colon (hattr : s.attr = none) (h : ':' ∈ s.target.render)
  | bang (hattr : s.attr = none) (hembed : s.embed = false)
      (h : s.target.render.getLast? = some '!')
  | hash (h : s.target.HasHash)

variable {s : Selector}

theorem splitEmbed_render (h : s.IsParsed)
    (hbang : s.attr = none → s.embed = false → s.target.render.getLast? ≠ some '!') :
    splitEmbed s.render = (s.target.render ++ s.attr.elim [] (':' :: ·.val), s.embed) := by
  cases hembed : s.embed with
  | true =>
    rw [render, hembed, if_pos rfl, splitEmbed_append]
  | false =>
    rw [render, hembed, if_neg (by decide), List.append_nil]
    refine splitEmbed_of_getLast?_ne ?_
    cases hattr : s.attr with
    | none => simpa using hbang hattr hembed
    | some attr =>
      rw [Option.elim_some, getLast?_append_part]
      exact h.getLast?_attr attr hattr hembed

/-- Without another colon or exclamation mark, only the target can be another one. -/
theorem parse_render (h : s.IsParsed) (hcolon : s.attr = none → ':' ∉ s.target.render)
    (hbang : s.attr = none → s.embed = false → s.target.render.getLast? ≠ some '!') :
    parse s.render = ⟨.parse s.target.render, s.attr, s.embed⟩ := by
  refine parse_eq (splitEmbed_render h hbang) ?_
  cases hattr : s.attr with
  | none => simpa using splitAttr_of_not_mem (hcolon hattr)
  | some attr =>
    have hsplit := splitAttr_append (h.not_mem_attr attr hattr) s.target.render
    simpa using hsplit

theorem parse_render_ne_of_bang (hattr : s.attr = none) (hembed : s.embed = false)
    (h : s.target.render.getLast? = some '!') : parse s.render ≠ s := by
  intro heq
  obtain ⟨t, ht⟩ := List.getLast?_eq_some_iff.mp h
  have hrender : s.render = t ++ ['!'] := by simp [render, hattr, hembed, ht]
  have htrue : (parse s.render).embed = true := by
    rw [hrender, parse_eq (splitEmbed_append t) rfl]
  rw [heq, hembed] at htrue
  cases htrue

/-- What is in front of the colon is too short for the text of the target. -/
theorem parse_render_ne_of_colon (hp : s.IsParsed) (hattr : s.attr = none)
    (h : ':' ∈ s.target.render) : parse s.render ≠ s := by
  by_cases hbang : s.embed = false ∧ s.target.render.getLast? = some '!'
  · exact parse_render_ne_of_bang hattr hbang.1 hbang.2
  · intro heq
    obtain ⟨front, attr, hrender, hmem⟩ := Text.exists_last_of_mem h
    have hembed := splitEmbed_render hp fun _ hfalse hlast => hbang ⟨hfalse, hlast⟩
    rw [hattr, Option.elim_none, List.append_nil, hrender] at hembed
    have hparse := parse_eq hembed (splitAttr_append hmem front)
    have htarget : s.target = .parse front := by rw [← heq, hparse]
    have hlength := Target.length_render_parse_le front
    rw [← htarget, hrender] at hlength
    simp only [List.length_append, List.length_cons] at hlength
    omega

/--
The text of a selector that was read gives it again, unless a character of its target has become a
mark there: a colon or a last `!` that no attribute follows, or a first `#` that no class follows.
-/
theorem parse_render_parse_iff (t : Text) :
    parse (parse t).render = parse t ↔ ¬(parse t).Misread := by
  have hp := isParsed_parse t
  constructor
  · intro heq hmisread
    cases hmisread with
    | colon hattr h => exact parse_render_ne_of_colon hp hattr h heq
    | bang hattr hembed h => exact parse_render_ne_of_bang hattr hembed h heq
    | hash h =>
      -- The other two marks cannot be in the text if it is read back.
      have hcolon := fun hattr hmem => parse_render_ne_of_colon hp hattr hmem heq
      have hbang := fun hattr hembed hlast => parse_render_ne_of_bang hattr hembed hlast heq
      have htarget : Target.parse (parse t).target.render = (parse t).target := by
        rw [parse_render hp hcolon hbang] at heq
        exact congrArg Selector.target heq
      exact Target.parse_render_ne hp.not_mem_front h htarget
  · intro hclean
    rw [parse_render hp (fun hattr h => hclean (.colon hattr h))
      (fun hattr hembed h => hclean (.bang hattr hembed h)),
      Target.parse_render hp.not_mem_front (fun h => hclean (.hash h))]

/-- A mark that nothing followed can leave each of the three behind. -/
example : ∀ t ∈ [['a', ':', 'b', ':'], ['a', '!', ':'], ['#', 'a', '.']],
    parse (parse t).render ≠ parse t := by
  decide

end Selector

end MarkupTemplate
