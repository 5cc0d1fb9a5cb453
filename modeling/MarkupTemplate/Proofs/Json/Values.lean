import MarkupTemplate.Proofs.Json.Sequences

/-!
Which texts are read as the values of bindings: scalars and, where one may be entered, lists. Other
values are read too, but not kept.
-/
namespace MarkupTemplate.Json

theorem IsString.solid {t w : Text} (h : IsString t w) : ∃ u, w = '"' :: u := by
  obtain ⟨us, -, rfl⟩ := h
  exact ⟨_, rfl⟩

theorem solid_isString : Solid IsString := by
  intro t w h
  obtain ⟨u, rfl⟩ := h.solid
  exact ⟨'"', by simp, u, rfl⟩

theorem solid_isValue : Solid IsValue := by
  intro v w h
  cases h with
  | absent => exact ⟨'n', by simp, _, rfl⟩
  | text h => exact solid_isString _ w h
  | list => exact ⟨'[', by simp, _, rfl⟩

theorem readWord_eq_ok_iff {word t rest : Text} :
    readWord word t = .ok rest ↔ t = word ++ rest := by
  induction word generalizing t with
  | nil => simp [readWord]
  | cons c word ih =>
    cases t with
    | nil => simp [readWord, stopAt]
    | cons d t =>
      by_cases hcd : c = d
      · simp [readWord, hcd, ih]
      · simp [readWord, hcd, stopIn, Ne.symm hcd]

theorem readQuoted_eq_ok_iff {t s rest : Text} :
    readQuoted t = .ok (s, rest) ↔ ∃ w, IsString s w ∧ '"' :: t = w ++ rest := by
  constructor
  · intro h
    obtain ⟨us, hus, rfl⟩ := exists_spells_of_readQuoted h
    exact ⟨_, ⟨us, hus, rfl⟩, by simp⟩
  · intro h
    obtain ⟨w, ⟨us, hus, rfl⟩, ht⟩ := h
    have ht' : t = us.flatten ++ '"' :: rest := by simpa using ht
    rw [ht', readQuoted_of_spells hus]

theorem readScalar_of_isString {t w : Text} (h : IsString t w) (rest : Text) :
    readScalar (w ++ rest) = .ok (.text t, rest) := by
  obtain ⟨u, rfl⟩ := h.solid
  have hq : readQuoted (u ++ rest) = .ok (t, rest) := readQuoted_eq_ok_iff.mpr ⟨_, h, rfl⟩
  simp [readScalar, hq, Except.map]

theorem exists_isValue_of_readScalar {t rest : Text} {x : Scalar} {v : Value}
    (h : readScalar t = .ok (x, rest)) (hv : x.value? = some v) :
    ∃ w, IsValue v w ∧ t = w ++ rest := by
  -- Booleans and numbers are read, but not kept.
  have refused {α : Type} {y : Except Stop α} {k : α → Scalar × Text}
      (hk : ∀ a, (k a).1.value? = none) : y.map k ≠ .ok (x, rest) := by
    intro h
    obtain ⟨a, -, he⟩ := exists_of_map_eq_ok h
    have hnone := hk a
    rw [he, hv] at hnone
    cases hnone
  cases t with
  | nil => cases h
  | cons c t =>
    simp only [readScalar] at h
    split at h
    · next hc =>
      obtain ⟨r, hr, he⟩ := exists_of_map_eq_ok h
      obtain ⟨rfl, rfl⟩ := Prod.mk.inj he
      obtain rfl : .absent = v := Option.some.inj hv
      rw [readWord_eq_ok_iff.mp hr, hc]
      exact ⟨_, .absent, rfl⟩
    · split at h
      · exact absurd h (refused fun _ => rfl)
      · split at h
        · exact absurd h (refused fun _ => rfl)
        · split at h
          · next hc =>
            obtain ⟨p, hp, he⟩ := exists_of_map_eq_ok h
            obtain ⟨rfl, rfl⟩ := Prod.mk.inj he
            obtain rfl : .text p.1 = v := Option.some.inj hv
            obtain ⟨w, hw, ht⟩ := readQuoted_eq_ok_iff.mp hp
            rw [hc]
            exact ⟨w, .text hw, ht⟩
          · split at h
            · exact absurd h (refused fun _ => rfl)
            · cases h

theorem readValueWith_scalar (inner : Option (Reader (Option Value))) {c : Char} {t u : Text}
    (h : skipBlanks t = c :: u) (hlist : c ≠ '[') (hobject : c ≠ '\x7b') :
    readValueWith inner t = (readScalar (c :: u)).map fun (v, rest) => (v.value?, rest) := by
  unfold readValueWith
  rw [h]
  split
  · next he => exact absurd (List.cons.inj he).1 hlist
  · next he => exact absurd (List.cons.inj he).1 hobject
  · rfl

theorem readValueWith_list (item : Reader (Option Value)) {t u : Text}
    (h : skipBlanks t = '[' :: u) :
    readValueWith (some item) t =
      (readElements .list item u).map fun (vs, rest) => (listValue? vs, rest) := by
  simp only [readValueWith, h]

/-- A value that is kept is a scalar or, if one may be entered, a list. -/
theorem cases_of_readValueWith {inner : Option (Reader (Option Value))} {t rest : Text} {v : Value}
    (h : readValueWith inner t = .ok (some v, rest)) :
    (∃ x, readScalar (skipBlanks t) = .ok (x, rest) ∧ x.value? = some v) ∨
      ∃ item u vs, inner = some item ∧ skipBlanks t = '[' :: u ∧
        readElements .list item u = .ok (vs, rest) ∧ listValue? vs = some v := by
  unfold readValueWith at h
  split at h
  · next u hs =>
    cases inner with
    | none => cases h
    | some item =>
      obtain ⟨p, hp, he⟩ := exists_of_map_eq_ok h
      obtain ⟨hv, rfl⟩ := Prod.mk.inj he
      exact .inr ⟨item, u, p.1, rfl, hs, hp, hv⟩
  · cases inner with
    | none => cases h
    | some value =>
      obtain ⟨p, -, he⟩ := exists_of_map_eq_ok h
      cases he
  · obtain ⟨p, hp, he⟩ := exists_of_map_eq_ok h
    obtain ⟨hv, rfl⟩ := Prod.mk.inj he
    exact .inl ⟨p.1, hp, hv⟩

theorem listValue?_eq_some_iff {vs : List (Option Value)} {v : Value} :
    listValue? vs = some v ↔ ∃ ts, vs.mapM itemText? = some ts ∧ .list ts = v :=
  Option.map_eq_some_iff

theorem itemText?_eq_some_iff {v : Option Value} {t : Text} :
    itemText? v = some t ↔ v = some (.text t) := by
  unfold itemText?
  split <;> simp_all

/-- An item of a list may be any value; if it is kept, it is a string. -/
theorem reads_item (inner : Option (Reader (Option Value))) :
    Reads itemText? (readValueWith inner) (Behind IsString) := by
  intro t s rest
  constructor
  · intro h
    obtain ⟨v, h, hv⟩ := h
    obtain rfl := itemText?_eq_some_iff.mp hv
    obtain ⟨before, hbefore, hs⟩ := exists_blanks s
    rcases cases_of_readValueWith h with ⟨x, hx, hv⟩ | ⟨_, _, vs, _, _, _, hvs⟩
    · obtain ⟨w, hw, ht⟩ := exists_isValue_of_readScalar hx hv
      rw [ht] at hs
      cases hw with
      | text hw => exact ⟨before ++ w, ⟨before, w, hbefore, hw, rfl⟩, by simpa using hs⟩
    · obtain ⟨ts, -, hts⟩ := listValue?_eq_some_iff.mp hvs
      cases hts
  · intro h
    obtain ⟨w, ⟨before, u, hbefore, hu, rfl⟩, rfl⟩ := h
    have hread := readScalar_of_isString hu rest
    obtain ⟨v, rfl⟩ := hu.solid
    have hs : skipBlanks (before ++ '"' :: v ++ rest) = '"' :: (v ++ rest) := by
      rw [List.append_assoc, List.cons_append, skipBlanks_append_cons hbefore rfl]
    refine ⟨some (.text t), ?_, rfl⟩
    rw [readValueWith_scalar inner hs (by decide) (by decide)]
    rw [List.cons_append] at hread
    rw [hread]
    rfl

theorem exists_isValue_of_readValueWith {item : Reader (Option Value)}
    (hitem : Reads itemText? item.read (Behind IsString)) {v : Value} {t rest : Text}
    (h : readValueWith (some item) t = .ok (some v, rest)) :
    ∃ w, Behind IsValue v w ∧ t = w ++ rest := by
  obtain ⟨before, hbefore, ht⟩ := exists_blanks t
  rcases cases_of_readValueWith h with ⟨x, hx, hv⟩ | ⟨item', u, vs, he, hs, hread, hvs⟩
  · obtain ⟨w, hw, hs⟩ := exists_isValue_of_readScalar hx hv
    rw [hs] at ht
    exact ⟨before ++ w, ⟨before, w, hbefore, hw, rfl⟩, by simpa using ht⟩
  · obtain rfl := Option.some.inj he
    obtain ⟨ts, hts, rfl⟩ := listValue?_eq_some_iff.mp hvs
    have hitems := reads_readElements hitem solid_isString .list
    obtain ⟨w, ⟨m, hm, rfl⟩, rfl⟩ := (hitems ts u rest).mp ⟨vs, hread, hts⟩
    rw [hs] at ht
    refine ⟨before ++ ('[' :: m ++ [']']), ⟨before, _, hbefore, .list hm, rfl⟩, ?_⟩
    simpa [Sequence.close] using ht

theorem readValueWith_of_isValue {item : Reader (Option Value)}
    (hitem : Reads itemText? item.read (Behind IsString)) {v : Value} {u before : Text}
    (hbefore : IsBlanks before) (hu : IsValue v u) (rest : Text) :
    readValueWith (some item) (before ++ u ++ rest) = .ok (some v, rest) := by
  have hs : ∀ {c u'}, u = c :: u' → isBlank c = false →
      skipBlanks (before ++ u ++ rest) = c :: (u' ++ rest) := by
    intro c u' he hc
    rw [List.append_assoc, he, List.cons_append, skipBlanks_append_cons hbefore hc]
  cases hu with
  | absent =>
    rw [readValueWith_scalar _ (hs rfl rfl) (by decide) (by decide)]
    rfl
  | @text t _ ht =>
    have hread := readScalar_of_isString ht rest
    obtain ⟨u', rfl⟩ := ht.solid
    rw [List.cons_append] at hread
    rw [readValueWith_scalar _ (hs rfl rfl) (by decide) (by decide), hread]
    rfl
  | @list ts m hm =>
    have hitems := reads_readElements hitem solid_isString .list
    obtain ⟨vs, hread, hts⟩ := (hitems ts _ rest).mpr ⟨m ++ [']'], ⟨m, hm, rfl⟩, rfl⟩
    have hvs := listValue?_eq_some_iff.mpr ⟨ts, hts, rfl⟩
    rw [readValueWith_list item (hs rfl rfl), ← hvs]
    exact congrArg (Except.map _) hread

theorem reads_valueReader_item (levels : Nat) :
    Reads itemText? (valueReader levels).read (Behind IsString) := by
  cases levels with
  | zero => exact reads_item none
  | succ levels => exact reads_item (some (valueReader levels))

/-- Where one list may be entered, the values of bindings are read. -/
theorem valueReader_eq_ok_iff (levels : Nat) {v : Value} {t rest : Text} :
    (valueReader (levels + 1)).read t = .ok (some v, rest) ↔
      ∃ w, Behind IsValue v w ∧ t = w ++ rest := by
  have hitem := reads_valueReader_item levels
  constructor
  · exact exists_isValue_of_readValueWith hitem
  · intro h
    obtain ⟨w, ⟨before, u, hbefore, hu, rfl⟩, rfl⟩ := h
    exact readValueWith_of_isValue hitem hbefore hu rest

end MarkupTemplate.Json
