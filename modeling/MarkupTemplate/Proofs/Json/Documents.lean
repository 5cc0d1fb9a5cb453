import MarkupTemplate.Proofs.Json.Values
import MarkupTemplate.Session

/-!
Which texts are read as bindings: those of the grammar, each as what it denotes, and no others. A
member with another value is enough to refuse a text.
-/
namespace MarkupTemplate.Json

theorem solid_isMember : Solid IsMember := by
  intro b w h
  cases h with
  | intro hkey =>
    obtain ⟨u, rfl⟩ := hkey.solid
    exact ⟨'"', by simp, _, rfl⟩

theorem readBound_eq_ok_iff {v : Value} {t rest : Text} :
    readBound t = .ok (v, rest) ↔ ∃ w, Behind IsValue v w ∧ t = w ++ rest := by
  rw [← valueReader_eq_ok_iff (maxLevels - 2)]
  have hlevels : maxLevels - 2 + 1 = maxLevels - 1 := rfl
  rw [hlevels, readBound]
  split <;> simp_all [stopAt]

/-- A key is read up to its colon, and a value behind that. -/
theorem readMember_key {k before key gap : Text} (hbefore : IsBlanks before)
    (hkey : IsString k key) (hgap : IsBlanks gap) (rest : Text) :
    readMember boundReader (before ++ (key ++ (gap ++ ':' :: rest))) =
      (readBound rest).map fun (v, rest) => ((k, v), rest) := by
  have hq : ∀ u, key = '"' :: u → readQuoted (u ++ (gap ++ ':' :: rest)) =
      .ok (k, gap ++ ':' :: rest) := by
    intro u hu
    exact readQuoted_eq_ok_iff.mpr ⟨key, hkey, by rw [hu]; rfl⟩
  obtain ⟨u, rfl⟩ := hkey.solid
  have hs : skipBlanks (before ++ ('"' :: u ++ (gap ++ ':' :: rest))) =
      '"' :: (u ++ (gap ++ ':' :: rest)) := by
    rw [List.cons_append, skipBlanks_append_cons hbefore rfl]
  have hcolon := skipBlanks_append_cons hgap (c := ':') rfl rest
  simp only [readMember, hs, hq u rfl, hcolon, boundReader]

theorem readMember_of_isMember {b : Binding} {u before : Text} (hbefore : IsBlanks before)
    (hu : IsMember b u) (rest : Text) :
    readMember boundReader (before ++ u ++ rest) = .ok ((b.selector, b.value), rest) := by
  cases hu with
  | @intro key gap gap' value hkey hgap hgap' hvalue =>
    have hv : readBound (gap' ++ value ++ rest) = .ok (b.value, rest) :=
      readBound_eq_ok_iff.mpr ⟨_, ⟨gap', value, hgap', hvalue, rfl⟩, rfl⟩
    have hread := readMember_key hbefore hkey hgap (gap' ++ value ++ rest)
    rw [hv] at hread
    simpa [Except.map] using hread

theorem exists_isMember_of_readMember {k : Text} {v : Value} {t rest : Text}
    (h : readMember boundReader t = .ok ((k, v), rest)) :
    ∃ w, Behind IsMember ⟨k, v⟩ w ∧ t = w ++ rest := by
  obtain ⟨before, hbefore, ht⟩ := exists_blanks t
  unfold readMember at h
  split at h
  · cases h
  · next t' hs =>
    split at h
    · next key rest' hq =>
      obtain ⟨w, hw, ht'⟩ := readQuoted_eq_ok_iff.mp hq
      obtain ⟨gap, hgap, hrest⟩ := exists_blanks rest'
      split at h
      · cases h
      · next r hc =>
        obtain ⟨p, hp, he⟩ := exists_of_map_eq_ok h
        obtain ⟨hkv, rfl⟩ := Prod.mk.inj he
        obtain ⟨rfl, rfl⟩ := Prod.mk.inj hkv
        obtain ⟨x, ⟨gap', value, hgap', hvalue, rfl⟩, rfl⟩ := readBound_eq_ok_iff.mp hp
        have hmember : IsMember ⟨key, p.1⟩ (w ++ gap ++ ':' :: gap' ++ value) :=
          .intro hw hgap hgap' hvalue
        refine ⟨_, ⟨before, _, hbefore, hmember, rfl⟩, ?_⟩
        rw [ht, hs, ht', hrest, hc]
        simp
      · cases h
    · cases h
  · cases h

theorem reads_memberReader :
    Reads (fun m : Text × Value => some (⟨m.1, m.2⟩ : Binding)) (memberReader boundReader).read
      (Behind IsMember) := by
  intro b t rest
  constructor
  · intro h
    obtain ⟨⟨k, v⟩, h, hb⟩ := h
    obtain rfl : (⟨k, v⟩ : Binding) = b := Option.some.inj hb
    exact exists_isMember_of_readMember h
  · intro h
    obtain ⟨w, ⟨before, u, hbefore, hu, rfl⟩, rfl⟩ := h
    exact ⟨(b.selector, b.value), readMember_of_isMember hbefore hu rest, rfl⟩

theorem expectEnd_eq_ok_iff {t : Text} : expectEnd t = .ok () ↔ IsBlanks t := by
  have hskip : skipBlanks t = [] ↔ IsBlanks t := by
    rw [skipBlanks, List.dropWhile_eq_nil_iff]
    exact forall₂_congr fun c _ => isBlank_iff
  rw [← hskip, expectEnd]
  split <;> simp_all [stopIn]

theorem readObject_eq_ok_iff {bs : Bindings} {t rest : Text} :
    readObject t = .ok (bs, rest) ↔ ∃ w, Behind IsObject bs w ∧ t = w ++ rest := by
  have hmembers := reads_readElements reads_memberReader solid_isMember .object
  have hmap : ∀ ms : List (Text × Value),
      ms.mapM (fun m => some (⟨m.1, m.2⟩ : Binding)) = some (ms.map fun m => ⟨m.1, m.2⟩) :=
    fun ms => List.mapM_pure
  constructor
  · intro h
    obtain ⟨before, hbefore, ht⟩ := exists_blanks t
    unfold readObject at h
    split at h
    · next u hs =>
      obtain ⟨p, hp, he⟩ := exists_of_map_eq_ok h
      obtain ⟨rfl, rfl⟩ := Prod.mk.inj he
      obtain ⟨w, ⟨m, hm, rfl⟩, rfl⟩ := (hmembers _ u _).mp ⟨p.1, hp, hmap p.1⟩
      rw [hs] at ht
      refine ⟨_, ⟨before, _, hbefore, .intro hm, rfl⟩, ?_⟩
      simpa [Sequence.close] using ht
    · cases h
    · split at h <;> cases h
  · intro h
    obtain ⟨w, ⟨before, u, hbefore, hu, rfl⟩, rfl⟩ := h
    cases hu with
    | @intro m hm =>
      obtain ⟨ms, hread, hms⟩ := (hmembers bs _ rest).mpr ⟨m ++ ['\x7d'], ⟨m, hm, rfl⟩, rfl⟩
      have hs : skipBlanks (before ++ ('\x7b' :: m ++ ['\x7d']) ++ rest) =
          '\x7b' :: (m ++ ['\x7d'] ++ rest) := by
        rw [List.append_assoc, List.cons_append, List.cons_append,
          skipBlanks_append_cons hbefore rfl]
      rw [hmap] at hms
      have hbs : ms.map (fun m => ⟨m.1, m.2⟩) = bs := Option.some.inj hms
      simp only [readObject, hs, hread, ← hbs]
      rfl

theorem readBindings_eq_ok_iff {bs : Bindings} {t : Text} :
    readBindings t = .ok bs ↔ IsDocument bs t := by
  constructor
  · intro h
    unfold readBindings at h
    split at h
    · cases h
    · next bs' rest hobject =>
      split at h
      · cases h
      · next hend =>
        obtain rfl := Except.ok.inj h
        obtain ⟨w, ⟨before, u, hbefore, hu, rfl⟩, rfl⟩ := readObject_eq_ok_iff.mp hobject
        exact ⟨before, u, rest, hbefore, hu, expectEnd_eq_ok_iff.mp hend, rfl⟩
  · intro h
    obtain ⟨before, u, after, hbefore, hu, hafter, rfl⟩ := h
    have hobject : readObject (before ++ u ++ after) = .ok (bs, after) :=
      readObject_eq_ok_iff.mpr ⟨_, ⟨before, u, hbefore, hu, rfl⟩, rfl⟩
    simp only [readBindings, hobject, expectEnd_eq_ok_iff.mpr hafter]

theorem readValue_eq_ok_iff {v : Value} {t : Text} : readValue t = .ok v ↔ Spaced IsValue v t := by
  have hlevels : maxLevels - 1 + 1 = maxLevels := rfl
  have hread : ∀ rest, (valueReader maxLevels).read t = .ok (some v, rest) ↔
      ∃ w, Behind IsValue v w ∧ t = w ++ rest := by
    intro rest
    rw [← hlevels]
    exact valueReader_eq_ok_iff (maxLevels - 1)
  constructor
  · intro h
    unfold readValue at h
    split at h
    · cases h
    · cases h
    · next v' rest hv =>
      split at h
      · cases h
      · next hend =>
        obtain rfl := Except.ok.inj h
        obtain ⟨w, ⟨before, u, hbefore, hu, rfl⟩, rfl⟩ := (hread rest).mp hv
        exact ⟨before, u, rest, hbefore, hu, expectEnd_eq_ok_iff.mp hend, rfl⟩
  · intro h
    obtain ⟨before, u, after, hbefore, hu, hafter, ht⟩ := h
    have hv := (hread after).mpr ⟨_, ⟨before, u, hbefore, hu, rfl⟩, ht⟩
    simp only [readValue, hv, expectEnd_eq_ok_iff.mpr hafter]

theorem ne_of_mem_otherStarts {c : Char} (hc : c ∈ otherStarts) :
    isBlank c = false ∧ c ∉ ['"', '[', 'n'] := by
  have hall : otherStarts.all (fun c => isBlank c = false ∧ c ∉ ['"', '[', 'n']) = true := by
    decide
  exact of_decide_eq_true (List.all_eq_true.mp hall c hc)

theorem ne_of_mem_itemStarts {c : Char} (hc : c ∈ 'n' :: '[' :: otherStarts) :
    isBlank c = false ∧ c ≠ Sequence.list.close ∧ c ≠ '"' := by
  have hall : ('n' :: '[' :: otherStarts).all
      (fun c => isBlank c = false ∧ c ≠ Sequence.list.close ∧ c ≠ '"') = true := by
    decide
  exact of_decide_eq_true (List.all_eq_true.mp hall c hc)

/-- A list with another value behind its first strings is no list of strings. -/
theorem not_separated_of_item {ts us : List Text} {before t u rest : Text} {c : Char}
    (h : List.Forall₂ (Spaced IsString) ts us) (hbefore : IsBlanks before)
    (hc : c ∈ 'n' :: '[' :: otherStarts)
    (he : us.flatMap (· ++ [',']) ++ (before ++ c :: t) = u ++ [']'] ++ rest) (vs : List Text) :
    ¬ Separated IsString vs u := by
  intro hu
  obtain ⟨hblank, hclose, hquote⟩ := ne_of_mem_itemStarts hc
  have hitem := reads_valueReader_item 0
  obtain ⟨as, hread, hmap⟩ := readElements_of_separated hitem solid_isString .list hu rest
  have hread' : readElements .list (valueReader 0) (u ++ [']'] ++ rest) = .ok (as, rest) := hread
  rw [← he] at hread'
  obtain ⟨a, ha, gap, r, hgap, hr⟩ :=
    exists_read_of_readElements hitem solid_isString h hbefore hblank hclose hread'
  obtain ⟨s, hs⟩ := exists_of_mem_mapM hmap a ha
  obtain ⟨w, hw, heq⟩ := (hitem s _ r).mp ⟨a, hr, hs⟩
  obtain ⟨v, hv, hcv⟩ := hw.exists_eq_append solid_isString hgap hblank heq
  obtain ⟨v, rfl⟩ := hv.solid
  exact hquote (List.cons.inj hcv).1

/-- No value of a binding is read where another value begins. -/
theorem readBound_of_beginsOther {t gap rest : Text} {v : Value} (h : BeginsOther t)
    (hgap : IsBlanks gap) : readBound (gap ++ t) ≠ .ok (v, rest) := by
  intro hread
  obtain ⟨w, hw, he⟩ := readBound_eq_ok_iff.mp hread
  cases h with
  | @scalar c t hc =>
    obtain ⟨hblank, hnot⟩ := ne_of_mem_otherStarts hc
    obtain ⟨u, hu, hcu⟩ := hw.exists_eq_append solid_isValue hgap hblank he
    obtain ⟨d, hd, u, rfl⟩ := solid_isValue v u hu
    exact hnot ((List.cons.inj hcu).1 ▸ hd)
  | @item ts us before t c hus hbefore hc =>
    obtain ⟨u, hu, hcu⟩ := hw.exists_eq_append solid_isValue hgap rfl he
    cases hu with
    | absent => simp at hcu
    | text hu =>
      obtain ⟨u, rfl⟩ := hu.solid
      simp at hcu
    | @list vs m hm =>
      have hbody := (List.cons.inj hcu).2
      exact not_separated_of_item hus hbefore hc hbody vs hm

theorem not_isDocument_of_hasOther {t : Text} (h : HasOther t) (bs : Bindings) :
    ¬ IsDocument bs t := by
  intro hdoc
  obtain ⟨before, u, after, hbefore, hu, -, he⟩ := hdoc
  cases h with
  | @intro cs us k before' front key gap gap' value hbefore' hus hfront hkey hgap hgap' hvalue =>
    cases hu with
    | @intro m hm =>
      have hmember := reads_memberReader
      have hbody : us.flatMap (· ++ [',']) ++ (front ++ (key ++ (gap ++ ':' :: (gap' ++ value)))) =
          m ++ [Sequence.object.close] ++ after := by
        have hskip := congrArg skipBlanks he
        rw [skipBlanks_append_cons hbefore' rfl, List.append_assoc, List.cons_append,
          List.cons_append, skipBlanks_append_cons hbefore rfl] at hskip
        exact (List.cons.inj hskip).2
      obtain ⟨as, hread, hmap⟩ := readElements_of_separated hmember solid_isMember .object hm after
      rw [← hbody] at hread
      obtain ⟨key', hkey'⟩ := hkey.solid
      rw [hkey'] at hread
      obtain ⟨⟨k', v⟩, -, front', r, hfront', hr⟩ :=
        exists_read_of_readElements hmember solid_isMember hus hfront rfl (by decide) hread
      have hr' : readMember boundReader (front' ++ (key ++ (gap ++ ':' :: (gap' ++ value)))) =
          .ok ((k', v), r) := by
        rw [hkey']
        exact hr
      rw [readMember_key hfront' hkey hgap] at hr'
      obtain ⟨p, hp, -⟩ := exists_of_map_eq_ok hr'
      exact readBound_of_beginsOther hvalue hgap' hp

end MarkupTemplate.Json

namespace MarkupTemplate

theorem Bindings.read_eq_error_iff {t : Text} :
    (∃ c, Bindings.read t = .error (.document c)) ↔ ∀ bs, Bindings.read t ≠ .ok bs := by
  unfold Bindings.read
  cases Json.readBindings t <;> simp [Except.mapError]

theorem Bindings.read_eq_ok_iff_readBindings {t : Text} {bs : Bindings} :
    Bindings.read t = .ok bs ↔ Json.readBindings t = .ok bs := by
  unfold Bindings.read
  cases Json.readBindings t <;> simp [Except.mapError]

/--
A text is read as bindings if and only if it is a document of these bindings, and with a complaint
if it is none of any. A member with another value is enough for that, whatever stands behind it.
-/
theorem read_eq_ok_iff_isDocument (t : Text) :
    (∀ bs, Bindings.read t = .ok bs ↔ Json.IsDocument bs t) ∧
      ((∃ c, Bindings.read t = .error (.document c)) ↔ ∀ bs, ¬ Json.IsDocument bs t) ∧
      (Json.HasOther t → ∃ c, Bindings.read t = .error (.document c)) := by
  have hok : ∀ bs, Bindings.read t = .ok bs ↔ Json.IsDocument bs t := by
    intro bs
    rw [Bindings.read_eq_ok_iff_readBindings, Json.readBindings_eq_ok_iff]
  have herror : (∃ c, Bindings.read t = .error (.document c)) ↔ ∀ bs, ¬ Json.IsDocument bs t := by
    rw [Bindings.read_eq_error_iff]
    exact forall_congr' fun bs => not_congr (hok bs)
  refine ⟨hok, herror, ?_⟩
  intro hother
  exact herror.mpr fun bs => Json.not_isDocument_of_hasOther hother bs

/-- A number stands behind a string in a list, where the text ends. -/
theorem read_eq_error_of_number_in_list :
    Json.HasOther ['\x7b', '"', 'p', '"', ':', '[', '"', 'x', '"', ',', '1'] ∧
      ∃ c, Bindings.read ['\x7b', '"', 'p', '"', ':', '[', '"', 'x', '"', ',', '1'] =
        .error (.document c) := by
  have hstring : ∀ c : Char, 0x20 ≤ c.toNat → c ≠ '"' → c ≠ '\\' →
      Json.IsString [c] ['"', c, '"'] := by
    intro c hc hquote hslash
    exact ⟨[[c]], .cons (.raw hc hquote hslash) .nil, rfl⟩
  have hitem : Json.Spaced Json.IsString ['x'] ['"', 'x', '"'] :=
    ⟨[], _, [], .nil, hstring 'x' (by decide) (by decide) (by decide), .nil, rfl⟩
  have hvalue : Json.BeginsOther ['[', '"', 'x', '"', ',', '1'] :=
    .item (.cons hitem .nil) .nil (by decide)
  have hother : Json.HasOther ['\x7b', '"', 'p', '"', ':', '[', '"', 'x', '"', ',', '1'] :=
    .intro .nil .nil .nil (hstring 'p' (by decide) (by decide) (by decide)) .nil .nil hvalue
  exact ⟨hother, (read_eq_ok_iff_isDocument _).2.2 hother⟩
end MarkupTemplate
