import Mathlib.Tactic.IntervalCases
import MarkupTemplate.Json.Quoted
import MarkupTemplate.Proofs.Json.Syntax

/-!
Reading the characters of a string. A reader takes what the grammar says from the front of a text,
whatever follows, and nothing else.
-/
namespace MarkupTemplate.Json

theorem IsHexDigit.lt {n : Nat} {c : Char} (h : IsHexDigit n c) : n < 16 := by
  rcases h with h | h
  · have := (List.getElem?_eq_some_iff.mp h).1
    simpa using this
  · have := (List.getElem?_eq_some_iff.mp h).1
    simpa using this

theorem hexDigit?_of_isHexDigit {n : Nat} {c : Char} (h : IsHexDigit n c) :
    hexDigit? c = some n := by
  have hn := h.lt
  rcases h with h | h
  · interval_cases n <;> (cases h; rfl)
  · interval_cases n <;> (cases h; rfl)

theorem toNat_lt_of_hexDigit? {n : Nat} {c : Char} (h : hexDigit? c = some n) : c.toNat < 103 := by
  unfold hexDigit? at h
  split at h
  · next hr =>
    have hc : c.toNat ≤ 57 := hr.2
    omega
  · split at h
    · next hr =>
      have hc : c.toNat ≤ 102 := hr.2
      omega
    · split at h
      · next hr =>
        have hc : c.toNat ≤ 70 := hr.2
        omega
      · cases h

theorem isHexDigit_of_hexDigit? {n : Nat} {c : Char} (h : hexDigit? c = some n) :
    IsHexDigit n c := by
  have hall : ∀ m < 103, ∀ k ∈ hexDigit? (Char.ofNat m), IsHexDigit k (Char.ofNat m) := by decide
  have hc := hall c.toNat (toNat_lt_of_hexDigit? h) n
  rw [Char.ofNat_toNat] at hc
  exact hc h

theorem hexDigit?_eq_some_iff {n : Nat} {c : Char} : hexDigit? c = some n ↔ IsHexDigit n c :=
  ⟨isHexDigit_of_hexDigit?, hexDigit?_of_isHexDigit⟩

theorem IsUnit.lt {n : Nat} {u : Text} (h : IsUnit n u) : n < 0x10000 := by
  cases h with
  | intro ha hb hc hd =>
    have := ha.lt
    have := hb.lt
    have := hc.lt
    have := hd.lt
    omega

theorem hexUnit?_eq_some_iff {n : Nat} {a b c d : Char} :
    hexUnit? a b c d = some n ↔ IsUnit n [a, b, c, d] := by
  simp only [hexUnit?, Option.bind_eq_bind, Option.bind_eq_some_iff, hexDigit?_eq_some_iff]
  constructor
  · intro h
    obtain ⟨i, ha, j, hb, k, hc, l, hd, hn⟩ := h
    obtain rfl := Option.some.inj hn
    have hunit := IsUnit.intro ha hb hc hd
    simpa using hunit
  · intro h
    cases h with
    | @intro i j k l _ _ _ _ ha hb hc hd =>
      exact ⟨i, ha, j, hb, k, hc, l, hd, by simp⟩

theorem readUnit_eq_ok_iff {n : Nat} {t rest : Text} :
    readUnit t = .ok (n, rest) ↔ ∃ u, IsUnit n u ∧ t = u ++ rest := by
  constructor
  · intro h
    unfold readUnit at h
    split at h
    · next a b c d rest' =>
      split at h
      · next m hm =>
        cases h
        exact ⟨[a, b, c, d], hexUnit?_eq_some_iff.mp hm, rfl⟩
      · cases h
    · split at h <;> cases h
  · intro h
    obtain ⟨u, hu, rfl⟩ := h
    cases hu with
    | @intro i j k l a b c d ha hb hc hd =>
      have hunit := hexUnit?_eq_some_iff.mpr (IsUnit.intro ha hb hc hd)
      simp [readUnit, hunit]

theorem toNat_ofNat {n : Nat} (h : n.isValidChar) : (Char.ofNat n).toNat = n := by
  rw [Char.ofNat, dif_pos h]
  rfl

theorem toNat_pairChar {i j : Nat} (hi : i < 0x400) (hj : j < 0x400) :
    (pairChar (0xD800 + i) (0xDC00 + j)).toNat = 0x10000 + i * 0x400 + j := by
  have hn : 0x10000 + (0xD800 + i - 0xD800) * 0x400 + (0xDC00 + j - 0xDC00) =
      0x10000 + i * 0x400 + j := by omega
  have hvalid : (0x10000 + i * 0x400 + j).isValidChar := by
    right
    omega
  rw [pairChar, hn]
  exact toNat_ofNat hvalid

/-- The second half of a pair behind the first. -/
theorem readLow_eq_ok_iff {high : Nat} {c : Char} {t rest : Text} :
    readLow high t = .ok (c, rest) ↔
      ∃ j v, j < 0x400 ∧ IsUnit (0xDC00 + j) v ∧ c = pairChar high (0xDC00 + j) ∧
        t = '\\' :: 'u' :: v ++ rest := by
  constructor
  · intro h
    unfold readLow at h
    split at h
    · next t =>
      cases hu : readUnit t with
      | error e => simp [hu] at h
      | ok p =>
        obtain ⟨low, rest'⟩ := p
        obtain ⟨v, hv, rfl⟩ := readUnit_eq_ok_iff.mp hu
        by_cases hlow : isLowSurrogate low = true
        · simp only [hu, hlow, if_true] at h
          obtain ⟨hc, rfl⟩ := Prod.mk.inj (Except.ok.inj h)
          simp only [isLowSurrogate, Bool.and_eq_true, decide_eq_true_eq] at hlow
          obtain ⟨hlo, hhi⟩ := hlow
          obtain ⟨j, hj⟩ := Nat.exists_eq_add_of_le hlo
          have hsmall : j < 0x400 := by omega
          rw [hj] at hv hc
          exact ⟨j, v, hsmall, hv, hc.symm, rfl⟩
        · simp [hu, hlow, stopAt] at h
    all_goals simp [stopAt, stopIn] at h
  · intro h
    obtain ⟨j, v, hj, hv, hc, rfl⟩ := h
    have hunit := readUnit_eq_ok_iff.mpr ⟨v, hv, (rfl : v ++ rest = v ++ rest)⟩
    have hlow : isLowSurrogate (0xDC00 + j) = true := by
      simp only [isLowSurrogate, Bool.and_eq_true, decide_eq_true_eq]
      omega
    rw [hc]
    simp only [List.cons_append, readLow, hunit, hlow, if_true]

theorem isLowSurrogate_eq_false (c : Char) : isLowSurrogate c.toNat = false := by
  have hc : c.toNat < 0xD800 ∨ 0xDFFF < c.toNat ∧ c.toNat < 0x110000 := c.valid
  simp only [isLowSurrogate, Bool.and_eq_false_iff, decide_eq_false_iff_not]
  omega

theorem isHighSurrogate_eq_false (c : Char) : isHighSurrogate c.toNat = false := by
  have hc : c.toNat < 0xD800 ∨ 0xDFFF < c.toNat ∧ c.toNat < 0x110000 := c.valid
  simp only [isHighSurrogate, Bool.and_eq_false_iff, decide_eq_false_iff_not]
  omega

/-- A number in four digits is a character or a half of one. -/
theorem exists_spells_of_unit {n : Nat} {u t rest : Text} {c : Char} (hu : IsUnit n u)
    (hlow : isLowSurrogate n = false)
    (h : (if isHighSurrogate n then readLow n t else .ok (Char.ofNat n, t)) = .ok (c, rest)) :
    ∃ v, Spells c ('\\' :: 'u' :: (u ++ v)) ∧ t = v ++ rest := by
  have hn := hu.lt
  simp only [isLowSurrogate, Bool.and_eq_false_iff, decide_eq_false_iff_not] at hlow
  by_cases hhigh : isHighSurrogate n = true
  · rw [if_pos hhigh] at h
    obtain ⟨j, v, hj, hv, hc, rfl⟩ := readLow_eq_ok_iff.mp h
    simp only [isHighSurrogate, Bool.and_eq_true, decide_eq_true_eq] at hhigh
    obtain ⟨hlo, hhi⟩ := hhigh
    obtain ⟨i, hi⟩ := Nat.exists_eq_add_of_le hlo
    have hsmall : i < 0x400 := by omega
    rw [hi] at hu hc
    have hchar := toNat_pairChar hsmall hj
    rw [← hc] at hchar
    exact ⟨'\\' :: 'u' :: v, .pair hsmall hj hu hv hchar, rfl⟩
  · rw [if_neg hhigh] at h
    obtain ⟨hc, rfl⟩ := Prod.mk.inj (Except.ok.inj h)
    simp only [isHighSurrogate, Bool.and_eq_true, decide_eq_true_eq] at hhigh
    have hvalid : n.isValidChar := by
      simp only [Nat.isValidChar]
      omega
    have hchar := toNat_ofNat hvalid
    rw [hc] at hchar
    refine ⟨[], ?_, rfl⟩
    rw [List.append_nil]
    exact .unit (hchar.symm ▸ hu)

theorem exists_spells_of_readEscape {t rest : Text} {c : Char}
    (h : readEscape t = .ok (c, rest)) : ∃ u, Spells c ('\\' :: u) ∧ t = u ++ rest := by
  have short : ∀ {e d : Char} {u : Text}, (e, d) ∈ shortEscapes →
      (.ok (d, u) : Read Char) = .ok (c, rest) →
        ∃ w, Spells c ('\\' :: w) ∧ e :: u = w ++ rest := by
    intro e d u he h
    obtain ⟨rfl, rfl⟩ := Prod.mk.inj (Except.ok.inj h)
    exact ⟨[e], .short he, rfl⟩
  unfold readEscape at h
  split at h
  case h_10 t =>
    cases hu : readUnit t with
    | error e => simp [hu] at h
    | ok p =>
      obtain ⟨n, t'⟩ := p
      obtain ⟨u, hunit, rfl⟩ := readUnit_eq_ok_iff.mp hu
      by_cases hlow : isLowSurrogate n = true
      · simp [hu, hlow, stopAt] at h
      · have hlow' : isLowSurrogate n = false := by simpa using hlow
        simp only [hu, hlow', Bool.false_eq_true, if_false] at h
        obtain ⟨v, hv, rfl⟩ := exists_spells_of_unit hunit hlow' h
        exact ⟨'u' :: (u ++ v), hv, by simp⟩
  case h_1 => cases h
  case h_11 => cases h
  all_goals exact short (by decide) h

theorem readEscape_of_spells {c : Char} {u : Text} (h : Spells c ('\\' :: u)) (rest : Text) :
    readEscape (u ++ rest) = .ok (c, rest) := by
  cases h with
  | raw _ _ hslash => exact absurd rfl hslash
  | short h =>
    simp only [shortEscapes, List.mem_cons, Prod.mk.injEq, List.not_mem_nil, or_false] at h
    rcases h with ⟨rfl, rfl⟩ | ⟨rfl, rfl⟩ | ⟨rfl, rfl⟩ | ⟨rfl, rfl⟩ | ⟨rfl, rfl⟩ | ⟨rfl, rfl⟩ |
      ⟨rfl, rfl⟩ | ⟨rfl, rfl⟩ <;> rfl
  | @unit u hu =>
    have hunit := readUnit_eq_ok_iff.mpr ⟨u, hu, (rfl : u ++ rest = u ++ rest)⟩
    simp only [List.cons_append, readEscape, hunit, isLowSurrogate_eq_false,
      isHighSurrogate_eq_false, Bool.false_eq_true, if_false, Char.ofNat_toNat]
  | @pair i j u v hi hj hu hv hc =>
    have hunit := readUnit_eq_ok_iff.mpr
      ⟨u, hu, (rfl : u ++ ('\\' :: 'u' :: (v ++ rest)) = u ++ ('\\' :: 'u' :: (v ++ rest)))⟩
    have hlow : isLowSurrogate (0xD800 + i) = false := by
      simp only [isLowSurrogate, Bool.and_eq_false_iff, decide_eq_false_iff_not]
      omega
    have hhigh : isHighSurrogate (0xD800 + i) = true := by
      simp only [isHighSurrogate, Bool.and_eq_true, decide_eq_true_eq]
      omega
    have hchar : c = pairChar (0xD800 + i) (0xDC00 + j) := by
      rw [← Char.toNat_inj, hc, toNat_pairChar hi hj]
    have hrest := readLow_eq_ok_iff.mpr ⟨j, v, hj, hv, hchar, (rfl : _ = '\\' :: 'u' :: v ++ rest)⟩
    have hflat : 'u' :: (u ++ '\\' :: 'u' :: v) ++ rest =
        'u' :: (u ++ ('\\' :: 'u' :: (v ++ rest))) := by simp
    rw [hflat]
    simp only [readEscape, hunit, hlow, hhigh, Bool.false_eq_true, if_false, if_true]
    exact hrest

theorem readQuoted_quote (rest : Text) : readQuoted ('"' :: rest) = .ok ([], rest) := by
  rw [readQuoted]

theorem readQuoted_escape {c : Char} {t rest : Text} (h : readEscape t = .ok (c, rest)) :
    readQuoted ('\\' :: t) = (readQuoted rest).map fun (text, rest) => (c :: text, rest) := by
  rw [readQuoted]
  split
  · next c' rest' h' =>
    rw [h] at h'
    obtain ⟨rfl, rfl⟩ := Prod.mk.inj (Except.ok.inj h')
    rfl
  · next h' => simp [h] at h'

theorem readQuoted_raw {c : Char} (hc : 0x20 ≤ c.toNat) (hquote : c ≠ '"') (hslash : c ≠ '\\')
    (t : Text) :
    readQuoted (c :: t) = (readQuoted t).map fun (text, rest) => (c :: text, rest) := by
  rw [readQuoted]
  · rw [if_neg (by omega)]
  · exact hquote
  · exact hslash

theorem readQuoted_of_spells {t : Text} {us : List Text} (h : List.Forall₂ Spells t us)
    (rest : Text) : readQuoted (us.flatten ++ '"' :: rest) = .ok (t, rest) := by
  induction h with
  | nil => exact readQuoted_quote rest
  | @cons c u t us hc _ ih =>
    rw [List.flatten_cons, List.append_assoc]
    have escape : ∀ {v : Text}, Spells c ('\\' :: v) →
        readQuoted ('\\' :: v ++ (us.flatten ++ '"' :: rest)) = .ok (c :: t, rest) := by
      intro v hv
      rw [List.cons_append, readQuoted_escape (readEscape_of_spells hv _), ih]
      rfl
    cases hc with
    | raw hc hquote hslash =>
      rw [List.singleton_append, readQuoted_raw hc hquote hslash, ih]
      rfl
    | short h => exact escape (.short h)
    | unit hu => exact escape (.unit hu)
    | pair hi hj hu hv hc => exact escape (.pair hi hj hu hv hc)

theorem exists_spells_of_readQuoted {t s rest : Text} (h : readQuoted t = .ok (s, rest)) :
    ∃ us, List.Forall₂ Spells s us ∧ t = us.flatten ++ '"' :: rest := by
  fun_induction readQuoted t generalizing s rest with
  | case1 => cases h
  | case2 t =>
    cases h
    exact ⟨[], .nil, rfl⟩
  | case3 t c t' he ih =>
    obtain ⟨u, hu, rfl⟩ := exists_spells_of_readEscape he
    cases hq : readQuoted t' with
    | error e => simp [hq, Except.map] at h
    | ok p =>
      obtain ⟨us, hus, rfl⟩ := ih hq
      simp only [hq, Except.map] at h
      cases h
      exact ⟨('\\' :: u) :: us, .cons hu hus, by simp⟩
  | case4 => cases h
  | case5 => cases h
  | case6 c t hquote hslash hc ih =>
    cases hq : readQuoted t with
    | error e => simp [hq, Except.map] at h
    | ok p =>
      obtain ⟨us, hus, rfl⟩ := ih hq
      simp only [hq, Except.map] at h
      cases h
      have hraw : Spells c [c] := .raw (by omega) hquote hslash
      exact ⟨[c] :: us, .cons hraw hus, rfl⟩

end MarkupTemplate.Json
