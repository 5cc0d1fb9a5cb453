import MarkupTemplate.Json.Reader

/-! Reading a JSON number: its digits go into a significand of 64 bits and an exponent of ten. -/
namespace MarkupTemplate.Json

def digitValue (c : Char) : Nat := c.toNat - '0'.toNat

/-- Appends digits to `n` as long as it stays within `limit`. -/
def takeDigits (limit : Nat) : Nat → Text → Nat × Text
  | n, [] => (n, [])
  | n, c :: t =>
    if c.isDigit && n * 10 + digitValue c ≤ limit then takeDigits limit (n * 10 + digitValue c) t
    else (n, c :: t)

def skipDigits (t : Text) : Text := t.dropWhile Char.isDigit

def startsWithDigit (t : Text) : Bool := t.head?.any Char.isDigit

/-- A number as it is written, without its sign: `significand * 10 ^ exponent`. -/
structure Written where
  significand : Nat
  exponent : Int
  /-- There is neither a point nor an exponent, and no digit is left out. -/
  whole : Bool

def significandLimit : Nat := 0xFFFFFFFFFFFFFFFF

def exponentLimit : Nat := 0x7FFFFFFF

/-- Digits beyond the significand raise the exponent. -/
def readWhole : Text → Read Written
  | [] => stopAt .endInValue []
  | '0' :: t => if startsWithDigit t then stopIn .badNumber t else .ok (⟨0, 0, true⟩, t)
  | c :: t =>
    if c.isDigit then
      let (n, beyond) := takeDigits significandLimit 0 (c :: t)
      let rest := skipDigits beyond
      .ok (⟨n, beyond.length - rest.length, beyond.length = rest.length⟩, rest)
    else stopIn .badNumber (c :: t)

/-- Digits that do not fit the significand are left out. -/
def readFraction (w : Written) : Text → Read Written
  | '.' :: t =>
    if startsWithDigit t then
      let (n, beyond) := takeDigits significandLimit w.significand t
      .ok (⟨n, w.exponent - (t.length - beyond.length : Nat), false⟩, skipDigits beyond)
    else if t = [] then stopAt .endInValue [] else stopIn .badNumber t
  | t => .ok (w, t)

def takeSign : Text → Bool × Text
  | '+' :: t => (false, t)
  | '-' :: t => (true, t)
  | t => (false, t)

/-- An exponent beyond the limit is refused at once, unless it makes the number zero. -/
def readExponent (w : Written) : Text → Read Written
  | [] => .ok (w, [])
  | c :: t =>
    if c = 'e' ∨ c = 'E' then
      let (negative, t) := takeSign t
      if t = [] then stopAt .endInValue []
      else if startsWithDigit t then
        let (n, beyond) := takeDigits exponentLimit 0 t
        if startsWithDigit beyond then
          if w.significand = 0 ∨ negative then .ok (⟨0, 0, false⟩, skipDigits beyond)
          else stopIn .numberTooLarge beyond
        else
          let exponent := if negative then w.exponent - n else w.exponent + n
          .ok (⟨w.significand, exponent, false⟩, beyond)
      else stopIn .badNumber t
    else .ok (w, c :: t)

def doubleTenPow (n : Nat) : Float := Float.ofScientific 1 false n

/-- Divides by `10 ^ n` in steps that a double can hold. -/
def divTenPow (x : Float) (n : Nat) : Float :=
  if _h : n ≤ 308 then x / doubleTenPow n
  else if x == 0 then x
  else divTenPow (x / doubleTenPow 308) (n - 308)
termination_by n
decreasing_by omega

/-- The significand and the scaled value are both rounded; a value beyond the doubles is none. -/
def Written.double? (w : Written) : Option Float :=
  let x := w.significand.toUInt64.toFloat
  if w.exponent < 0 then some (divTenPow x w.exponent.natAbs)
  else if w.exponent ≤ 308 then
    let y := x * doubleTenPow w.exponent.toNat
    if y.isInf then none else some y
  else if x == 0 then some x
  else none

/-- A negative integer has at most 63 bits, and `-0` is a double. -/
def Written.number? (negative : Bool) (w : Written) : Option Number :=
  if w.whole && !negative then some (.integer w.significand)
  else if w.whole && 0 < w.significand && w.significand ≤ 0x8000000000000000 then
    some (.integer (-w.significand))
  else w.double?.map fun x => .double (if negative then -x else x)

def readDigits (negative : Bool) (t : Text) : Read Number :=
  match readWhole t with
  | .error e => .error e
  | .ok (w, t) =>
    match readFraction w t with
    | .error e => .error e
    | .ok (w, t) =>
      match readExponent w t with
      | .error e => .error e
      | .ok (w, t) =>
        match w.number? negative with
        | some n => .ok (n, t)
        | none => stopAt .numberTooLarge t

def readNumber : Text → Read Number
  | '-' :: t => readDigits true t
  | t => readDigits false t

theorem length_skipDigits_le (t : Text) : (skipDigits t).length ≤ t.length :=
  (List.dropWhile_sublist Char.isDigit).length_le

theorem length_takeDigits_le (limit n : Nat) (t : Text) :
    (takeDigits limit n t).2.length ≤ t.length := by
  induction t generalizing n with
  | nil => simp [takeDigits]
  | cons c t ih =>
    simp only [takeDigits]
    split
    · exact Nat.le_succ_of_le (ih _)
    · exact Nat.le_refl _

theorem length_takeSign_le (t : Text) : (takeSign t).2.length ≤ t.length := by
  unfold takeSign
  split <;> simp

theorem length_readWhole_lt {t rest : Text} {w : Written} (h : readWhole t = .ok (w, rest)) :
    rest.length < t.length := by
  unfold readWhole at h
  split at h
  · cases h
  · split at h <;> cases h
    simp
  · next c t _ =>
    split at h
    · next hc =>
      have hd : digitValue c ≤ significandLimit := by
        simp only [Char.isDigit, Bool.and_eq_true, decide_eq_true_eq] at hc
        have : c.toNat ≤ 57 := hc.2
        simp only [digitValue, significandLimit]
        omega
      have hs : takeDigits significandLimit 0 (c :: t) =
          takeDigits significandLimit (digitValue c) t := by
        simp [takeDigits, hc, hd]
      rw [hs] at h
      have h1 := length_takeDigits_le significandLimit (digitValue c) t
      have h2 := length_skipDigits_le (takeDigits significandLimit (digitValue c) t).2
      cases h
      rw [List.length_cons]
      omega
    · cases h

theorem length_readFraction_le {t rest : Text} {v w : Written}
    (h : readFraction v t = .ok (w, rest)) : rest.length ≤ t.length := by
  unfold readFraction at h
  split at h
  · next t =>
    split at h
    · cases h
      have h1 := length_takeDigits_le significandLimit v.significand t
      have h2 := length_skipDigits_le (takeDigits significandLimit v.significand t).2
      rw [List.length_cons]
      omega
    · split at h <;> cases h
  · cases h
    exact Nat.le_refl _

theorem length_readExponent_le {t rest : Text} {v w : Written}
    (h : readExponent v t = .ok (w, rest)) : rest.length ≤ t.length := by
  unfold readExponent at h
  split at h
  · cases h
    exact Nat.le_refl _
  · next c t =>
    split at h
    · have h0 := length_takeSign_le t
      have h1 := length_takeDigits_le exponentLimit 0 (takeSign t).2
      have h2 := length_skipDigits_le (takeDigits exponentLimit 0 (takeSign t).2).2
      rw [List.length_cons]
      simp only at h
      split at h
      · cases h
      · split at h
        · split at h
          · split at h <;> cases h
            omega
          · cases h
            omega
        · cases h
    · cases h
      exact Nat.le_refl _

theorem length_readDigits_lt {negative : Bool} {t rest : Text} {n : Number}
    (h : readDigits negative t = .ok (n, rest)) : rest.length < t.length := by
  unfold readDigits at h
  split at h
  · cases h
  · next hw =>
    split at h
    · cases h
    · next hf =>
      split at h
      · cases h
      · next he =>
        split at h
        · cases h
          have := length_readWhole_lt hw
          have := length_readFraction_le hf
          have := length_readExponent_le he
          omega
        · cases h

theorem length_readNumber_lt {t rest : Text} {n : Number} (h : readNumber t = .ok (n, rest)) :
    rest.length < t.length := by
  unfold readNumber at h
  split at h
  · exact Nat.lt_succ_of_lt (length_readDigits_lt h)
  · exact length_readDigits_lt h

end MarkupTemplate.Json
