import MarkupTemplate.Json.Reader

/-! Reading a JSON string behind its opening quote. -/
namespace MarkupTemplate.Json

def hexDigit? (c : Char) : Option Nat :=
  if '0' ≤ c ∧ c ≤ '9' then some (c.toNat - '0'.toNat)
  else if 'a' ≤ c ∧ c ≤ 'f' then some (c.toNat - 'a'.toNat + 10)
  else if 'A' ≤ c ∧ c ≤ 'F' then some (c.toNat - 'A'.toNat + 10)
  else none

def hexUnit? (a b c d : Char) : Option Nat := do
  let ds := [← hexDigit? a, ← hexDigit? b, ← hexDigit? c, ← hexDigit? d]
  return ds.foldl (fun n d => n * 16 + d) 0

/-- Four bytes are taken together, so a fault among them stops behind them. -/
def readUnit (t : Text) : Read Nat :=
  match t with
  | a :: b :: c :: d :: rest =>
    match hexUnit? a b c d with
    | some n => .ok (n, rest)
    | none => .error ⟨.badEscape, Text.byteSize t - 4⟩
  | _ =>
    if Text.byteSize t < 4 then stopAt .endInString []
    else .error ⟨.badEscape, Text.byteSize t - 4⟩

def isHighSurrogate (n : Nat) : Bool := 0xD800 ≤ n && n < 0xDC00

def isLowSurrogate (n : Nat) : Bool := 0xDC00 ≤ n && n < 0xE000

/-- The character of a pair of surrogates. -/
def pairChar (high low : Nat) : Char :=
  Char.ofNat (0x10000 + (high - 0xD800) * 0x400 + (low - 0xDC00))

/-- Behind a high surrogate an escape with a low one has to follow. -/
def readLow (high : Nat) : Text → Read Char
  | '\\' :: 'u' :: t =>
    match readUnit t with
    | .ok (low, rest) =>
      if isLowSurrogate low then .ok (pairChar high low, rest) else stopAt .loneSurrogate rest
    | .error e => .error e
  | [] | ['\\'] => stopAt .endInString []
  | '\\' :: t => stopIn .noSecondSurrogate t
  | t => stopIn .noSecondSurrogate t

/-- Reads an escape behind its backslash. -/
def readEscape : Text → Read Char
  | [] => stopAt .endInString []
  | '"' :: t => .ok ('"', t)
  | '\\' :: t => .ok ('\\', t)
  | '/' :: t => .ok ('/', t)
  | 'b' :: t => .ok ('\x08', t)
  | 'f' :: t => .ok ('\x0c', t)
  | 'n' :: t => .ok ('\n', t)
  | 'r' :: t => .ok ('\r', t)
  | 't' :: t => .ok ('\t', t)
  | 'u' :: t =>
    match readUnit t with
    | .ok (n, rest) =>
      if isLowSurrogate n then stopAt .loneSurrogate rest
      else if isHighSurrogate n then readLow n rest
      else .ok (Char.ofNat n, rest)
    | .error e => .error e
  | t => stopIn .badEscape t

theorem length_readUnit {t rest : Text} {n : Nat} (h : readUnit t = .ok (n, rest)) :
    t.length = rest.length + 4 := by
  unfold readUnit at h
  split at h
  · split at h <;> cases h
    rfl
  · split at h <;> cases h

theorem length_readLow_lt {high : Nat} {t rest : Text} {c : Char}
    (h : readLow high t = .ok (c, rest)) : rest.length < t.length := by
  unfold readLow at h
  split at h
  · split at h
    · next hu =>
      have := length_readUnit hu
      split at h
      · obtain ⟨-, rfl⟩ := Prod.mk.inj (Except.ok.inj h)
        simp
        omega
      · cases h
    · cases h
  all_goals cases h

theorem length_readEscape_lt {t rest : Text} {c : Char} (h : readEscape t = .ok (c, rest)) :
    rest.length < t.length := by
  unfold readEscape at h
  split at h
  case h_10 =>
    split at h
    · next hu =>
      have := length_readUnit hu
      split at h
      · cases h
      · split at h
        · have := length_readLow_lt h
          simp
          omega
        · cases h
          simp
          omega
    · cases h
  all_goals cases h
  all_goals simp

def readQuoted (t : Text) : Read Text :=
  match t with
  | [] => stopAt .endInString []
  | '"' :: t => .ok ([], t)
  | '\\' :: t =>
    match _h : readEscape t with
    | .ok (c, rest) => (readQuoted rest).map fun (text, rest) => (c :: text, rest)
    | .error e => .error e
  | c :: t =>
    if c.toNat < 0x20 then stopAt .controlCharacter t
    else (readQuoted t).map fun (text, rest) => (c :: text, rest)
termination_by t.length
decreasing_by
  · have := length_readEscape_lt _h
    simp
    omega
  · simp

theorem length_readQuoted_lt {t text rest : Text} (h : readQuoted t = .ok (text, rest)) :
    rest.length < t.length := by
  fun_induction readQuoted t generalizing text rest with
  | case1 => cases h
  | case2 => cases h; simp
  | case3 t c rest' he ih =>
    have := length_readEscape_lt he
    cases hq : readQuoted rest' with
    | error => simp [hq, Except.map] at h
    | ok p =>
      have := ih hq
      simp only [hq, Except.map] at h
      cases h
      simp
      omega
  | case4 => cases h
  | case5 => cases h
  | case6 c t _ _ _ ih =>
    cases hq : readQuoted t with
    | error => simp [hq, Except.map] at h
    | ok p =>
      have := ih hq
      simp only [hq, Except.map] at h
      cases h
      simp
      omega

end MarkupTemplate.Json
