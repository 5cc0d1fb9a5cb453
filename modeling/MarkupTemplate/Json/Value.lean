import MarkupTemplate.Json.Number
import MarkupTemplate.Json.Quoted
import MarkupTemplate.Outcome
import MarkupTemplate.Value

/-! Reading any JSON value, of which only null, strings and lists of strings are kept. -/
namespace MarkupTemplate.Json

/-- Reads a value that is no list and no object; no blank stands before it. -/
def readScalar : Text → Read Scalar
  | [] => stopAt .endInValue []
  | c :: t =>
    if c = 'n' then (readWord ['u', 'l', 'l'] t).map (.null, ·)
    else if c = 't' then (readWord ['r', 'u', 'e'] t).map (.boolean true, ·)
    else if c = 'f' then (readWord ['a', 'l', 's', 'e'] t).map (.boolean false, ·)
    else if c = '"' then (readQuoted t).map fun (text, rest) => (.text text, rest)
    else if c = '-' || c.isDigit then (readNumber (c :: t)).map fun (n, rest) => (.number n, rest)
    else stopIn .noValue (c :: t)

inductive Sequence where
  | list
  | object

namespace Sequence

def close : Sequence → Char
  | list => ']'
  | object => '\x7d'

def atEnd : Sequence → Fault
  | list => .endInList
  | object => .endInObject

def noSeparator : Sequence → Fault
  | list => .noListSeparator
  | object => .noObjectSeparator

end Sequence

variable {α : Type}

/-- Reads the elements behind the first, up to the closing bracket. -/
def readMore (s : Sequence) (element : Reader α) (t : Text) : Read (List α) :=
  match _h : skipBlanks t with
  | [] => stopAt s.atEnd []
  | c :: u =>
    if c = s.close then .ok ([], u)
    else if c = ',' then
      if (skipBlanks u).head? = some s.close then stopIn .trailingComma (skipBlanks u)
      else
        match _he : element.read u with
        | .ok (a, rest) => (readMore s element rest).map fun (as, rest) => (a :: as, rest)
        | .error e => .error e
    else stopIn s.noSeparator (c :: u)
termination_by t.length
decreasing_by
  have h1 := length_skipBlanks_le t
  have h2 := element.length_lt _he
  rw [_h, List.length_cons] at h1
  omega

/-- Reads the elements behind the opening bracket. -/
def readElements (s : Sequence) (element : Reader α) (t : Text) : Read (List α) :=
  match skipBlanks t with
  | [] => stopAt s.atEnd []
  | c :: t =>
    if c = s.close then .ok ([], t)
    else
      match element.read (c :: t) with
      | .ok (a, rest) => (readMore s element rest).map fun (as, rest) => (a :: as, rest)
      | .error e => .error e

def readMember (value : Reader α) (t : Text) : Read (Text × α) :=
  match skipBlanks t with
  | [] => stopAt .endInValue []
  | '"' :: t =>
    match readQuoted t with
    | .ok (key, rest) =>
      match skipBlanks rest with
      | [] => stopAt .endInObject []
      | ':' :: rest => (value.read rest).map fun (a, rest) => ((key, a), rest)
      | rest => stopIn .noColon rest
    | .error e => .error e
  | t => stopIn .badKey t

theorem length_readScalar_lt {t rest : Text} {v : Scalar} (h : readScalar t = .ok (v, rest)) :
    rest.length < t.length := by
  cases t with
  | nil => cases h
  | cons c t =>
    simp only [readScalar] at h
    have word {w : Text} {b : Scalar} (h : (readWord w t).map (b, ·) = .ok (v, rest)) :
        rest.length < (c :: t).length := by
      obtain ⟨r, hr, he⟩ := exists_of_map_eq_ok h
      cases he
      exact Nat.lt_succ_of_le (length_readWord_le hr)
    split at h
    · exact word h
    · split at h
      · exact word h
      · split at h
        · exact word h
        · split at h
          · obtain ⟨p, hp, he⟩ := exists_of_map_eq_ok h
            cases he
            exact Nat.lt_succ_of_lt (length_readQuoted_lt hp)
          · split at h
            · obtain ⟨p, hp, he⟩ := exists_of_map_eq_ok h
              cases he
              exact length_readNumber_lt hp
            · cases h

theorem length_readMore_lt {s : Sequence} {element : Reader α} {t rest : Text} {as : List α}
    (h : readMore s element t = .ok (as, rest)) : rest.length < t.length := by
  fun_induction readMore s element t generalizing as rest with
  | case1 => cases h
  | case2 t u hs =>
    cases h
    have := length_skipBlanks_le t
    rw [hs, List.length_cons] at this
    omega
  | case3 => cases h
  | case4 t u _ a r he hs _ ih =>
    obtain ⟨p, hp, h⟩ := exists_of_map_eq_ok h
    cases h
    have := ih hp
    have := element.length_lt he
    have := length_skipBlanks_le t
    rw [hs, List.length_cons] at this
    omega
  | case5 => cases h
  | case6 => cases h

theorem length_readElements_lt {s : Sequence} {element : Reader α} {t rest : Text} {as : List α}
    (h : readElements s element t = .ok (as, rest)) : rest.length < t.length := by
  unfold readElements at h
  have hl := length_skipBlanks_le t
  split at h
  · cases h
  · next c u hs =>
    rw [hs] at hl
    split at h
    · cases h
      exact hl
    · split at h
      · next he =>
        obtain ⟨p, hp, h⟩ := exists_of_map_eq_ok h
        cases h
        have := length_readMore_lt hp
        have := element.length_lt he
        omega
      · cases h

theorem length_readMember_lt {value : Reader α} {t rest : Text} {m : Text × α}
    (h : readMember value t = .ok (m, rest)) : rest.length < t.length := by
  unfold readMember at h
  have hl := length_skipBlanks_le t
  split at h
  · cases h
  · next u hs =>
    rw [hs, List.length_cons] at hl
    split at h
    · next r hq =>
      have hq := length_readQuoted_lt hq
      split at h
      · cases h
      · next v hc =>
        obtain ⟨p, hp, h⟩ := exists_of_map_eq_ok h
        cases h
        have hr := length_skipBlanks_le r
        rw [hc, List.length_cons] at hr
        have := value.length_lt hp
        omega
      · cases h
    · cases h
  · cases h

def memberReader (value : Reader α) : Reader (Text × α) :=
  ⟨readMember value, length_readMember_lt⟩

/-- Booleans and numbers are no values of bindings. -/
def Scalar.value? : Scalar → Option Value
  | null => some .absent
  | text t => some (.text t)
  | boolean _ | number _ => none

def itemText? : Option Value → Option Text
  | some (.text t) => some t
  | _ => none

def listValue? (items : List (Option Value)) : Option Value :=
  (items.mapM itemText?).map .list

/-- Reads a value; `inner` reads what stands in a list or an object, if one may be entered. -/
def readValueWith (inner : Option (Reader (Option Value))) (t : Text) : Read (Option Value) :=
  match skipBlanks t with
  | '[' :: t =>
    match inner with
    | none => stopIn .tooDeep ('[' :: t)
    | some item => (readElements .list item t).map fun (vs, rest) => (listValue? vs, rest)
  | '\x7b' :: t =>
    match inner with
    | none => stopIn .tooDeep ('\x7b' :: t)
    | some value => (readElements .object (memberReader value) t).map fun (_, rest) => (none, rest)
  | t => (readScalar t).map fun (v, rest) => (v.value?, rest)

theorem length_readValueWith_lt {inner : Option (Reader (Option Value))} {t rest : Text}
    {v : Option Value} (h : readValueWith inner t = .ok (v, rest)) : rest.length < t.length := by
  unfold readValueWith at h
  have hl := length_skipBlanks_le t
  split at h
  · next hs =>
    rw [hs, List.length_cons] at hl
    cases inner with
    | none => cases h
    | some item =>
      obtain ⟨p, hp, h⟩ := exists_of_map_eq_ok h
      cases h
      have := length_readElements_lt hp
      omega
  · next hs =>
    rw [hs, List.length_cons] at hl
    cases inner with
    | none => cases h
    | some value =>
      obtain ⟨p, hp, h⟩ := exists_of_map_eq_ok h
      cases h
      have := length_readElements_lt hp
      omega
  · obtain ⟨p, hp, h⟩ := exists_of_map_eq_ok h
    cases h
    have := length_readScalar_lt hp
    omega

/-- Reads a value in which lists and objects are nested at most `levels` deep. -/
def valueReader : (levels : Nat) → Reader (Option Value)
  | 0 => ⟨readValueWith none, length_readValueWith_lt⟩
  | levels + 1 => ⟨readValueWith (some (valueReader levels)), length_readValueWith_lt⟩

end MarkupTemplate.Json
